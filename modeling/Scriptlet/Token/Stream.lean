import Scriptlet.Diagnostic.Basic
import Scriptlet.Token.Piece

/-!
The stream of tokens of a source. Tokens are scanned on demand; lexical problems do not
stop the scan and are collected until they are asked for. One token can be given back; a
second one would take the place of the first, which is then kept among the lost ones.

The stream measures what is still unread. Every token but the end of the file takes some
of it, which is what ends the loops that read on.
-/
namespace Scriptlet

namespace Token

structure Scan where
  token : Token
  rest : List Char
  line : UInt32
  errors : List Diagnostic
  deriving DecidableEq, Repr

def Scan.withError (s : Scan) (d : Diagnostic) : Scan := { s with errors := d :: s.errors }

def endOfFile (line : UInt32) : Token := ⟨.endOfFile, "<end of file>", line⟩

def endOfLine (line : UInt32) : Token := ⟨.endOfLine, "<end of line>", line⟩

def strayCharacter (line : UInt32) (cs : List Char) : Diagnostic :=
  (Diagnostic.error .unexpectedCharacter line).withToken (String.ofList cs)

/-- A quoted text that a line break cut off is reported; one cut off by the end of the
source is not. -/
def quotationErrors (line : UInt32) (content : List Char) : Ending → List Diagnostic
  | .lineBreak => [(Diagnostic.error .newLineInString line).withToken (String.ofList content)]
  | .closed => []
  | .unclosed => []

def scan (cs : List Char) (line : UInt32) : Scan :=
  match cs with
  | [] => ⟨endOfFile line, [], line, []⟩
  | c :: rest =>
    let p := Piece.cut c rest
    have : p.left.length < (c :: rest).length := Piece.cut_left_lt c rest
    match p.role with
    | .skipped => scan p.left (line + .ofNat p.breaks)
    | .stray => (scan p.left (line + .ofNat p.breaks)).withError (strayCharacter line p.taken)
    | .lineBreak => ⟨endOfLine line, p.left, line + .ofNat p.breaks, []⟩
    | .plain kind => ⟨⟨kind, String.ofList p.taken, line⟩, p.left, line + .ofNat p.breaks, []⟩
    | .quoted content ending =>
      ⟨⟨.string, String.ofList content, line⟩, p.left, line + .ofNat p.breaks,
        quotationErrors line content ending⟩
termination_by cs.length
decreasing_by all_goals exact this

@[simp] theorem scan_nil (line : UInt32) : scan [] line = ⟨endOfFile line, [], line, []⟩ := by
  rw [scan]

theorem scan_rest_lt (cs : List Char) (line : UInt32)
    (more : (scan cs line).token.kind ≠ .endOfFile) : (scan cs line).rest.length < cs.length := by
  fun_induction scan cs line with
  | case1 line => exact absurd rfl more
  | case2 line c rest p shorter same ih => exact Nat.lt_trans (ih more) shorter
  | case3 line c rest p shorter same ih => exact Nat.lt_trans (ih more) shorter
  | case4 line c rest p shorter same => exact shorter
  | case5 line c rest p shorter kind same => exact shorter
  | case6 line c rest p shorter content ending same => exact shorter

theorem scan_rest_le (cs : List Char) (line : UInt32) : (scan cs line).rest.length ≤ cs.length := by
  fun_induction scan cs line with
  | case1 line => exact Nat.le_refl _
  | case2 line c rest p shorter same ih => exact Nat.le_trans ih (Nat.le_of_lt shorter)
  | case3 line c rest p shorter same ih => exact Nat.le_trans ih (Nat.le_of_lt shorter)
  | case4 line c rest p shorter same => exact Nat.le_of_lt shorter
  | case5 line c rest p shorter kind same => exact Nat.le_of_lt shorter
  | case6 line c rest p shorter content ending same => exact Nat.le_of_lt shorter

end Token

structure TokenStream where
  rest : List Char
  line : UInt32
  pushed : Option Token
  errors : Array Diagnostic
  lost : List Token
  deriving DecidableEq, Repr

namespace TokenStream

def ofSource (source : String) : TokenStream := ⟨source.toList, 1, none, #[], []⟩

def unread (s : TokenStream) : Nat := s.rest.length + if s.pushed.isSome then 1 else 0

def scan (s : TokenStream) : Token × TokenStream :=
  let r := Token.scan s.rest s.line
  (r.token, ⟨r.rest, r.line, none, s.errors ++ r.errors, s.lost⟩)

def next (s : TokenStream) : Token × TokenStream :=
  match s.pushed with
  | some t => (t, { s with pushed := none })
  | none => s.scan

def unget (t : Token) (s : TokenStream) : TokenStream :=
  { s with pushed := some t, lost := s.pushed.toList ++ s.lost }

def peek (s : TokenStream) : Token × TokenStream :=
  let (t, s) := s.next
  (t, s.unget t)

def takeErrors (s : TokenStream) : Array Diagnostic × TokenStream :=
  (s.errors, { s with errors := #[] })

theorem next_unread_lt (s : TokenStream) (more : s.next.1.kind ≠ .endOfFile) :
    s.next.2.unread < s.unread := by
  unfold next at more ⊢
  split
  · rename_i t pushed
    simp [unread, pushed]
  · rename_i nothing
    simp only [nothing] at more
    have := Token.scan_rest_lt s.rest s.line more
    simpa [unread, nothing, scan] using this

def nextPastBreaks (s : TokenStream) : Token × TokenStream :=
  let read := s.next
  if h : read.1.kind = .endOfLine then
    have : read.2.unread < s.unread := next_unread_lt s (by simp [read] at h; simp [h])
    read.2.nextPastBreaks
  else read
termination_by s.unread

end TokenStream

end Scriptlet
