import Scriptlet.Proofs.Rules.Outcomes
import Scriptlet.Proofs.Source.Jumps

/-!
A source whose text is broken is never compiled. A character that starts nothing and a quoted text
that a line break cuts off are problems that the scan meets, and as the whole text is read, they are
on record in the end. A quoted text that is still open at the end is no problem of the scan: it is
the last token of the source. But a source that compiles has a function, nothing but functions comes
after the first one, and the last token of a function is a brace.
-/
namespace Scriptlet

namespace Token

def Piece.Role.isBroken : Piece.Role → Bool
  | .stray => true
  | .quoted _ .lineBreak => true
  | .quoted _ .unclosed => true
  | _ => false

theorem Piece.Role.reported_or_unclosed {role : Piece.Role} (broken : role.isBroken = true) :
    role.isReported = true ∨ role.isUnclosed = true := by
  cases role with
  | stray => exact Or.inl rfl
  | quoted content ending =>
    cases ending with
    | lineBreak => exact Or.inl rfl
    | unclosed => exact Or.inr rfl
    | closed => cases broken
  | _ => cases broken

/-- A text with a character that starts nothing, with a line break in a quoted text, or with a
quoted text that is still open at the end. -/
def Broken (text : List Char) : Prop := ∃ p ∈ pieces text, p.role.isBroken = true

instance (text : List Char) : Decidable (Broken text) := List.decidableBEx _ _

end Token

namespace TokenStream

variable {s : TokenStream}

/-- A quoted text that stays open is the next token, and then nothing is left, or it comes later. -/
theorem next_unclosed (free : s.pushed = none)
    (unclosed : ∃ p ∈ Token.pieces s.rest, p.role.isUnclosed = true) :
    s.next.1.kind = .string ∧ s.next.2.rest = [] ∨
      ∃ p ∈ Token.pieces s.next.2.rest, p.role.isUnclosed = true := by
  have scanned : s.next = s.scan := by rw [next, free]
  obtain ⟨p, member, open_⟩ := unclosed
  obtain ⟨before, cut, shows_⟩ := Token.scan_pieces s.rest s.line
  rw [cut, List.mem_append] at member
  rw [scanned]
  rcases member with taken | ahead
  · exact Or.inl ((shows_ p taken).unclosed open_)
  · exact Or.inr ⟨p, ahead, open_⟩

theorem remaining_nil (free : s.pushed = none) (none_ : s.rest = []) : s.remaining = [] := by
  apply remaining_of_end
  simp [next, free, scan, none_, Token.endOfFile]

theorem remaining_unclosed (free : s.pushed = none)
    (unclosed : ∃ p ∈ Token.pieces s.rest, p.role.isUnclosed = true) :
    ∃ t, t.kind = .string ∧ [t] <:+ s.remaining := by
  fun_induction remaining s with
  | case1 s last =>
    rcases next_unclosed free unclosed with ⟨string, -⟩ | ⟨p, member, -⟩
    · rw [last] at string
      cases string
    · rw [next, free] at last member
      rw [scan, Token.scan_end last] at member
      simp at member
  | case2 s more shorter ih =>
    rcases next_unclosed free unclosed with ⟨string, none_⟩ | later
    · rw [remaining_nil s.next_pushed none_]
      exact ⟨s.next.1, string, List.suffix_rfl⟩
    · obtain ⟨t, string, last⟩ := ih s.next_pushed later
      exact ⟨t, string, last.trans (List.suffix_cons _ _)⟩

end TokenStream

namespace Grammar

def Ends (ts : List Token) : Prop :=
  ∃ t, (t.kind = .rightBrace ∨ t.kind = .endOfLine) ∧ [t] <:+ ts

variable {ts us : List Token}

theorem Ends.behind (ends : Ends us) (suffix : us <:+ ts) : Ends ts := by
  obtain ⟨t, kind, last⟩ := ends
  exact ⟨t, kind, last.trans suffix⟩

theorem Ends.not_string (ends : Ends ts) {t : Token} (last : [t] <:+ ts) : t.kind ≠ .string := by
  obtain ⟨t', kind, last'⟩ := ends
  obtain ⟨front, rfl⟩ := last
  obtain ⟨front', same⟩ := last'
  obtain rfl : t' = t := by simpa using (List.append_inj_right' same rfl)
  rcases kind with kind | kind <;> simp [kind]

theorem Breaks.ends (breaks : Breaks ts us) (none_ : us = []) : ts = [] ∨ Ends ts := by
  induction breaks with
  | none => exact Or.inl none_
  | more mark _ ih =>
    obtain ⟨t, kind, rfl⟩ := mark
    rcases ih none_ with rfl | ends
    · exact Or.inr ⟨t, Or.inr kind, List.suffix_rfl⟩
    · exact Or.inr (ends.behind (List.suffix_cons _ _))

end Grammar

namespace Compile

open Actions Grammar

variable {s s' : Session} {u : Unit} {registry : Registry} {source : String} {maxErrors : Nat}

theorem functionDefinition_header {name : Token} (ok : functionDefinition name s = .ok u s')
    (clean : s'.errors = #[]) : s'.inHeader = false := by
  obtain ⟨place, r, _, _, _, _, declared, _, defines⟩ := functionDefinition_ok ok clean
  obtain ⟨functions, rfl, _⟩ := (declareFunction_ok declared).2 place rfl
  rw [defines.result]
  exact defines.body.header.trans defines.reads.emits.inHeader

/-- A source without functions may end with a variable, but behind the first function no variable is
declared. -/
theorem Items.ends (items : Items s s') (terminated : s.unterminated = false) :
    (s'.functions = s.functions ∨ Ends s.left) ∧
    (s.inHeader = false → s.left = [] ∨ Ends s.left) := by
  induction items with
  | nothing _ reads _ breaks =>
    obtain ⟨tokens, line, rfl⟩ := reads
    exact ⟨Or.inl rfl, fun _ => breaks.ends rfl⟩
  | @function s r t s' tok u opens _ ran rest ih =>
    obtain ⟨o, -, -, ⟨ws, xs, ys, list, skip, brace, code⟩, outlined⟩ :=
      functionDefinition_outlined ran ⟨rest.clean, fun _ _ => id⟩
        (opens.reads.emits.unterminated.trans terminated)
    obtain ⟨last, kind, closing⟩ := code.translates.closing
    have closing : last :: t.left <:+ s.left := closing.trans (brace.suffix.trans (skip.suffix.trans
      (list.suffix.trans ((List.suffix_cons _ _).trans opens.breaks.suffix))))
    obtain ⟨_, behind⟩ := ih (outlined.terminated (opens.reads.emits.unterminated.trans terminated))
    have ends : Ends s.left := by
      rcases behind (functionDefinition_header ran rest.clean) with none_ | ends
      · rw [none_] at closing
        exact ⟨last, Or.inl kind, closing⟩
      · exact ends.behind ((List.suffix_cons _ _).trans closing)
    exact ⟨Or.inr ends, fun _ => Or.inr ends⟩
  | @globals s r t s' tok opens _ header declares _ ih =>
    have suffix : t.left <:+ s.left :=
      declares.phrase.suffix.trans ((List.suffix_cons _ _).trans opens.breaks.suffix)
    obtain ⟨tokens, line, rfl⟩ := opens.reads
    refine ⟨?_, fun late => absurd (header.symm.trans late) (by decide)⟩
    obtain ⟨rest, _⟩ := ih (declares.outlined.terminated terminated)
    refine rest.imp (fun same => same.trans ?_) fun ends => ends.behind suffix
    obtain ⟨more, ⟨tokens', line', rfl⟩, _⟩ := declares.tables
    rfl

theorem sourceRule_ends (ok : sourceRule s = .ok u s') (clean : s'.errors = #[])
    (terminated : s.unterminated = false) (offered : ∀ f, .user f ∉ s.functions.entries) :
    Ends s.left := by
  obtain ⟨t, items, _, _, place, ⟨f, main⟩, _⟩ := sourceRule_items ok clean
  rcases (items.ends terminated).1 with same | ends
  · rw [same] at main
    exact absurd (List.mem_of_getElem? main) (offered f)
  · exact ends

theorem compile_error_ne_nil {options : Options} {ds : List Diagnostic}
    (failed : compile registry options source = .error ds) : ds ≠ [] := by
  unfold compile at failed
  dsimp only at failed
  split at failed
  · cases failed
  · rename_i errors
    obtain rfl := Except.error.inj failed
    simpa using errors

theorem start_offered (registry : Registry) (maxErrors : Nat) (source : String) (f : UserFunction) :
    .user f ∉ (Session.start registry maxErrors source).functions.entries := by
  simp [Session.start, NameTable.entries]

theorem start_ends (ok : sourceRule (.start registry maxErrors source) = .ok u s)
    (clean : s.errors = #[]) :
    Ends (TokenStream.ofSource source).remaining :=
  sourceRule_ends ok clean rfl (start_offered registry maxErrors source)

theorem start_unflawed (ok : sourceRule (.start registry maxErrors source) = .ok u s)
    (clean : s.errors = #[]) :
    ¬ (Session.start registry maxErrors source).Flawed := by
  intro flawed
  obtain ⟨onward, -, through, drained⟩ :=
    (start_concludes registry maxErrors source (Nat.le_refl _)).of_ok ok
  have nothing : s.tokens.rest = [] := by
    have none_ : s.tokens.rest.length = 0 := (Nat.add_eq_zero_iff.mp through).1
    exact List.length_eq_zero_iff.mp none_
  rcases onward.flawed flawed with recorded | met | ⟨p, ahead, -⟩
  · exact recorded clean
  · exact met drained
  · simp [nothing] at ahead

/-- No source with a broken text is compiled, whatever the host offers and the options are: what
comes of it is at least one diagnostic. -/
theorem broken_refused {source : String} (broken : Token.Broken source.toList) (registry : Registry)
    (options : Options) : ∃ ds, compile registry options source = .error ds ∧ ds ≠ [] := by
  cases compiled : compile registry options source with
  | error ds => exact ⟨ds, rfl, compile_error_ne_nil compiled⟩
  | ok p =>
    exfalso
    obtain ⟨s, ran, clean, -⟩ := compile_ran compiled
    obtain ⟨p, member, broken⟩ := broken
    rcases Token.Piece.Role.reported_or_unclosed broken with reported | unclosed
    · exact start_unflawed ran clean (Or.inr (Or.inr ⟨p, member, reported⟩))
    · obtain ⟨t, string, last⟩ :=
        TokenStream.remaining_unclosed (s := .ofSource source) rfl ⟨p, member, unclosed⟩
      exact (start_ends ran clean).not_string last string

theorem broken_refused_texts :
    let options : Options := ⟨45, true, false, []⟩
    (Token.Broken "Main() \x7b \x7d #".toList ∧
      ∃ ds, compile .empty options "Main() \x7b \x7d #" = .error ds ∧ ds ≠ []) ∧
    (Token.Broken "var a = 'x\n'\nMain() \x7b \x7d".toList ∧
      ∃ ds, compile .empty options "var a = 'x\n'\nMain() \x7b \x7d" = .error ds ∧ ds ≠ []) ∧
    Token.Broken "Main() \x7b return \"x \x7d".toList ∧
      ∃ ds, compile .empty options "Main() \x7b return \"x \x7d" = .error ds ∧ ds ≠ [] := by
  have stray : Token.Broken "Main() \x7b \x7d #".toList := by decide +kernel
  have lineBreak : Token.Broken "var a = 'x\n'\nMain() \x7b \x7d".toList := by decide +kernel
  have unclosed : Token.Broken "Main() \x7b return \"x \x7d".toList := by decide +kernel
  exact ⟨⟨stray, broken_refused stray _ _⟩, ⟨lineBreak, broken_refused lineBreak _ _⟩,
    unclosed, broken_refused unclosed _ _⟩

end Compile

end Scriptlet
