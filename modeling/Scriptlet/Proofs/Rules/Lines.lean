import Scriptlet.Compile.Basic
import Scriptlet.Proofs.Registries
import Scriptlet.Proofs.Source.Positions

/-!
The lines that a session holds. Tokens given back, jumps to labels, calls, errors on record and the
words of the code carry lines on which a piece of the source starts. The lines of the words are in
order, and no token that is still to come is above them.
-/
namespace Scriptlet

open Source

namespace TokenStream

open Token

/-- All tokens that are still to come are on the line or below it, and the one that was given back
is not below what has been scanned. -/
structure Below (source : String) (line : Nat) (s : TokenStream) (ps : List Piece) : Prop where
  reached : Reached source s ps
  after : line ≤ lineOf (taken ps)
  pushed : ∀ t ∈ s.pushed, ∃ n, Starts source n ∧ t.line = .ofNat n ∧ line ≤ n ∧
    n ≤ lineOf (taken ps)

/-- A token not above the line, and a stream of which nothing is above the token. -/
def Gives (source : String) (line : Nat) (r : Token × TokenStream) : Prop :=
  ∃ n, Starts source n ∧ r.1.line = .ofNat n ∧ line ≤ n ∧ ∃ ps, r.2.Below source n ps

variable {source : String} {line : Nat} {s : TokenStream} {ps : List Piece}

theorem Below.next (below : s.Below source line ps) : Gives source line s.next := by
  unfold TokenStream.next
  cases pushed : s.pushed with
  | some t =>
    obtain ⟨n, starts, same, after, before⟩ := below.pushed t pushed
    exact ⟨n, starts, same, after, ps, below.reached.of_same rfl rfl, before, by simp⟩
  | none =>
    obtain ⟨more, further, scanned⟩ := below.reached.scan
    obtain ⟨n, starts, same, after, before⟩ := below.reached.scan_line further scanned
    exact ⟨n, starts, same, Nat.le_trans below.after after, _, further, before, by
      simp [TokenStream.scan]⟩

theorem Below.nextPastBreaks (below : s.Below source line ps) :
    Gives source line s.nextPastBreaks := by
  fun_induction TokenStream.nextPastBreaks s generalizing line ps with
  | case1 s =>
    rename_i ih
    obtain ⟨n, -, -, first, _, further⟩ := below.next
    obtain ⟨m, starts, same, second, rest⟩ := ih further
    exact ⟨m, starts, same, Nat.le_trans first second, rest⟩
  | case2 s => exact below.next

theorem Below.unget {t : Token} {n : Nat} (below : s.Below source n ps) (starts : Starts source n)
    (same : t.line = .ofNat n) (after : line ≤ n) : (s.unget t).Below source line ps := by
  refine ⟨below.reached.of_same rfl rfl, Nat.le_trans after below.after, ?_⟩
  rintro _ ⟨⟩
  exact ⟨n, starts, same, after, below.after⟩

end TokenStream

namespace Compile

/-- The words that were written are on lines of the source, each on that of the word in front of it
or below it, down to the current one. The tokens to come are not above that. -/
structure Ranked (source : String) (line : Nat) (w : CodeWriter) (s : TokenStream) : Prop where
  starts : Starts source line
  current : w.line = .ofNat line
  below : ∃ ps, s.Below source line ps
  written : ∃ ls : List Nat, w.lines.toList = ls.map UInt32.ofNat ∧ ls.Pairwise (· ≤ ·) ∧
    ∀ l ∈ ls, l ≤ line ∧ Starts source l

namespace Ranked

variable {source : String} {line : Nat} {w w' : CodeWriter} {s s' : TokenStream} {word : UInt32}

variable (ranked : Ranked source line w s)
include ranked

theorem of_same (lines : w'.lines = w.lines) (same : w'.line = w.line) : Ranked source line w' s :=
  ⟨ranked.starts, same.trans ranked.current, ranked.below, lines ▸ ranked.written⟩

theorem push (lines : w'.lines = w.lines.push w.line)
    (same : w'.line = w.line) : Ranked source line w' s := by
  obtain ⟨ls, written, sorted, above⟩ := ranked.written
  refine ⟨ranked.starts, same.trans ranked.current, ranked.below, ls ++ [line], ?_, ?_, ?_⟩
  · rw [lines, Array.toList_push, written, ranked.current, List.map_append]
    rfl
  · exact List.pairwise_append.mpr ⟨sorted, List.pairwise_singleton _ _, fun l member _ last =>
      List.mem_singleton.mp last ▸ (above l member).1⟩
  · intro l member
    rcases List.mem_append.mp member with old | new
    · exact above l old
    · obtain rfl := List.mem_singleton.mp new
      exact ⟨Nat.le_refl _, ranked.starts⟩

theorem opcode {op : Opcode} : Ranked source line (w.opcode op) s :=
  ranked.push Array.map_push rfl

theorem operand : Ranked source line (w.operand word) s :=
  ranked.push Array.map_push rfl

theorem undo : Ranked source line w.undo s := by
  obtain ⟨ls, written, sorted, above⟩ := ranked.written
  refine ⟨ranked.starts, ranked.current, ranked.below, ls.dropLast, ?_,
    sorted.sublist (List.dropLast_sublist _), fun l member =>
      above l (List.dropLast_subset _ member)⟩
  rw [CodeWriter.lines, CodeWriter.undo, Array.toList_map, Array.toList_pop, List.map_dropLast,
    List.map_dropLast, ← written, CodeWriter.lines, Array.toList_map]

theorem replace {isOpcode : Bool} {address : Nat} :
    Ranked source line (w.replace isOpcode address word) s := by
  refine ranked.of_same (Array.ext (by simp [CodeWriter.lines, CodeWriter.replace]) ?_) rfl
  intro i _ _
  simp only [CodeWriter.lines, CodeWriter.replace, Array.getElem_map, Array.getElem_modify]
  split
  · rfl
  · rfl

theorem read {r : Token × TokenStream} (gives : TokenStream.Gives source line r) :
    ∃ n, r.1.line = .ofNat n ∧ Ranked source n (w.setLine r.1.line) r.2 := by
  obtain ⟨ls, written, sorted, above⟩ := ranked.written
  obtain ⟨n, starts, same, after, below⟩ := gives
  exact ⟨n, same, starts, same, below, ls, written, sorted, fun l member =>
    ⟨Nat.le_trans (above l member).1 after, (above l member).2⟩⟩

theorem of_below (below : ∃ ps, s'.Below source line ps) : Ranked source line w s' :=
  { ranked with below }

end Ranked

/-- The jumps that wait for a label are on known lines. A label that was bound before it was used
has no line. -/
def Scope.Lined (source : String) (x : Scope) : Prop :=
  ∀ l ∈ x.labels, l.2.ip = none → Known source l.2.firstUse

structure Session.Lined (source : String) (s : Session) : Prop where
  tokens : s.tokens.Lined source
  scope : ∀ x ∈ s.scope, x.Lined source
  calls : ∀ c ∈ s.calls, Known source c.line
  errors : ∀ d ∈ s.errors, Known source d.line
  code : ∃ line, Ranked source line s.writer s.tokens

variable {source : String} {s : Session}

theorem start_lined (registry : Registry) (maxErrors : Nat) (source : String) :
    (Session.start registry maxErrors source).Lined source where
  tokens := TokenStream.ofSource_lined source
  scope := by simp [Session.start]
  calls := by simp [Session.start]
  errors := by simp [Session.start]
  code := by
    have empty : Ranked source 1 .empty (.ofSource source) :=
      ⟨⟨[], List.nil_prefix, rfl⟩, rfl,
        ⟨[], TokenStream.ofSource_reached source, Nat.le_refl _, by simp [TokenStream.ofSource]⟩,
        [], by simp [CodeWriter.lines, CodeWriter.empty], List.Pairwise.nil, by simp⟩
    exact ⟨1, empty.opcode.operand.operand.opcode.operand⟩

namespace Session.Lined

variable {writer : CodeWriter} {d : Diagnostic}

theorem read {tokens : TokenStream} {line : Nat} (lined : s.Lined source)
    (further : tokens.Lined source) (ranked : Ranked source line writer tokens) :
    Session.Lined source { s with tokens, writer } :=
  { lined with tokens := further, code := ⟨line, ranked⟩ }

theorem write (lined : s.Lined source)
    (ranked : ∀ {line}, Ranked source line s.writer s.tokens → Ranked source line writer s.tokens) :
    Session.Lined source { s with writer } :=
  { lined with code := lined.code.imp fun _ => ranked }

theorem push (lined : s.Lined source) (known : Known source d.line) :
    Session.Lined source { s with errors := s.errors.push d } := by
  refine { lined with errors := fun e member => ?_ }
  rcases Array.mem_push.mp member with old | rfl
  · exact lined.errors e old
  · exact known

theorem exceed (lined : s.Lined source) (known : Known source d.line) :
    Session.Lined source { s with
      errors := (s.errors.push d).push (Diagnostic.fatal .tooManyErrors s.tokens.line) } :=
  (lined.push known).push lined.tokens.line

end Session.Lined

namespace Scope.Lined

variable {x : Scope}

theorem bindLabel (name : String) (ip : Nat) (lined : x.Lined source) :
    (x.bindLabel name ip).Lined source := by
  intro l member unbound
  rcases NameTable.insert_mem member with old | ⟨_, new⟩
  · exact lined l old unbound
  · rw [new] at unbound
    cases unbound

theorem useLabel {line : UInt32} (name : String) (operand : Nat) (known : Known source line)
    (lined : x.Lined source) : (x.useLabel name operand line).Lined source := by
  unfold Scope.useLabel
  split
  · intro l member unbound
    rcases NameTable.insert_mem member with old | ⟨_, new⟩
    · exact lined l old unbound
    · rw [new]
      exact known
  · rename_i label found
    split
    · exact lined
    · intro l member unbound
      rcases NameTable.insert_mem member with old | ⟨_, new⟩
      · exact lined l old unbound
      · rw [new] at unbound ⊢
        exact lined _ (NameTable.find?_mem found) unbound

theorem modifyLoop (f : Loop → Loop) (lined : x.Lined source) : (x.modifyLoop f).Lined source := by
  unfold Scope.modifyLoop
  split
  · exact lined
  · exact lined

theorem unbound (lined : x.Lined source) : ∀ label ∈ x.unboundLabels, Known source label.2 := by
  intro label member
  obtain ⟨l, there, rfl⟩ := List.mem_map.mp member
  obtain ⟨listed, none_⟩ := List.mem_filter.mp there
  exact lined l listed (Option.isNone_iff_eq_none.mp none_)

end Scope.Lined

end Compile

end Scriptlet
