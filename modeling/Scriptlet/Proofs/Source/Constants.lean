import Scriptlet.Proofs.Machine.Simulation
import Scriptlet.Proofs.Source.Jumps

/-!
What the constants of a compiled program are at run time. Literals and operators between them are
one entry of the pool in the code, and the machine pushes that entry. Spelled out instead, one
literal after the other with the operators behind them, the same tree makes the machine push what
the operators give. The two are equal but for the sign of a zero, because the pool has one entry for
both zeros.
-/
namespace Scriptlet

open Code Grammar

variable {p : Program} {e : Phrase} {f g : List Term} {v w : Value}
  {operands operands' operands'' : List Value}

/-- Wherever the row is what comes next of an expression, a running machine gets behind it with
these operands in place of those, and with nothing else changed. -/
def Turns (p : Program) (f : List Term) (operands operands' : List Value) : Prop :=
  ∀ (World : Type) (host : Host World) (m : Machine World) (n : Nat) (rest : List Work),
    m.halted = false → m.started = true → m.atBoundary = false →
    m.work = .expression (f.length + n) operands :: rest →
    Holds p.words m.cursor.ip (termsWords f) →
    m.Reaches host p (m.resume (m.cursor.ip + (termsWords f).length)
      (.expression n operands' :: rest))

def Delivers (p : Program) (f : List Term) (v : Value) : Prop :=
  ∀ operands, Turns p f operands (v :: operands)

theorem Turns.single {t : Term}
    (advances : ∀ (World : Type) (host : Host World) (m : Machine World) (n : Nat)
      (rest : List Work), m.work = .expression (n + 1) operands :: rest →
      Holds p.words m.cursor.ip t.words → m.advance host p =
        .ok () (m.resume (m.cursor.ip + t.words.length) (.expression n operands' :: rest))) :
    Turns p [t] operands operands' := by
  intro World host m n rest running started inside working holds
  rw [termsWords_single] at holds ⊢
  rw [List.length_singleton, Nat.add_comm] at working
  exact .tick (.advance running started inside (advances World host m n rest working holds))

theorem Turns.append (first : Turns p f operands operands')
    (second : Turns p g operands' operands'') :
    Turns p (f ++ g) operands operands'' := by
  intro World host m n rest running started inside working holds
  rw [List.length_append, Nat.add_assoc] at working
  rw [termsWords_append] at holds ⊢
  obtain ⟨front, behind⟩ := holds.append
  have reaches := first World host m (g.length + n) rest running started inside working front
  -- one expression stands in the work of both, so they are inside the same statement
  have still : (m.resume (m.cursor.ip + (termsWords f).length)
      (.expression (g.length + n) operands' :: rest)).atBoundary = false := by
    rw [Machine.atBoundary, working] at inside
    exact inside
  rw [List.length_append, ← Nat.add_assoc]
  exact reaches.trans
    (second World host (m.resume _ _) n rest running started still rfl behind)

theorem delivers_literal {i : Nat} (small : p.literals.size ≤ 2 ^ 32)
    (found : p.literals[i]? = some v) :
    Delivers p [.literal i] v := fun _ =>
  .single fun _ _ _ _ _ working holds =>
    Machine.advance_literal working holds
      (Nat.lt_of_lt_of_le (Array.getElem?_eq_some_iff.mp found).1 small) found

theorem Delivers.unary (op : UnaryOp) (delivers : Delivers p f v) :
    Delivers p (f ++ [.unary op]) (op.apply v) := fun operands =>
  (delivers operands).append (.single fun _ _ _ _ _ working holds =>
    Machine.advance_unary working holds)

theorem Delivers.binary (op : BinaryOp) (left : Delivers p f v) (right : Delivers p g w) :
    Delivers p (f ++ g ++ [.binary op]) (op.apply v w) := fun operands =>
  ((left operands).append (right _)).append
    (.single fun _ _ _ _ _ working holds => Machine.advance_binary working holds)

/-- The code of literals and operators between them, with every operator left to the machine. -/
inductive Spells (pool : Array Value) : Phrase → List Term → Prop where
  | literal {v : Value} {i : Nat} : pool[i]? = some v → Spells pool (.literal v) [.literal i]
  | unary (op : UnaryOp) {e : Phrase} {f : List Term} : Spells pool e f →
      Spells pool (.unary op e) (f ++ [.unary op])
  | binary (op : BinaryOp) {a b : Phrase} {f g : List Term} : Spells pool a f → Spells pool b g →
      Spells pool (.binary op a b) (f ++ g ++ [.binary op])

theorem Spells.delivers (small : p.literals.size ≤ 2 ^ 32) (spells : Spells p.literals e f) :
    ∃ v, e.value? = some v ∧ Delivers p f v := by
  induction spells with
  | literal found => exact ⟨_, rfl, delivers_literal small found⟩
  | unary op _ ih =>
    obtain ⟨v, value, delivers⟩ := ih
    exact ⟨op.apply v, by simp [Phrase.value?, value], delivers.unary op⟩
  | binary op _ _ left right =>
    obtain ⟨v, first, delivers⟩ := left
    obtain ⟨w, second, others⟩ := right
    exact ⟨op.apply v w, by simp [Phrase.value?, first, second], delivers.binary op others⟩

theorem Grammar.Renders.constant_inv {pool : Array Value} (renders : Renders pool e f)
    (value : e.value? = some v) : ∃ i w, f = [.literal i] ∧ pool[i]? = some w ∧ w.Agrees v := by
  cases renders with
  | constant known found agrees =>
    obtain rfl := Option.some.inj (known.symm.trans value)
    exact ⟨_, _, rfl, found, agrees⟩
  | unary unknown _ => simp [Phrase.value?, unknown] at value
  | binary unknown _ _ => simp [unknown] at value
  | load | compound => simp [Phrase.value?] at value

theorem Grammar.Renders.delivers (small : p.literals.size ≤ 2 ^ 32)
    (renders : Renders p.literals e f) (value : e.value? = some v) :
    ∃ w, w.Agrees v ∧ Delivers p f w := by
  obtain ⟨i, w, rfl, found, agrees⟩ := renders.constant_inv value
  exact ⟨w, agrees, delivers_literal small found⟩

namespace Compile

theorem compile_sourced {registry : Registry} {options : Options} {source : String}
    (ok : compile registry options source = .ok p) :
    ∃ main outlines, Sourced p.literals prelude.ip (TokenStream.ofSource source).remaining
      outlines ∧ p.words.toList = rowWords Target.word [.plain (.call main []), Statement.final] ++
        outlines.flatMap Outline.words := by
  unfold compile at ok
  dsimp only at ok
  split at ok
  · rename_i clean
    have clean := Array.isEmpty_iff.mp clean
    obtain ⟨t, outlines, main, sourced, outlined, reads⟩ :=
      sourceRule_sourced (finalSession_clean clean) clean rfl
    obtain rfl := Except.ok.inj ok
    refine ⟨main, outlines, sourced, ?_⟩
    have front : t.words = prelude.words.toList ++ outlines.flatMap Outline.words := by
      rw [outlined.words, ← writer_words]
      rfl
    generalize finalSession (options.registry registry) options.maxErrors source = final at reads
    change final.writer.words.toList = _
    rw [writer_words, reads.emits.words, List.append_nil, patched_prelude front]
    rfl
  · cases ok

/-- Folding shows only in the sign of a zero. The expressions in the code of a compiled program are
those of its source one by one, each rendered from its tree. Where a tree has a value, its code
pushes that value, or a zero of the other sign; and with nothing folded, in whatever program, the
operators make the machine push the value itself. -/
theorem compile_folds {registry : Registry} {options : Options} {source : String}
    (ok : compile registry options source = .ok p) (small : p.literals.size ≤ 2 ^ 32) :
    ∃ (main : Nat) (outlines : List Outline) (es : List Phrase),
      p.words.toList = rowWords Target.word [.plain (.call main []), Statement.final] ++
        outlines.flatMap Outline.words ∧
      SourceExpresses (TokenStream.ofSource source).remaining es ∧
      RendersAll p.literals es (outlines.flatMap Outline.expressions) ∧
      ∀ e f v, Renders p.literals e f → e.value? = some v → (∃ w, w.Agrees v ∧ Delivers p f w) ∧
        ∀ (q : Program) g, q.literals.size ≤ 2 ^ 32 → Spells q.literals e g → Delivers q g v := by
  obtain ⟨main, outlines, sourced, words⟩ := compile_sourced ok
  obtain ⟨es, expresses, renders⟩ := sourced.expresses
  refine ⟨main, outlines, es, words, expresses, renders, ?_⟩
  intro e f v code value
  refine ⟨code.delivers small value, fun q g few spells => ?_⟩
  obtain ⟨w, known, delivers⟩ := spells.delivers few
  obtain rfl := Option.some.inj (known.symm.trans value)
  exact delivers

def twoZeros : String := "Main()\x7bx = 0.0 \n return -0.0\x7d"

example :
    (match compile .empty ⟨45, true, false, []⟩ twoZeros with
    | .error _ => none
    | .ok p => match Machine.runFor (⟨id, id, fun _ _ world => (.ok .zero, world)⟩ : Host Unit) p 9
        (.init p ()) with
      | .ok result _ => result.map Value.describe
      | .error _ _ => none) = some "Float(0.0)" := by decide +kernel

theorem compile_folds_twoZeros :
    ∃ (p : Program) (main : Nat) (outlines : List Outline) (es : List Phrase),
      compile .empty ⟨45, true, false, []⟩ twoZeros = .ok p ∧
      p.literals.toList.map Value.describe = ["Float(0.0)"] ∧
      p.words.toList = rowWords Target.word [.plain (.call main []), Statement.final] ++
        outlines.flatMap Outline.words ∧
      SourceExpresses (TokenStream.ofSource twoZeros).remaining es ∧
      RendersAll p.literals es (outlines.flatMap Outline.expressions) ∧
      ∀ e f v, Renders p.literals e f → e.value? = some v → (∃ w, w.Agrees v ∧ Delivers p f w) ∧
        ∀ (q : Program) g, q.literals.size ≤ 2 ^ 32 → Spells q.literals e g → Delivers q g v := by
  have compiled : (match compile .empty ⟨45, true, false, []⟩ twoZeros with
    | .error _ => false
    | .ok p => decide (p.literals.size = 1 ∧
        p.literals.toList.map Value.describe = ["Float(0.0)"])) =
      true := by decide +kernel
  split at compiled
  · cases compiled
  · rename_i p ok
    obtain ⟨one, positive⟩ := of_decide_eq_true compiled
    obtain ⟨main, outlines, es, folds⟩ := compile_folds ok (by rw [one]; decide)
    exact ⟨p, main, outlines, es, ok, positive, folds⟩

end Compile

end Scriptlet
