import Scriptlet.Builtin
import Scriptlet.Proofs.Number.Whole
import Scriptlet.Proofs.Value.Operators

/-!
The greatest and the least of a row of arguments. The fold keeps an argument that no later one
outranks. It is an extreme of the whole row if outranking is transitive among the arguments, and
only then for all rows of them. Texts among themselves are ordered so, and numbers among themselves,
not-a-numbers included. A number and two numeric texts need not be, because the texts compare as
numbers with it and as texts with each other.
-/
namespace Scriptlet

namespace Builtin

variable {direction : Ordering} {within : Value → Prop} {a b c v w : Value} {args rest : List Value}

/-- Outranking in the direction of the extreme is transitive among the values. -/
def Transitive (direction : Ordering) (within : Value → Prop) : Prop :=
  ∀ a b c, within a → within b → within c →
    a.compare b = direction → b.compare c = direction → a.compare c = direction

theorem better_of_outranks (outranks : w.compare v = direction) : better direction v w = w := by
  rw [better, outranks, beq_self_eq_true, if_pos rfl]

theorem better_of_not (not : w.compare v ≠ direction) : better direction v w = v := by
  rw [better, beq_eq_false_iff_ne.mpr not, if_neg Bool.false_ne_true]

theorem extreme_passed (not : a.compare c ≠ direction) (outranks : b.compare c = direction) :
    extreme direction [c, a, b] = b := by
  rw [extreme, List.foldl_cons, better_of_not not, List.foldl_cons, better_of_outranks outranks,
    List.foldl_nil]

theorem foldl_better_split (direction : Ordering) (v : Value) (rest : List Value) :
    let best := rest.foldl (better direction) v
    ∃ before after, v :: rest = before ++ best :: after ∧ ∀ w ∈ after,
    w.compare best ≠ direction := by
  induction rest generalizing v with
  | nil => exact ⟨[], [], rfl, fun w none => absurd none List.not_mem_nil⟩
  | cons w rest ih =>
    rw [List.foldl_cons]
    by_cases outranks : w.compare v = direction
    · rw [better_of_outranks outranks]
      obtain ⟨before, after, row, none⟩ := ih w
      exact ⟨v :: before, after, congrArg (v :: ·) row, none⟩
    · rw [better_of_not outranks]
      obtain ⟨before, after, row, none⟩ := ih v
      cases before with
      | nil =>
        obtain ⟨same, rfl⟩ := List.cons.inj row
        exact ⟨[], w :: rest, by rw [← same]; rfl, List.forall_mem_cons.mpr ⟨same ▸ outranks, none⟩⟩
      | cons u before =>
        obtain ⟨rfl, more⟩ := List.cons.inj row
        exact ⟨v :: w :: before, after, congrArg (v :: w :: ·) more, none⟩

theorem extreme_split (direction : Ordering) (some : args ≠ []) :
    ∃ before after, args = before ++ extreme direction args :: after ∧
      ∀ w ∈ after, w.compare (extreme direction args) ≠ direction := by
  cases args with
  | nil => exact absurd rfl some
  | cons v rest => exact foldl_better_split direction v rest

theorem extreme_mem (some : args ≠ []) : extreme direction args ∈ args := by
  obtain ⟨before, after, row, -⟩ := extreme_split direction some
  exact (congrArg (extreme direction args ∈ ·) row).mpr (List.mem_append_right _ List.mem_cons_self)

/-- What is left is the first value or outranks it, and is not outranked: a value that was passed
over does not outrank the one kept then, and one that was given up is outranked by what is left. -/
theorem foldl_better_extreme (proper : direction ≠ .eq) (transitive : Transitive direction within)
    (first : within v) (others : ∀ w ∈ rest, within w) :
    let best := rest.foldl (better direction) v
    (best = v ∨ best.compare v = direction) ∧ ∀ w ∈ v :: rest, w.compare best ≠ direction := by
  induction rest generalizing v with
  | nil =>
    refine ⟨.inl rfl, fun w member => ?_⟩
    rw [List.mem_singleton.mp member]
    exact fun same => proper (same.symm.trans v.compare_self)
  | cons w rest ih =>
    obtain ⟨here, below⟩ := List.forall_mem_cons.mp others
    have inside (u : Value) (member : within u) : within (rest.foldl (better direction) u) :=
      List.forall_mem_cons.mpr ⟨member, below⟩ _ (extreme_mem (List.cons_ne_nil u rest))
    rw [List.foldl_cons]
    by_cases outranks : w.compare v = direction
    · rw [better_of_outranks outranks]
      obtain ⟨reached, none⟩ := ih here below
      have above := reached.elim (fun same => same.symm ▸ outranks)
        fun higher => transitive _ _ _ (inside w here) here first higher outranks
      refine ⟨.inr above, List.forall_mem_cons.mpr ⟨fun higher => ?_, none⟩⟩
      exact none w List.mem_cons_self (transitive _ _ _ here first (inside w here) outranks higher)
    · rw [better_of_not outranks]
      obtain ⟨reached, none⟩ := ih first below
      obtain ⟨kept, later⟩ := List.forall_mem_cons.mp none
      refine ⟨reached, List.forall_mem_cons.mpr
        ⟨kept, List.forall_mem_cons.mpr ⟨fun higher => ?_, later⟩⟩⟩
      exact outranks (reached.elim (fun same => same ▸ higher)
        fun up => transitive _ _ _ here (inside v first) first higher up)

theorem extreme_iff (direction : Ordering) (proper : direction ≠ .eq) (within : Value → Prop) :
    (∀ args ≠ [], (∀ v ∈ args, within v) → ∀ v ∈ args,
      v.compare (extreme direction args) ≠ direction) ↔
      Transitive direction within := by
  constructor
  · intro all a b c ha hb hc up down
    by_contra not
    have row : ∀ v ∈ [c, a, b], within v := by simp [ha, hb, hc]
    have none := all [c, a, b] (List.cons_ne_nil _ _) row a (by simp)
    rw [extreme_passed not down] at none
    exact none up
  · intro transitive args some each
    cases args with
    | nil => exact absurd rfl some
    | cons v rest =>
      obtain ⟨first, others⟩ := List.forall_mem_cons.mp each
      exact (foldl_better_extreme proper transitive first others).2

theorem Transitive.mirror (transitive : Transitive .gt within) : Transitive .lt within := by
  intro a b c ha hb hc up down
  rw [Value.compare_swap, Ordering.swap_eq_lt] at up down ⊢
  exact transitive c b a hc hb ha down up

theorem transitive_texts (texts : ∀ v, within v → ∃ s, v.leading = .text s) :
    Transitive .gt within := by
  intro a b c ha hb hc
  obtain ⟨s, hs⟩ := texts a ha
  obtain ⟨t, ht⟩ := texts b hb
  obtain ⟨u, hu⟩ := texts c hc
  simp only [Value.compare_leading, hs, ht, hu, Atom.compare]
  exact Std.TransCmp.gt_trans

theorem transitive_numbers (numbers : ∀ v, within v → ∀ s, v.leading ≠ .text s) :
    Transitive .gt within := by
  intro a b c ha hb hc
  simp only [Value.compare_leading, Atom.compare_numbers (numbers a ha) (numbers b hb),
    Atom.compare_numbers (numbers b hb) (numbers c hc), Atom.compare_numbers (numbers a ha)
      (numbers c hc),
    Binary64.compare_eq_gt]
  rintro ⟨left, -, up⟩ ⟨-, right, down⟩
  exact ⟨left, right, Int.lt_trans down up⟩

/-- The greatest and the least of a row are arguments, and none behind them is greater or less.
Among all arguments none is, for all rows of certain values, exactly if being greater is transitive
among these; it is if all of them lead with texts, or none does. -/
theorem extremes_found (within : Value → Prop) :
    (∀ args ≠ [],
      (∃ before after, args = before ++ max args :: after ∧
        ∀ v ∈ after, v.compare (max args) ≠ .gt) ∧
      ∃ before after, args = before ++ min args :: after ∧
        ∀ v ∈ after, v.compare (min args) ≠ .lt) ∧
    ((∀ args ≠ [], (∀ v ∈ args, within v) →
      ∀ v ∈ args, v.compare (max args) ≠ .gt ∧ v.compare (min args) ≠ .lt) ↔
      Transitive .gt within) ∧
    ((∀ v, within v → ∃ s, v.leading = .text s) ∨ (∀ v, within v → ∀ s, v.leading ≠ .text s) →
      Transitive .gt within) := by
  have greatest := extreme_iff .gt (by decide) within
  have least := extreme_iff .lt (by decide) within
  refine ⟨fun args some => ⟨extreme_split .gt some, extreme_split .lt some⟩,
    ⟨fun all => ?_, fun transitive => ?_⟩, fun alike =>
      alike.elim transitive_texts transitive_numbers⟩
  · exact greatest.mp fun args some each v member => (all args some each v member).1
  · exact fun args some each v member => ⟨greatest.mpr transitive args some each v member,
      least.mpr transitive.mirror args some each v member⟩

/-- The texts compare as numbers with the number and as texts with each other. -/
theorem max_outranked :
    let args := [Value.integer 9, .text "9", .text "10"]
    max args = .text "10" ∧ (Value.text "9").compare (max args) = .gt ∧
    ∀ v ∈ args, v.compare (.text "9") ≠ .gt := by
  intro args
  obtain ⟨level, above, first, second, below⟩ :
      (Value.text "9").compare (.integer 9) ≠ .gt ∧ (Value.text "10").compare (.integer 9) = .gt ∧
      (Value.integer 9).compare (.text "9") ≠ .gt ∧ (Value.text "9").compare (.text "9") ≠ .gt ∧
      (Value.text "10").compare (.text "9") = .lt := by
    set_option maxRecDepth 2000 in decide
  have kept : max args = .text "10" := extreme_passed level above
  rw [kept, Value.compare_swap, below]
  refine ⟨rfl, rfl, ?_⟩
  simp only [args, List.forall_mem_cons, below]
  exact ⟨first, second, by decide, fun v none => absurd none List.not_mem_nil⟩

end Builtin

end Scriptlet
