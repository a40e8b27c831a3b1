import Mathlib.Data.List.GetD
import Mathlib.Data.List.TakeWhile
import Scriptlet.Value.Element

/-!
Assignment along a path. At one level, putting an element is a store: it is read back, every other
index reads as before, and of two puts at one index the last one stays. An atom reads as a list of
itself and a list as if zeros followed it, so that neither promotion nor growth shows in a read.
Along a path the same laws follow by induction on the path.

A negative index ends an assignment where it stands. By then the levels above it have been rebuilt
with what they held, so that the value itself is unchanged only if all of the path up to there was
in it.
-/
namespace Scriptlet.Value

variable {v x : Value} {i j : Int} {p q : List Int}

/-- The value with one element replaced, grown so that it has one. -/
def put (v : Value) (i : Int) (x : Value) : Value :=
  .list ((padTo v.elements (i.toNat + 1)).set i.toNat x)

theorem length_padTo (items : List Value) (n : Nat) :
    (padTo items n).length = max items.length n := by
  simp only [padTo, List.length_append, List.length_replicate]
  omega

theorem padTo_of_le {items : List Value} {n : Nat} (enough : n ≤ items.length) :
    padTo items n = items := by
  rw [padTo, Nat.sub_eq_zero_of_le enough, List.replicate_zero, List.append_nil]

theorem padTo_getD (items : List Value) (n k : Nat) :
    (padTo items n).getD k zero = items.getD k zero := by
  simp only [padTo, List.getD_eq_getElem?_getD, List.getElem?_append, List.getElem?_replicate]
  split
  · rfl
  · rename_i outside
    rw [List.getElem?_eq_none (Nat.le_of_not_lt outside)]
    split <;> rfl

theorem get_nonneg (v : Value) (reachable : 0 ≤ i) : v.get i = v.elements.getD i.toNat zero := by
  rw [get, if_neg (Int.not_lt.mpr reachable)]

theorem get_put_self (v x : Value) (reachable : 0 ≤ i) : (v.put i x).get i = x := by
  have inside : i.toNat < (padTo v.elements (i.toNat + 1)).length := by rw [length_padTo]; omega
  rw [get_nonneg _ reachable, put, elements, List.getD_eq_getElem?_getD,
    List.getElem?_set_self inside]
  rfl

theorem get_put_of_ne (v x : Value) (reachable : 0 ≤ i) (other : j ≠ i) :
    (v.put i x).get j = v.get j := by
  by_cases negative : j < 0
  · simp only [get, if_pos negative]
  · have apart : i.toNat ≠ j.toNat := by omega
    rw [get_nonneg _ (Int.not_lt.mp negative), get_nonneg _ (Int.not_lt.mp negative), put, elements,
      List.getD_eq_getElem?_getD, List.getElem?_set_ne apart, ← List.getD_eq_getElem?_getD,
        padTo_getD]

theorem put_put (v x y : Value) (i : Int) : (v.put i x).put i y = v.put i y := by
  have enough : i.toNat + 1 ≤ ((padTo v.elements (i.toNat + 1)).set i.toNat x).length := by
    rw [List.length_set, length_padTo]
    omega
  rw [put, put, elements, padTo_of_le enough, List.set_set, put]

theorem put_eq_self_iff (reachable : 0 ≤ i) :
    v.put i x = v ↔ v.isList = true ∧ i.toNat < v.count ∧ x = v.get i := by
  constructor
  · intro same
    refine ⟨same ▸ rfl, ?_, (get_put_self v x reachable).symm.trans (congrArg (·.get i) same)⟩
    rw [← same, count, put, elements, List.length_set, length_padTo]
    omega
  · rintro ⟨grown, inside, rfl⟩
    cases v with
    | atom a => cases grown
    | list items =>
      have enough : i.toNat + 1 ≤ items.length := inside
      rw [put, elements, padTo_of_le enough, get_nonneg _ reachable, elements,
        List.getD_eq_getElem _ _ enough, List.set_getElem_self]

theorem getPath_cons (v : Value) (i : Int) (rest : List Int) :
    v.getPath (i :: rest) = (v.get i).getPath rest := rfl

theorem getPath_append (v : Value) (p q : List Int) :
    v.getPath (p ++ q) = (v.getPath p).getPath q :=
  List.foldl_append

theorem setPath_cons (v x : Value) (rest : List Int) (reachable : 0 ≤ i) :
    v.setPath (i :: rest) x = v.put i ((v.get i).setPath rest x) := by
  simp only [setPath, if_neg (Int.not_lt.mpr reachable), padTo_getD, put, get_nonneg _ reachable]

theorem setPath_negative (v x : Value) (rest : List Int) (negative : i < 0) :
    v.setPath (i :: rest) x = v := by
  rw [setPath, if_pos negative]

theorem getPath_setPath (v x : Value) (reachable : ∀ i ∈ p, 0 ≤ i) :
    (v.setPath p x).getPath p = x := by
  induction p generalizing v with
  | nil => rfl
  | cons i rest ih =>
    obtain ⟨here, below⟩ := List.forall_mem_cons.mp reachable
    rw [setPath_cons v x rest here, getPath_cons, get_put_self _ _ here, ih _ below]

theorem setPath_setPath (v x y : Value) (reachable : ∀ i ∈ p, 0 ≤ i) :
    (v.setPath p x).setPath p y = v.setPath p y := by
  induction p generalizing v with
  | nil => rfl
  | cons i rest ih =>
    obtain ⟨here, below⟩ := List.forall_mem_cons.mp reachable
    rw [setPath_cons v x rest here, setPath_cons _ y rest here, get_put_self _ _ here, put_put,
      ih _ below, setPath_cons v y rest here]

/-- Paths that part see nothing of each other, wherever they part and whatever index either has
there. -/
theorem getPath_setPath_apart (v x : Value) (down : ¬ p <+: q) (up : ¬ q <+: p) :
    (v.setPath p x).getPath q = v.getPath q := by
  induction p generalizing v q with
  | nil => exact absurd List.nil_prefix down
  | cons i rest ih =>
    cases q with
    | nil => exact absurd List.nil_prefix up
    | cons j more =>
      by_cases negative : i < 0
      · rw [setPath_negative v x rest negative]
      · have here := Int.not_lt.mp negative
        rw [setPath_cons v x rest here, getPath_cons, getPath_cons]
        by_cases same : j = i
        · subst same
          rw [get_put_self _ _ here]
          exact ih _ (fun ahead => down ((List.prefix_cons_inj j).mpr ahead))
            (fun ahead => up ((List.prefix_cons_inj j).mpr ahead))
        · rw [get_put_of_ne _ _ here same]

/-- Assignment is a store: what is assigned is read back, paths that part from the assigned one read
as before, and the last of two assignments along one path stays. -/
theorem store_laws (v x : Value) (reachable : ∀ i ∈ p, 0 ≤ i) : (v.setPath p x).getPath p = x ∧
    (∀ q, ¬ p <+: q → ¬ q <+: p → (v.setPath p x).getPath q = v.getPath q) ∧
    ∀ y, (v.setPath p x).setPath p y = v.setPath p y :=
  ⟨getPath_setPath v x reachable, fun _ => getPath_setPath_apart v x,
    fun y => setPath_setPath v x y reachable⟩

theorem store_laws_promoted :
    let p : List Int := [0, 2]
    let stored := (text "a").setPath p (float .zero)
    (∀ i ∈ p, 0 ≤ i) ∧ stored.getPath p = float .zero ∧ stored.getPath [0, 0] = text "a" ∧
    stored.getPath [1, 2] = zero ∧ stored.getPath [0, -1] = zero ∧
    stored.setPath p zero = (text "a").setPath p zero := by
  intro p stored
  have reachable : ∀ i ∈ p, 0 ≤ i := by decide
  obtain ⟨written, others, last⟩ := store_laws (text "a") (float .zero) reachable
  exact ⟨reachable, written, others [0, 0] (by decide) (by decide),
    others [1, 2] (by decide) (by decide), others [0, -1] (by decide) (by decide), last zero⟩

def Has : Value → List Int → Prop
  | _, [] => True
  | v, i :: rest => v.isList = true ∧ i.toNat < v.count ∧ (v.get i).Has rest

theorem setPath_getPath_iff (v : Value) (reachable : ∀ i ∈ p, 0 ≤ i) :
    v.setPath p (v.getPath p) = v ↔ v.Has p := by
  induction p generalizing v with
  | nil => exact iff_of_true rfl trivial
  | cons i rest ih =>
    obtain ⟨here, below⟩ := List.forall_mem_cons.mp reachable
    rw [setPath_cons _ _ _ here, put_eq_self_iff here, getPath_cons, ih _ below, Has]

theorem getPath_putBack (v : Value) (reachable : ∀ i ∈ p, 0 ≤ i) (below : q <+: p → q = p) :
    (v.setPath p (v.getPath p)).getPath q = v.getPath q := by
  by_cases down : p <+: q
  · obtain ⟨more, rfl⟩ := down
    rw [getPath_append, getPath_append, getPath_setPath v _ reachable]
  · exact getPath_setPath_apart v _ down fun up => down (below up ▸ List.prefix_refl p)

/-- From a negative index on the path is not followed, and what is there is put back. -/
theorem setPath_ended (v x : Value) (negative : ∃ i ∈ p, i < 0) :
    v.setPath p x = v.setPath (p.takeWhile (0 ≤ ·)) (v.getPath (p.takeWhile (0 ≤ ·))) := by
  induction p generalizing v with
  | nil => simp at negative
  | cons i rest ih =>
    by_cases here : 0 ≤ i
    · obtain ⟨j, member, below⟩ := negative
      have more : ∃ j ∈ rest, j < 0 := ⟨j, (List.mem_cons.mp member).resolve_left (by omega), below⟩
      rw [List.takeWhile_cons_of_pos (by simpa using here), setPath_cons v x _ here, ih _ more,
        setPath_cons v _ _ here, getPath_cons]
    · rw [List.takeWhile_cons_of_neg (by simpa using here),
        setPath_negative v x _ (Int.not_le.mp here)]
      rfl

/-- An assignment along a path with a negative index on it stores nothing: whatever is assigned, the
path in front of that index is given what it leads to. So no read at its end or away from it
changes, and the value itself does not exactly if it has all of it. -/
theorem negative_index_ends (v x : Value) (negative : ∃ i ∈ p, i < 0) :
    let front := p.takeWhile (0 ≤ ·)
    (v.setPath p x = v ↔ v.Has front) ∧ v.setPath p x = v.setPath front (v.getPath front) ∧
    ∀ q, (q <+: front → q = front) → (v.setPath p x).getPath q = v.getPath q := by
  intro front
  have reachable : ∀ j ∈ front, 0 ≤ j := fun j member => by
    simpa using List.mem_takeWhile_imp member
  rw [setPath_ended v x negative]
  exact ⟨setPath_getPath_iff v reachable, rfl, fun q => getPath_putBack v reachable⟩

theorem negative_index_ends_promoted :
    let p : List Int := [1, -1]
    let stored := (integer 5).setPath p (integer 3)
    (∃ i ∈ p, i < 0) ∧ stored = .list [integer 5, zero] ∧ stored ≠ integer 5 ∧
    stored.getPath [0] = integer 5 := by
  intro p stored
  have negative : ∃ i ∈ p, i < 0 := by decide
  obtain ⟨unchanged, rebuilt, reads⟩ := negative_index_ends (integer 5) (integer 3) negative
  exact ⟨negative, rebuilt, fun same => Bool.false_ne_true (unchanged.mp same).1,
    reads [0] (by decide)⟩

end Scriptlet.Value
