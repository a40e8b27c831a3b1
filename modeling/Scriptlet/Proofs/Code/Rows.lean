import Scriptlet.Proofs.Code.Terms
import Mathlib.Algebra.GroupWithZero.Nat

/-!
Compiled statements in a row. A jump has a target that may still be open: the end or the next
round of a loop around it, a label, or a place that only the jump itself waits for. The operand
of an open jump is a hole, and filling the holes of a target is the same as resolving it.
-/
namespace Scriptlet.Code

variable {start a : Nat} {row : List Statement} {t u : Target} {x : Statement}
  {place place' : Target → UInt32}

/-- Where a jump goes. Loops are numbered from the outside; a jump that waits by itself is
known by the address of its operand. -/
inductive Target where
  | ip (address : Nat)
  | label (name : String)
  | exit (level : Nat)
  | again (level : Nat)
  | later (operand : Nat)
  deriving DecidableEq, Repr

namespace Target

def isOpen : Target → Bool
  | .ip _ => false
  | _ => true

/-- The word of a target, zero while it is open. -/
def word : Target → UInt32
  | .ip address => .ofNat address
  | _ => 0

def resolve (t : Target) (address : Nat) (u : Target) : Target := if u = t then .ip address else u

@[simp] theorem resolve_self (t : Target) (address : Nat) : t.resolve address t = .ip address := by
  simp [resolve]

variable {t : Target}

theorem resolve_of_ne {u : Target} (address : Nat) (ne : u ≠ t) : t.resolve address u = u := by
  simp [resolve, ne]

theorem resolve_ip (open_ : t.isOpen = true) (address a : Nat) :
    t.resolve address (.ip a) = .ip a := by
  refine resolve_of_ne address ?_
  rintro rfl
  cases open_

end Target

inductive Plain where
  | call (place : Nat) (arguments : List (List Term))
  | returnValue (value : List Term)
  | assign (slot : Address) (value : List Term)
  | assignPath (slot : Address) (indexes : List (List Term)) (value : List Term)

namespace Plain

def front : Plain → List UInt32
  | .call place arguments => [Opcode.callStatement.word, .ofNat place, .ofNat arguments.length]
  | .returnValue _ => [Opcode.returnValue.word]
  | .assign slot _ => [Opcode.assign.word, slot.pack]
  | .assignPath slot indexes _ => [Opcode.assignPath.word, slot.pack, .ofNat indexes.length]

def parts : Plain → List (List Term)
  | .call _ arguments => arguments
  | .returnValue value => [value]
  | .assign _ value => [value]
  | .assignPath _ indexes value => indexes ++ [value]

def words (p : Plain) : List UInt32 := p.front ++ partsWords p.parts

/-- What a statement refers to beside its expressions. -/
def Refers (r : References) : Plain → Prop
  | .call place arguments => r.call place arguments.length
  | .returnValue _ => True
  | .assign slot _ => r.target slot
  | .assignPath slot _ _ => r.target slot

def Valid (r : References) (p : Plain) : Prop := p.Refers r ∧ partsValid r p.parts

theorem Valid.mono {r r' : References} (within : r.Within r') {p : Plain} (valid : p.Valid r) :
    p.Valid r' := by
  refine ⟨?_, partsValid_mono within _ valid.2⟩
  cases p with
  | call place arguments => exact within.call place _ valid.1
  | returnValue value => trivial
  | assign slot | assignPath slot => exact within.target slot valid.1

end Plain

inductive Statement where
  | plain (p : Plain)
  | jump (target : Target)
  | jumpIfFalse (target : Target) (test : List Term)

namespace Statement

variable {r : References} {x : Statement}

def words (place : Target → UInt32) : Statement → List UInt32
  | .plain p => p.words
  | .jump target => [Opcode.jump.word, place target]
  | .jumpIfFalse target test => Opcode.jumpIfFalse.word :: place target :: partsWords [test]

def size (x : Statement) : Nat := (x.words fun _ => 0).length

theorem words_length (place : Target → UInt32) (x : Statement) :
    (x.words place).length = x.size := by
  cases x <;> rfl

theorem size_pos (x : Statement) : 0 < x.size := by
  cases x with
  | plain p => cases p <;> simp [size, words, Plain.words, Plain.front]
  | jump | jumpIfFalse => simp [size, words]

def target? : Statement → Option Target
  | .plain _ => none
  | .jump target => some target
  | .jumpIfFalse target _ => some target

def retarget (f : Target → Target) : Statement → Statement
  | .plain p => .plain p
  | .jump target => .jump (f target)
  | .jumpIfFalse target test => .jumpIfFalse (f target) test

theorem retarget_target? (f : Target → Target) (x : Statement) :
    (x.retarget f).target? = x.target?.map f := by
  cases x <;> rfl

@[simp] theorem retarget_size (f : Target → Target) (x : Statement) :
    (x.retarget f).size = x.size := by
  cases x <;> rfl

theorem retarget_words (place : Target → UInt32) (f : Target → Target) (x : Statement) :
    (x.retarget f).words place = x.words fun t => place (f t) := by
  cases x <;> rfl

def Valid (r : References) : Statement → Prop
  | .plain p => p.Valid r
  | .jump _ => True
  | .jumpIfFalse _ test => partsValid r [test]

theorem Valid.mono {r' : References} (within : r.Within r') (valid : x.Valid r) : x.Valid r' := by
  cases x with
  | plain p => exact Plain.Valid.mono within valid
  | jump target => trivial
  | jumpIfFalse target test => exact partsValid_mono within _ valid

theorem Valid.retarget (valid : x.Valid r) (f : Target → Target) : (x.retarget f).Valid r := by
  cases x <;> exact valid

def parts : Statement → List (List Term)
  | .plain p => p.parts
  | .jump _ => []
  | .jumpIfFalse _ test => [test]

theorem retarget_parts (f : Target → Target) (x : Statement) : (x.retarget f).parts = x.parts := by
  cases x <;> rfl

def final : Statement := .plain (.returnValue [])

theorem final_valid (r : References) : final.Valid r := by
  refine ⟨trivial, ?_⟩
  simp [Plain.parts, partsValid, termsValid, effect]

end Statement

def limitTest (counter : Address) (limit : List Term) (op : Relation) : List Term :=
  [.load counter] ++ limit ++ [.binary (.relation op)]

theorem limitTest_words (counter : Address) (limit : List Term) (op : Relation) :
    partsWords [limitTest counter limit op] =
      .ofNat (limit.length + 2) :: Opcode.load.word :: counter.pack :: termsWords limit ++
        [(Opcode.binary (.relation op)).word] := by
  have length : (limitTest counter limit op).length = limit.length + 2 := by simp [limitTest]
  rw [partsWords_single, length, limitTest, termsWords_append, termsWords_append,
    termsWords_single, termsWords_single, Term.words, Term.words]
  rfl

theorem limitTest_literals (counter : Address) (limit : List Term) (op : Relation) :
    partsLiterals [limitTest counter limit op] = termsLiterals limit := by
  rw [partsLiterals_single, limitTest, termsLiterals_append, termsLiterals_append,
    termsLiterals_single, termsLiterals_single, Term.literals, Term.literals, List.nil_append,
    List.append_nil]

def increment (counter : Address) (place : Nat) : Plain :=
  .assign counter [.load counter, .literal place, .binary (.arithmetic .add)]

theorem increment_words (counter : Address) (place : Nat) : (increment counter place).words =
      [Opcode.assign.word, counter.pack] ++ .ofNat 3 :: [Opcode.load.word, counter.pack,
        Opcode.literal.word, .ofNat place, (Opcode.binary (.arithmetic .add)).word] := by
  simp [increment, Plain.words, Plain.front, Plain.parts, partsWords_single, termsWords, Term.words]

theorem increment_literals (counter : Address) (place : Nat) :
    partsLiterals (increment counter place).parts = [place] := by
  simp [increment, Plain.parts, partsLiterals, termsLiterals, Term.literals]

def rowWords (place : Target → UInt32) (row : List Statement) : List UInt32 :=
  row.flatMap (·.words place)

def rowSize (row : List Statement) : Nat := (row.map (·.size)).sum

@[simp] theorem rowSize_nil : rowSize [] = 0 := rfl

@[simp] theorem rowSize_cons (x : Statement) (row : List Statement) :
    rowSize (x :: row) = x.size + rowSize row := by
  simp [rowSize]

@[simp] theorem rowSize_append (row more : List Statement) :
    rowSize (row ++ more) = rowSize row + rowSize more := by
  simp [rowSize]

theorem rowWords_length (place : Target → UInt32) (row : List Statement) :
    (rowWords place row).length = rowSize row := by
  induction row with
  | nil => rfl
  | cons x row ih =>
    rw [rowSize_cons, ← ih, ← x.words_length place]
    simp [rowWords]

theorem rowWords_append (place : Target → UInt32) (row more : List Statement) :
    rowWords place (row ++ more) = rowWords place row ++ rowWords place more := by
  simp [rowWords]

theorem rowWords_cons (place : Target → UInt32) (x : Statement) (row : List Statement) :
    rowWords place (x :: row) = x.words place ++ rowWords place row := by
  simp [rowWords]

theorem rowWords_single (place : Target → UInt32) (x : Statement) :
    rowWords place [x] = x.words place :=
  List.append_nil _

def rowLiterals (row : List Statement) : List Nat := row.flatMap fun x => partsLiterals x.parts

theorem rowLiterals_append (row more : List Statement) :
    rowLiterals (row ++ more) = rowLiterals row ++ rowLiterals more := by
  simp [rowLiterals]

theorem rowLiterals_cons (x : Statement) (row : List Statement) :
    rowLiterals (x :: row) = partsLiterals x.parts ++ rowLiterals row := by
  simp [rowLiterals]

theorem rowLiterals_retarget (f : Target → Target) (row : List Statement) :
    rowLiterals (row.map (·.retarget f)) = rowLiterals row := by
  simp [rowLiterals, List.flatMap_map, Statement.retarget_parts]

def bounds (start : Nat) : List Statement → List Nat
  | [] => [start]
  | x :: row => start :: bounds (start + x.size) row

theorem start_mem_bounds (start : Nat) (row : List Statement) : start ∈ bounds start row := by
  cases row <;> simp [bounds]

theorem end_mem_bounds (start : Nat) (row : List Statement) :
    start + rowSize row ∈ bounds start row := by
  induction row generalizing start with
  | nil => simp [bounds]
  | cons x row ih =>
    rw [rowSize_cons, ← Nat.add_assoc]
    exact List.mem_cons_of_mem _ (ih (start + x.size))

theorem mem_bounds_iff :
    a ∈ bounds start row ↔ ∃ before after, row = before ++ after ∧ a = start + rowSize before := by
  induction row generalizing start with
  | nil =>
    simp only [bounds, List.mem_singleton]
    constructor
    · intro same
      exact ⟨[], [], rfl, by simp [same]⟩
    · rintro ⟨before, after, split, same⟩
      obtain ⟨rfl, rfl⟩ := List.append_eq_nil_iff.mp split.symm
      simpa using same
  | cons x row ih =>
    simp only [bounds, List.mem_cons, ih]
    constructor
    · rintro (same | ⟨before, after, rfl, same⟩)
      · exact ⟨[], x :: row, rfl, by simp [same]⟩
      · exact ⟨x :: before, after, rfl, by simp [same, Nat.add_assoc]⟩
    · rintro ⟨before, after, split, same⟩
      cases before with
      | nil => exact Or.inl (by simpa using same)
      | cons y before =>
        obtain ⟨rfl, rfl⟩ := List.cons.inj split
        exact Or.inr ⟨before, after, rfl, by simp [same, Nat.add_assoc]⟩

theorem mem_bounds_append {more : List Statement} :
    a ∈ bounds start (row ++ more) ↔ a ∈ bounds start row ∨
    a ∈ bounds (start + rowSize row) more := by
  induction row generalizing start with
  | nil =>
    simp only [List.nil_append, bounds, List.mem_singleton, rowSize_nil, Nat.add_zero]
    constructor
    · exact Or.inr
    · rintro (same | member)
      · exact same ▸ start_mem_bounds _ _
      · exact member
  | cons x row ih =>
    simp only [List.cons_append, bounds, List.mem_cons, ih, rowSize_cons, ← Nat.add_assoc, or_assoc]

theorem bounds_retarget (f : Target → Target) (start : Nat) (row : List Statement) :
    bounds start (row.map (·.retarget f)) = bounds start row := by
  induction row generalizing start with
  | nil => rfl
  | cons x row ih => simp only [List.map_cons, bounds, Statement.retarget_size, ih]

theorem rowSize_retarget (f : Target → Target) (row : List Statement) :
    rowSize (row.map (·.retarget f)) = rowSize row := by
  simp [rowSize, Function.comp_def]

theorem rowWords_retarget (place : Target → UInt32) (f : Target → Target) (row : List Statement) :
    rowWords place (row.map (·.retarget f)) = rowWords (fun t => place (f t)) row := by
  induction row with
  | nil => rfl
  | cons x row ih => rw [List.map_cons, rowWords_cons, rowWords_cons, ih, x.retarget_words]

def holes (t : Target) (start : Nat) : List Statement → List Nat
  | [] => []
  | x :: row => (if x.target? = some t then [start + 1] else []) ++ holes t (start + x.size) row

theorem holes_append (t : Target) (start : Nat) (row more : List Statement) :
    holes t start (row ++ more) = holes t start row ++ holes t (start + rowSize row) more := by
  induction row generalizing start with
  | nil => simp [holes]
  | cons x row ih =>
    simp only [List.cons_append, holes, ih, rowSize_cons, List.append_assoc, Nat.add_assoc]

theorem mem_holes_lt (member : a ∈ holes t start row) : a < start + rowSize row := by
  induction row generalizing start with
  | nil => simp [holes] at member
  | cons x row ih =>
    rw [rowSize_cons]
    rcases List.mem_append.mp member with here | later
    · split at here
      · rename_i aims
        have : 2 ≤ x.size := by
          cases x with
          | plain p => cases aims
          | jump | jumpIfFalse => simp [Statement.size, Statement.words]
        have := List.mem_singleton.mp here
        omega
      · simp at here
    · have := ih later
      omega

def patchAll (value : UInt32) (addresses : List Nat) (words : List UInt32) : List UInt32 :=
  addresses.foldl (fun ws a => ws.set a value) words

theorem patchAll_append (value : UInt32) (as bs : List Nat) (words : List UInt32) :
    patchAll value (as ++ bs) words = patchAll value bs (patchAll value as words) := by
  simp [patchAll]

theorem set_jump {pre rest : List UInt32} (aims : x.target? = some t) (value : place' t = value') :
    (pre ++ (x.words place ++ rest)).set (pre.length + 1) value' =
      pre ++ (x.words place' ++ rest) := by
  cases x with
  | plain p => simp [Statement.target?] at aims
  | jump target | jumpIfFalse target test =>
    cases aims
    simp [Statement.words, value]

theorem words_congr (same : ∀ t, x.target? = some t → place t = place' t) :
    x.words place = x.words place' := by
  cases x with
  | plain p => rfl
  | jump target | jumpIfFalse target test => simp only [Statement.words, same target rfl]

/-- Patching the holes of a target gives the words with the target in its place. -/
theorem patchAll_holes {value : UInt32} (here : place' t = value)
    (others : ∀ u, u ≠ t → place' u = place u) (row : List Statement) : ∀ pre : List UInt32,
      patchAll value (holes t pre.length row) (pre ++ rowWords place row) =
        pre ++ rowWords place' row := by
  induction row with
  | nil => intro pre; rfl
  | cons x row ih =>
    intro pre
    rw [holes, patchAll_append, rowWords_cons, rowWords_cons]
    have first : patchAll value (if x.target? = some t then [pre.length + 1] else [])
        (pre ++ (x.words place ++ rowWords place row)) =
          (pre ++ x.words place') ++ rowWords place row := by
      by_cases aims : x.target? = some t
      · rw [if_pos aims]
        change List.set _ _ _ = _
        rw [set_jump aims here, List.append_assoc]
      · have same : x.words place = x.words place' :=
          words_congr fun u aimed => (others u fun eq => aims (eq ▸ aimed)).symm
        rw [if_neg aims, same]
        simp [patchAll]
    have size : pre.length + x.size = (pre ++ x.words place').length := by
      rw [List.length_append, x.words_length]
    rw [first, size, ih, List.append_assoc]

def resolveRow (t : Target) (address : Nat) (row : List Statement) : List Statement :=
  row.map (·.retarget (t.resolve address))

theorem rowLiterals_resolveRow (t : Target) (address : Nat) (row : List Statement) :
    rowLiterals (resolveRow t address row) = rowLiterals row :=
  rowLiterals_retarget _ _

theorem resolveRow_cons (t : Target) (address : Nat) (x : Statement) (row : List Statement) :
    resolveRow t address (x :: row) = x.retarget (t.resolve address) :: resolveRow t address row :=
  rfl

theorem resolveRow_append (t : Target) (address : Nat) (row more : List Statement) :
    resolveRow t address (row ++ more) = resolveRow t address row ++ resolveRow t address more :=
  List.map_append

theorem resolveRow_jump (t : Target) (address : Nat) :
    resolveRow t address [.jump t] = [.jump (.ip address)] := by
  simp [resolveRow, Statement.retarget]

theorem resolveRow_test (t : Target) (address : Nat) (f : List Term) :
    resolveRow t address [.jumpIfFalse t f] = [.jumpIfFalse (.ip address) f] := by
  simp [resolveRow, Statement.retarget]

theorem rowSize_resolveRow (t : Target) (address : Nat) (row : List Statement) :
    rowSize (resolveRow t address row) = rowSize row :=
  rowSize_retarget _ _

theorem resolveRow_self (none_ : ∀ x ∈ row, x.target? ≠ some t) (address : Nat) :
    resolveRow t address row = row := by
  induction row with
  | nil => rfl
  | cons x row ih =>
    rw [List.forall_mem_cons] at none_
    have same : x.retarget (t.resolve address) = x := by
      cases x with
      | plain p => rfl
      | jump target | jumpIfFalse target test =>
        rw [Statement.retarget, Target.resolve_of_ne address fun h => none_.1 (congrArg some h)]
    rw [resolveRow_cons, same, ih none_.2]

theorem resolveRow_other (other : u ≠ t) (address : Nat) :
    resolveRow t address [.jump u] = [.jump u] :=
  resolveRow_self (by simpa [Statement.target?] using other) address

theorem resolveRow_back (open_ : t.isOpen = true) (address a : Nat) (row : List Statement) :
    resolveRow t address (.jump (.ip a) :: row) = .jump (.ip a) :: resolveRow t address row := by
  rw [resolveRow_cons, Statement.retarget, Target.resolve_ip open_]

theorem resolveRow_branch (open_ : t.isOpen = true) (address a : Nat) (f : List Term)
    (row : List Statement) :
    resolveRow t address (.jumpIfFalse (.ip a) f :: row) =
      .jumpIfFalse (.ip a) f :: resolveRow t address row := by
  rw [resolveRow_cons, Statement.retarget, Target.resolve_ip open_]

theorem resolveRow_known (open_ : t.isOpen = true) (address a : Nat) (f : List Term) :
    resolveRow t address [.jumpIfFalse (.ip a) f] = [.jumpIfFalse (.ip a) f] :=
  resolveRow_branch open_ address a f []

theorem resolveRow_closed (open_ : t.isOpen = true)
    (closed : ∀ x ∈ row, ∀ u, x.target? = some u → u.isOpen = false) (address : Nat) :
    resolveRow t address row = row := by
  refine resolveRow_self (fun x member aims => ?_) address
  rw [closed x member t aims] at open_
  cases open_

/-- A loop is closed: the jump out of it in front of its body and the jumps in the body are filled
in, and what stands behind the body is complete already. -/
theorem resolveRow_loop {behind : List Statement}
    (closed : ∀ x ∈ behind, ∀ u, x.target? = some u → u.isOpen = false) (depth leave again : Nat)
    (f : List Term) (body : List Statement) :
    resolveRow (.again depth) again (resolveRow (.exit depth) leave
        ([.jumpIfFalse (.exit depth) f] ++ body ++ behind)) = .jumpIfFalse (.ip leave) f ::
        (resolveRow (.again depth) again (resolveRow (.exit depth) leave body) ++ behind) := by
  have same : ∀ t : Target, t.isOpen = true → ∀ a, resolveRow t a behind = behind :=
    fun t open_ a => resolveRow_closed open_ closed a
  simp only [resolveRow_append, resolveRow_test, resolveRow_known (t := .again depth) rfl]
  rw [same _ rfl, same _ rfl, List.append_assoc, List.singleton_append]

theorem resolveRow_words {address : Nat} (before : List UInt32) (row : List Statement) :
    before ++ rowWords Target.word (resolveRow t address row) =
      patchAll (.ofNat address) (holes t before.length row)
        (before ++ rowWords Target.word row) := by
  rw [resolveRow, rowWords_retarget]
  refine (patchAll_holes ?_ ?_ row before).symm
  · simp [Target.word]
  · intro u other
    rw [Target.resolve_of_ne address other]

theorem holes_eq_nil_iff : holes t start row = [] ↔ ∀ x ∈ row, x.target? ≠ some t := by
  induction row generalizing start with
  | nil => simp [holes]
  | cons x row ih =>
    simp only [holes, List.append_eq_nil_iff, ih, List.mem_cons, forall_eq_or_imp]
    by_cases aims : x.target? = some t <;> simp [aims]

theorem holes_resolve_self (open_ : t.isOpen = true) (address start : Nat)
    (row : List Statement) : holes t start (resolveRow t address row) = [] := by
  rw [holes_eq_nil_iff]
  intro x member
  obtain ⟨y, _, rfl⟩ := List.mem_map.mp member
  rw [Statement.retarget_target?]
  intro aims
  obtain ⟨u, _, same⟩ := Option.map_eq_some_iff.mp aims
  by_cases equal : u = t
  · rw [equal, Target.resolve_self] at same
    simp [← same, Target.isOpen] at open_
  · rw [Target.resolve_of_ne address equal] at same
    exact equal same

theorem holes_resolve_of_ne (open_ : u.isOpen = true) (other : u ≠ t)
    (address start : Nat) (row : List Statement) :
    holes u start (resolveRow t address row) = holes u start row := by
  induction row generalizing start with
  | nil => rfl
  | cons x row ih =>
    have same : (x.retarget (t.resolve address)).target? = some u ↔ x.target? = some u := by
      rw [Statement.retarget_target?, Option.map_eq_some_iff]
      constructor
      · rintro ⟨v, aims, equal⟩
        by_cases resolved : v = t
        · rw [resolved, Target.resolve_self] at equal
          simp [← equal, Target.isOpen] at open_
        · rw [Target.resolve_of_ne address resolved] at equal
          exact equal ▸ aims
      · intro aims
        exact ⟨u, aims, Target.resolve_of_ne address other⟩
    have rest : holes u (start + x.size) (resolveRow t address row) =
        holes u (start + x.size) row :=
      ih (start + x.size)
    simp only [resolveRow, List.map_cons, holes, same, Statement.retarget_size]
    exact congrArg _ rest

end Scriptlet.Code
