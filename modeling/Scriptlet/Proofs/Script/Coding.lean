import Scriptlet.Proofs.Code.Rows
import Scriptlet.Proofs.Script.Tree

/-!
When a row of code says what a tree says. Names stand for slots and for places in the function
table, numbers for literals of the pool. An expression of literals only may be computed
beforehand. Jumps of branches and loops go where the tree says, those of `break` and `continue`
to the targets of the loop around them; resolving an open target resolves these as well.
-/
namespace Scriptlet.Script

open Code

theorem ofBool_truth {b : Bool} {p : Prop} [Decidable p] (same : b = true ↔ p) :
    Value.ofBool b = .integer (truth p) := by
  by_cases holds : p
  · rw [same.mpr holds, truth, if_pos holds]
    rfl
  · rw [Bool.eq_false_iff.mpr fun h => holds (same.mp h), truth, if_neg holds]
    rfl

theorem compare_integers (a b : Int32) : ((Value.integer a).compare (.integer b) = .lt ↔ a < b) ∧
      ((Value.integer a).compare (.integer b) = .eq ↔ a = b) ∧
      ((Value.integer a).compare (.integer b) = .gt ↔ b < a) := by
  change (Ord.compare a.toInt b.toInt = .lt ↔ _) ∧ (Ord.compare a.toInt b.toInt = .eq ↔ _) ∧
    (Ord.compare a.toInt b.toInt = .gt ↔ _)
  rw [Std.compare_eq_lt, Std.compare_eq_iff_eq, Std.compare_eq_gt, Int32.lt_iff_toInt_lt,
    Int32.lt_iff_toInt_lt, Int32.toInt_inj]
  exact ⟨Iff.rfl, Iff.rfl, Iff.rfl⟩

theorem Operator.binary_apply (op : Operator) (a b : Int32) :
    op.binary.apply (.integer a) (.integer b) = .integer (op.apply a b) := by
  cases op with
  | arithmetic op => cases op <;> rfl
  | logical c =>
    cases c with
    | and | or => exact ofBool_truth (by simp [Connective.combine, Value.isTrue, Atom.isTrue])
    | xor =>
      refine ofBool_truth ?_
      change ((a != 0) != (b != 0)) = true ↔ _
      rw [bne_iff_ne, Ne, Bool.eq_iff_iff, bne_iff_ne, bne_iff_ne]
  | relation r =>
    obtain ⟨less, same, more⟩ := compare_integers a b
    cases r with
    | equal | notEqual => exact ofBool_truth (by simp [Relation.holds, same])
    | greater => exact ofBool_truth (by simp [Relation.holds, more])
    | greaterOrEqual | less => exact ofBool_truth (by simp [Relation.holds, less])
    | lessOrEqual => exact ofBool_truth (by simp [Relation.holds, more])

theorem unary_apply (op : UnaryOp) (a : Int32) :
    op.apply (.integer a) = .integer (signed a op) := by
  cases op with
  | negate => rfl
  | not => exact ofBool_truth (by simp [Value.isTrue, Atom.isTrue])

theorem Step.toInt_value (step : Step) : step.value.toInt = step.size := by
  have small := step.small
  exact Int32.toInt_ofInt_of_le (by omega) (by omega)

theorem Step.value_of_neg (step : Step) (down : step.size < 0) :
    -Int32.ofNat step.size.natAbs = step.value := by
  rw [← Int32.ofInt_eq_ofNat, ← Int32.ofInt_neg, Step.value]
  congr 1
  omega

theorem Step.value_of_nonneg (step : Step) (up : ¬step.size < 0) :
    Int32.ofNat step.size.natAbs = step.value := by
  rw [← Int32.ofInt_eq_ofNat, Step.value]
  congr 1
  omega

theorem Step.compare_zero (step : Step) : (Value.integer step.value).compare .zero ≠ .eq ∧
      ((Value.integer step.value).compare .zero = .lt ↔ step.size < 0) := by
  obtain ⟨less, same, _⟩ := compare_integers step.value 0
  have value := step.toInt_value
  constructor
  · intro equal
    have zero := same.mp equal
    rw [zero] at value
    exact step.nonzero value.symm
  · refine less.trans ?_
    rw [Int32.lt_iff_toInt_lt, value]
    rfl

/-- What the places in code stand for. -/
structure Naming where
  slot : String → Address → Prop
  place : String → Nat → Prop
  literal : Nat → Value → Prop

structure Naming.Within (r r' : Naming) : Prop where
  slot : ∀ x a, r.slot x a → r'.slot x a
  place : ∀ f i, r.place f i → r'.place f i
  literal : ∀ i v, r.literal i v → r'.literal i v

/-- An expression with the same value whatever the variables and functions are. -/
def Expr.Fixed (e : Expr) (v : Int32) : Prop := ∀ calls env, e.eval calls env = some v

variable (r : Naming)

mutual

inductive Codes : Expr → List Term → Prop where
  | fixed {e : Expr} {v : Int32} {i : Nat} : e.Fixed v → r.literal i (.integer v) →
      Codes e [.literal i]
  | var {x : String} {a : Address} : r.slot x a → Codes (.var x) [.load a]
  | call {f : String} {place : Nat} {es : List Expr} {fs : List (List Term)} :
      r.place f place → CodesAll es fs → Codes (.call f es) [.compound (.call place) fs]
  | binary {op : Operator} {left right : Expr} {ts us : List Term} : Codes left ts →
      Codes right us → Codes (.binary op left right) (ts ++ us ++ [.binary op.binary])
  | unary {op : UnaryOp} {operand : Expr} {ts : List Term} : Codes operand ts →
      Codes (.unary op operand) (ts ++ [.unary op])

inductive CodesAll : List Expr → List (List Term) → Prop where
  | nil : CodesAll [] []
  | cons {e : Expr} {es : List Expr} {f : List Term} {fs : List (List Term)} : Codes e f →
      CodesAll es fs → CodesAll (e :: es) (f :: fs)

end

def testSize (ts : List Term) : Nat := (Statement.jumpIfFalse (.ip 0) ts).size

theorem rowSize_test (t : Target) (ts : List Term) : rowSize [.jumpIfFalse t ts] = testSize ts := by
  rw [rowSize_cons, rowSize_nil, Nat.add_zero]
  rfl

def Step.relation (step : Step) : Relation :=
  if step.size < 0 then .greaterOrEqual else .lessOrEqual

/-- Where `break` and `continue` go, if there is a loop around. -/
abbrev Exits := Option (Target × Target)

mutual

/-- The row is the code of the statement at an address. -/
inductive Lies : Exits → Nat → Stmt → List Statement → Prop where
  | assign {exits : Exits} {start : Nat} {x : String} {a : Address} {e : Expr} {ts : List Term} :
      r.slot x a → Codes r e ts → Lies exits start (.assign x e) [.plain (.assign a ts)]
  | call {exits : Exits} {start : Nat} {f : String} {place : Nat} {es : List Expr}
      {fs : List (List Term)} : r.place f place → CodesAll r es fs →
      Lies exits start (.call f es) [.plain (.call place fs)]
  | if_ {exits : Exits} {start finish : Nat} {test : Expr} {yes : List Stmt} {ts : List Term}
      {row : List Statement} : Codes r test ts → LiesAll exits (start + testSize ts) yes row →
      finish = start + testSize ts + rowSize row →
      Lies exits start (.if_ test yes) (.jumpIfFalse (.ip finish) ts :: row)
  | ifElse {exits : Exits} {start middle finish : Nat} {test : Expr} {yes no : List Stmt}
      {ts : List Term} {row other : List Statement} : Codes r test ts →
      LiesAll exits (start + testSize ts) yes row → LiesAll exits middle no other →
      middle = start + testSize ts + rowSize row + 2 → finish = middle + rowSize other →
      Lies exits start (.ifElse test yes no)
        (.jumpIfFalse (.ip middle) ts :: (row ++ .jump (.ip finish) :: other))
  | while_ {exits : Exits} {start finish : Nat} {test : Expr} {body : List Stmt} {ts : List Term}
      {row : List Statement} : Codes r test ts →
      LiesAll (some (.ip finish, .ip start)) (start + testSize ts) body row →
      finish = start + testSize ts + rowSize row + 2 →
      Lies exits start (.while_ test body)
        (.jumpIfFalse (.ip finish) ts :: (row ++ [.jump (.ip start)]))
  | for_ {exits : Exits} {start round again finish place : Nat} {x : String} {a : Address}
      {first limit : Expr} {step : Step} {body : List Stmt} {ts us : List Term}
      {row : List Statement} : r.slot x a → Codes r first ts → Codes r limit us →
      r.literal place (.integer step.value) →
      LiesAll (some (.ip finish, .ip again)) (round + testSize (limitTest a us step.relation))
        body row →
      round = start + (Statement.plain (.assign a ts)).size →
      again = round + testSize (limitTest a us step.relation) + rowSize row →
      finish = again + (Statement.plain (increment a place)).size + 2 →
      Lies exits start (.for_ x first limit step body)
        (.plain (.assign a ts) :: .jumpIfFalse (.ip finish) (limitTest a us step.relation) ::
          (row ++ [.plain (increment a place), .jump (.ip round)]))
  | break_ {leave again : Target} {start : Nat} :
      Lies (some (leave, again)) start .break_ [.jump leave]
  | continue_ {leave again : Target} {start : Nat} :
      Lies (some (leave, again)) start .continue_ [.jump again]
  | return_ {exits : Exits} {start : Nat} : Lies exits start .return_ [.plain (.returnValue [])]
  | returnValue {exits : Exits} {start : Nat} {e : Expr} {ts : List Term} : Codes r e ts →
      Lies exits start (.returnValue e) [.plain (.returnValue ts)]

inductive LiesAll : Exits → Nat → List Stmt → List Statement → Prop where
  | nil {exits : Exits} {start : Nat} : LiesAll exits start [] []
  | cons {exits : Exits} {start : Nat} {s : Stmt} {rest : List Stmt} {row more : List Statement} :
      Lies exits start s row → LiesAll exits (start + rowSize row) rest more →
      LiesAll exits start (s :: rest) (row ++ more)

end

variable {r} {r' : Naming}

mutual

theorem Codes.mono (within : r.Within r') {e : Expr} {ts : List Term} : Codes r e ts → Codes r' e ts
  | .fixed value found => .fixed value (within.literal _ _ found)
  | .var slot => .var (within.slot _ _ slot)
  | .call place arguments => .call (within.place _ _ place) (arguments.mono within)
  | .binary left right => .binary (left.mono within) (right.mono within)
  | .unary operand => .unary (operand.mono within)

theorem CodesAll.mono (within : r.Within r') {es : List Expr} {fs : List (List Term)} :
    CodesAll r es fs → CodesAll r' es fs
  | .nil => .nil
  | .cons first rest => .cons (first.mono within) (rest.mono within)

end

mutual

theorem Lies.mono (within : r.Within r') {exits : Exits} {start : Nat} {s : Stmt}
    {row : List Statement} : Lies r exits start s row → Lies r' exits start s row
  | .assign slot value => .assign (within.slot _ _ slot) (value.mono within)
  | .call place arguments => .call (within.place _ _ place) (arguments.mono within)
  | .if_ test yes at_ => .if_ (test.mono within) (yes.mono within) at_
  | .ifElse test yes no at_ at_' =>
    .ifElse (test.mono within) (yes.mono within) (no.mono within) at_ at_'
  | .while_ test body at_ => .while_ (test.mono within) (body.mono within) at_
  | .for_ slot first limit step body at_ at_' at_'' =>
    .for_ (within.slot _ _ slot) (first.mono within) (limit.mono within)
      (within.literal _ _ step) (body.mono within) at_ at_' at_''
  | .break_ => .break_
  | .continue_ => .continue_
  | .return_ => .return_
  | .returnValue value => .returnValue (value.mono within)

theorem LiesAll.mono (within : r.Within r') {exits : Exits} {start : Nat} {ss : List Stmt}
    {row : List Statement} : LiesAll r exits start ss row → LiesAll r' exits start ss row
  | .nil => .nil
  | .cons first rest => .cons (first.mono within) (rest.mono within)

end

def Exits.resolve (t : Target) (address : Nat) (exits : Exits) : Exits :=
  exits.map fun (leave, again) => (t.resolve address leave, t.resolve address again)

theorem Exits.resolve_ip {t : Target} (open_ : t.isOpen = true) (address a b : Nat) :
    Exits.resolve t address (some (.ip a, .ip b)) = some (.ip a, .ip b) := by
  simp only [Exits.resolve, Option.map_some, Target.resolve_ip open_]

theorem Exits.resolve_loop (depth a b : Nat) :
    Exits.resolve (.again depth) b (Exits.resolve (.exit depth) a
      (some (.exit depth, .again depth))) = some (.ip a, .ip b) := by
  simp [Exits.resolve, Target.resolve]

mutual

theorem Lies.resolve {t : Target} (open_ : t.isOpen = true) (address : Nat) {exits : Exits}
    {start : Nat} {s : Stmt} {row : List Statement} : Lies r exits start s row →
      Lies r (exits.resolve t address) start s (resolveRow t address row)
  | .assign slot value => .assign slot value
  | .call place arguments => .call place arguments
  | .if_ test yes at_ => by
    rw [resolveRow_branch open_]
    exact .if_ test (yes.resolve open_ address) (by rwa [rowSize_resolveRow])
  | .ifElse test yes no at_ at_' => by
    rw [resolveRow_branch open_, resolveRow_append, resolveRow_back open_]
    exact .ifElse test (yes.resolve open_ address) (no.resolve open_ address)
      (by rwa [rowSize_resolveRow]) (by rwa [rowSize_resolveRow])
  | .while_ test body at_ => by
    have inner := body.resolve open_ address
    rw [Exits.resolve_ip open_] at inner
    rw [resolveRow_branch open_, resolveRow_append, resolveRow_back open_]
    exact .while_ test inner (by rwa [rowSize_resolveRow])
  | .for_ slot first limit step body at_ at_' at_'' => by
    have inner := body.resolve open_ address
    rw [Exits.resolve_ip open_] at inner
    rw [resolveRow_cons, Statement.retarget, resolveRow_branch open_, resolveRow_append,
      resolveRow_cons, Statement.retarget, resolveRow_back open_]
    exact .for_ slot first limit step inner at_ (by rwa [rowSize_resolveRow]) at_''
  | .break_ => .break_
  | .continue_ => .continue_
  | .return_ => .return_
  | .returnValue value => .returnValue value

theorem LiesAll.resolve {t : Target} (open_ : t.isOpen = true) (address : Nat) {exits : Exits}
    {start : Nat} {ss : List Stmt} {row : List Statement} : LiesAll r exits start ss row →
      LiesAll r (exits.resolve t address) start ss (resolveRow t address row)
  | .nil => .nil
  | .cons first rest => by
    rw [resolveRow_append]
    exact .cons (first.resolve open_ address)
      (by rw [rowSize_resolveRow]; exact rest.resolve open_ address)

end

end Scriptlet.Script
