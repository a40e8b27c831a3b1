import Scriptlet.Proofs.Machine.Ticks

/-!
How the parts of a machine belong together, whatever the program is. The code may be corrupt and
earlier calls may have failed: there is always one saved address for each frame, and the work is
cut by the frames into layers, one for each call. A layer has a statement at its bottom and above
it, by turns, expressions and the compound tokens in them. A call that waits for another one has
no work or an expression on top.
-/
namespace Scriptlet

open Actions

namespace Instruction

/-- The operand is of the kind that the opcode takes, if it takes one. -/
inductive Legal : Instruction → Prop where
  | nop (ip : Nat) (operand : Operand) (k : Nat) : Legal ⟨.nop, ip, operand, k⟩
  | callStatement (ip place k : Nat) : Legal ⟨.callStatement, ip, .function place, k⟩
  | returnValue (ip : Nat) (operand : Operand) (k : Nat) : Legal ⟨.returnValue, ip, operand, k⟩
  | jump (ip target k : Nat) : Legal ⟨.jump, ip, .address target, k⟩
  | jumpIfFalse (ip target k : Nat) : Legal ⟨.jumpIfFalse, ip, .address target, k⟩
  | assign (ip : Nat) (slot : Address) (k : Nat) : Legal ⟨.assign, ip, .slot slot, k⟩
  | assignElement (ip : Nat) (slot : Address) (k : Nat) : Legal ⟨.assignElement, ip, .slot slot, k⟩
  | assignPath (ip : Nat) (slot : Address) (k : Nat) : Legal ⟨.assignPath, ip, .slot slot, k⟩
  | createList (ip : Nat) (operand : Operand) (k : Nat) : Legal ⟨.createList, ip, operand, k⟩
  | initializeList (ip : Nat) (operand : Operand) (k : Nat) :
      Legal ⟨.initializeList, ip, operand, k⟩
  | element (ip : Nat) (slot : Address) (k : Nat) : Legal ⟨.element, ip, .slot slot, k⟩
  | elementPath (ip : Nat) (slot : Address) (k : Nat) : Legal ⟨.elementPath, ip, .slot slot, k⟩
  | call (ip place k : Nat) : Legal ⟨.call, ip, .function place, k⟩

/-- The place of the function that is called, and whether its value is wanted. -/
def callee? : Instruction → Option (Nat × Bool)
  | ⟨.callStatement, _, .function place, _⟩ => some (place, false)
  | ⟨.call, _, .function place, _⟩ => some (place, true)
  | _ => none

theorem callee?_kind {i : Instruction} {place : Nat} {wanted : Bool}
    (calls : i.callee? = some (place, wanted)) : i.op.isStatement = !wanted := by
  unfold callee? at calls
  split at calls <;> cases calls <;> rfl

end Instruction

def Opcode.isSimple : Opcode → Bool
  | .literal | .load | .binary _ | .unary _ => true
  | _ => false

namespace Cursor

variable {words : Array UInt32}

theorem instruction_readings (P : {γ : Type} → Reading γ → Prop)
    (pures : ∀ i : Option Instruction, P (pure i))
    (numbers : ∀ f : Nat → Reading (Option Instruction), (∀ n, P (f n)) → P (number words >>= f))
    (addresses : ∀ f : Address → Reading (Option Instruction), (∀ a, P (f a)) →
      P (Reading.of (address words) >>= f)) (op : Opcode) (ip : Nat) :
    P (instruction words op ip) := by
  cases op with
  | callStatement | call => exact numbers _ fun _ => numbers _ fun _ => pures _
  | assignPath | elementPath => exact addresses _ fun _ => numbers _ fun _ => pures _
  | jump | jumpIfFalse | initializeList => exact numbers _ fun _ => pures _
  | assign | assignElement | element => exact addresses _ fun _ => pures _
  | _ => exact pures _

theorem instruction_kind {op : Opcode} {ip : Nat} {c c' : Cursor} {found : Option Instruction}
    (read : instruction words op ip c = .ok found c') : (found = none ∧ op.isSimple = true) ∨
      ∃ i, found = some i ∧ i.Legal ∧ i.op = op ∧ op.isSimple = false := by
  cases op with
  | callStatement | call | assignPath | elementPath =>
    obtain ⟨_, _, _, rest⟩ := of_bind_ok read
    obtain ⟨_, _, _, last⟩ := of_bind_ok rest
    cases last
    exact Or.inr ⟨_, rfl, by constructor, rfl, rfl⟩
  | jump | jumpIfFalse | initializeList | assign | assignElement | element =>
    obtain ⟨_, _, _, last⟩ := of_bind_ok read
    cases last
    exact Or.inr ⟨_, rfl, by constructor, rfl, rfl⟩
  | nop | returnValue | createList =>
    cases read
    exact Or.inr ⟨_, rfl, by constructor, rfl, rfl⟩
  | literal | load | binary _ | unary _ =>
    cases read
    exact Or.inl ⟨rfl, rfl⟩

end Cursor

/-- The work of one call, innermost first. -/
inductive Layer : List Work → Prop where
  | idle : Layer []
  | statement {i : Instruction} (n : Nat) (values : List Value) : i.Legal →
      i.op.isStatement = true → Layer [.instruction i n values]
  | expression {i : Instruction} {k : Nat} {values : List Value} {rest : List Work}
      (n : Nat) (operands : List Value) : Layer (.instruction i k values :: rest) →
      Layer (.expression n operands :: .instruction i k values :: rest)
  | compound {i : Instruction} {k : Nat} {operands : List Value} {rest : List Work}
      (n : Nat) (values : List Value) : i.Legal → i.op.isStatement = false →
      Layer (.expression k operands :: rest) →
      Layer (.instruction i n values :: .expression k operands :: rest)

namespace Layer

variable {i : Instruction} {n : Nat} {rest : List Work}

theorem of_values {values : List Value} (layer : Layer (.instruction i n values :: rest))
    (k : Nat) (others : List Value) : Layer (.instruction i k others :: rest) := by
  cases layer with
  | statement _ _ legal kind => exact .statement k others legal kind
  | compound _ _ legal kind below => exact .compound k others legal kind below

theorem of_operands {operands : List Value} (layer : Layer (.expression n operands :: rest))
    (k : Nat) (others : List Value) : Layer (.expression k others :: rest) := by
  cases layer with
  | expression _ _ below => exact .expression k others below

end Layer

/-- Nothing, or an expression that lacks a value. -/
inductive Waiting : List Work → Prop where
  | idle : Waiting []
  | expression (n : Nat) (operands : List Value) (rest : List Work) :
      Waiting (.expression n operands :: rest)

def Frame.Fits (f : Frame) (g : UserFunction) : Prop :=
  f.parameters.size = g.parameters.toNat ∧ f.locals.size = g.locals.toNat

/-- The functions called, the frames, the saved addresses and the work below the innermost call
belong together. -/
inductive Nested (p : Program) : List UserFunction → List Frame → List Nat → List Work → Prop where
  | nobody : Nested p [] [] [] []
  | call {g : UserFunction} {gs : List UserFunction} {f : Frame} {frames : List Frame} {ip : Nat}
      {saved : List Nat} {work below : List Work} : f.base = (work ++ below).length → f.Fits g →
      .user g ∈ p.functions → ip ≤ p.words.size → Layer work → Waiting work →
      Nested p gs frames saved below →
      Nested p (g :: gs) (f :: frames) (ip :: saved) (work ++ below)

variable {p : Program} {gs : List UserFunction} {frames : List Frame} {saved : List Nat}
  {below : List Work}

theorem Nested.of_slots {f f' : Frame} (nested : Nested p gs (f :: frames) saved below)
    (base : f'.base = f.base) (parameters : f'.parameters.size = f.parameters.size)
    (locals : f'.locals.size = f.locals.size) : Nested p gs (f' :: frames) saved below := by
  cases nested with
  | call height fits known at_ lower waits next =>
    exact .call (base.trans height) ⟨parameters.trans fits.1, locals.trans fits.2⟩ known at_ lower
      waits next

def Machine.heightOf : List Frame → Nat
  | [] => 0
  | f :: _ => f.base

theorem Nested.height (nested : Nested p gs frames saved below) :
    Machine.heightOf frames = below.length := by
  cases nested with
  | nobody => rfl
  | call height _ _ _ _ _ _ => exact height

namespace Machine

variable {World : Type} {host : Host World} {p : Program} {gs : List UserFunction}
  {m m' : Machine World} {work below : List Work} {α : Type} {Q : Machine World → Prop}
  {r : EStateM.Result Fault (Machine World) α}

structure Layered (p : Program) (gs : List UserFunction) (m : Machine World)
    (work below : List Work) : Prop where
  working : m.work = work ++ below
  layer : Layer work
  callers : Nested p gs m.frames m.cursor.saved below
  inside : m.cursor.ip ≤ p.words.size
  depth : m.frames.length ≤ maxDepth

def Intact (p : Program) (gs : List UserFunction) (m : Machine World) : Prop :=
  ∃ work below, Layered p gs m work below

/-- Faults that are not the machine's own: an address is saved for every return, and an opcode
is refused where it stands, never behind that. -/
def Fault.Regular (f : Fault) : Prop :=
  f ≠ .decode .nothingSaved ∧
    ∀ op ip position, f = .unexpectedOpcode op ip position →
      position = .statement ∨ position = .expression

/-- What holds when an action has ended, in whatever way. -/
def After {α : Type} (Q : Machine World → Prop) : EStateM.Result Fault (Machine World) α → Prop :=
  Leaves Q fun f m => Q m ∧ f.Regular

def ending {α : Type} : EStateM.Result Fault (Machine World) α → Machine World
  | .ok _ m => m
  | .error _ m => m

theorem leaves_iff : Leaves Q (fun _ => Q) r ↔ Q (ending r) := by
  cases r <;> exact Iff.rfl

theorem After.ending (after : After Q r) : Q (ending r) := by
  cases r with
  | ok a m => exact after
  | error f m => exact after.1

def fault? {α : Type} : EStateM.Result Fault (Machine World) α → Option Fault
  | .ok _ _ => none
  | .error f _ => some f

theorem After.regular (after : After Q r) : ∀ f ∈ fault? r, f.Regular := by
  cases r with
  | ok a m => simp [fault?]
  | error f m =>
    rintro _ ⟨⟩
    exact after.2

theorem After.of_ending (regular : ∀ f ∈ fault? r, f.Regular) (known : Q (Machine.ending r)) :
    After Q r := by
  cases r with
  | ok a m => exact known
  | error f m => exact ⟨known, regular f rfl⟩

theorem base_eq (m : Machine World) : m.base = heightOf m.frames := by
  unfold base heightOf
  cases m.frames <;> rfl

theorem boundary_iff (working : m.work = work ++ below) (height : m.base = below.length) :
    m.atBoundary = true ↔ work = [] := by
  rw [atBoundary, decide_eq_true_iff, height, working, List.length_append]
  constructor
  · intro height
    exact List.eq_nil_of_length_eq_zero (by omega)
  · rintro rfl
    simp

theorem complete_callee {i : Instruction} {place : Nat} {wanted : Bool}
    (calls : i.callee? = some (place, wanted)) (values : List Value) :
    complete host p i values = call host p place values.reverse wanted := by
  unfold Instruction.callee? at calls
  split at calls <;> cases calls <;> rfl

theorem complete_return {i : Instruction} (returns : i.op = .returnValue) (values : List Value) :
    complete host p i values = leave host (values.headD .zero) := by
  obtain ⟨op, ip, operand, k⟩ := i
  obtain rfl : op = .returnValue := returns
  rfl

/-- An instruction whose operand does not suit its opcode is refused where it is completed. -/
theorem complete_illegal {i : Instruction} (illegal : ¬i.Legal) (values : List Value) :
    complete host p i values = throw (.unexpectedOpcode i.op i.ip .here) := by
  unfold complete
  split
  all_goals first | exact absurd (by constructor) illegal | rfl

def callsBehind (p : Program) (depth : Nat) (gs : List UserFunction) (i : Instruction) :
    List UserFunction :=
  match i.callee? with
  | some (place, _) =>
    match p.functions[place]? with
    | some (.user g) => if depth < maxDepth then g :: gs else gs
    | _ => gs
  | none =>
    match i.op with
    | .returnValue => gs.tail
    | _ => gs

/-- The functions whose calls are active behind the next unit of work. -/
def callsAfter (p : Program) (gs : List UserFunction) (m : Machine World) : List UserFunction :=
  match m.work with
  | .instruction i 0 _ :: _ => callsBehind p m.frames.length gs i
  | _ => gs

end Machine

end Scriptlet
