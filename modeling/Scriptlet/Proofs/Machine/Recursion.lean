import Scriptlet.Machine.Step

/-!
Code evaluated by recursion, as one would write it down without a machine. An expression runs its
tokens on operands of its own, a compound token evaluates its expressions in order, and a call
runs the statements of the function in slots of its own until they return.

Evaluation gives nothing where the code makes no sense, where the host fails, and where calls nest
too deep. The only thing that may run on without end is bounded by a number given beforehand: how
deep the expressions of a statement nest and how many statements a body executes.
-/
namespace Scriptlet.Recursion

/-- Where evaluation stands, with the variables in reach. -/
structure State (World : Type) where
  ip : Nat
  parameters : Array Value
  locals : Array Value
  globals : Array Value
  result : Value
  world : World
  asked : List (String × List Value)

abbrev Eval (World : Type) := StateT (State World) Option

variable {World : Type}

def reading {α : Type} (r : Cursor.Reading α) : Eval World α := fun s =>
  match r ⟨s.ip, []⟩ with
  | .ok a c => some (a, { s with ip := c.ip })
  | .error _ _ => none

def State.slots (s : State World) : VariableScope → Array Value
  | .globals => s.globals
  | .locals => s.locals
  | .parameters => s.parameters

def State.setSlot (s : State World) (a : Address) (v : Value) : State World :=
  let i := a.index.toNat
  match a.scope with
  | .globals => { s with globals := s.globals.setIfInBounds i v }
  | .locals => { s with locals := s.locals.setIfInBounds i v }
  | .parameters => { s with parameters := s.parameters.setIfInBounds i v }

def load (a : Address) : Eval World Value := fun s =>
  (s.slots a.scope)[a.index.toNat]?.map (·, s)

def store (a : Address) (v : Value) : Eval World Unit := do
  let _ ← load a
  modify (·.setSlot a v)

variable (host : Host World) (p : Program)

def ask (name : String) (arguments : List Value) : Eval World Value := fun s =>
  match host.call name arguments s.world with
  | (.ok v, world) => some (v, { s with world, asked := s.asked ++ [(name, arguments)] })
  | (.error _, _) => none

def jump (target : Nat) : Eval World Unit := do
  if target ≤ p.words.size then modify ({ · with ip := target }) else failure

abbrev Calls (World : Type) := UserFunction → List Value → Eval World Value

variable (calls : Calls World)

def call (place : Nat) (arguments : List Value) : Eval World Value :=
  match p.functions[place]? with
  | some (.user f) => calls f arguments
  | some (.host name _) => ask host name arguments
  | some (.native f) => pure (f.apply arguments)
  | none => failure

def yield (i : Instruction) (values : List Value) : Eval World Value :=
  match i with
  | ⟨.call, _, .function place, _⟩ => call host p calls place values
  | ⟨.createList, _, _, _⟩ => pure (.zeros (Machine.indexOf (values.getLastD .zero)).toNat)
  | ⟨.initializeList, _, _, _⟩ => pure (.list values)
  | ⟨.element, _, .slot a, _⟩ | ⟨.elementPath, _, .slot a, _⟩ => do
    return (← load a).getPath (values.map Machine.indexOf)
  | _ => failure

/-- One token on the operands so far, latest first. The expressions of a compound token are
evaluated by `inner`. -/
def token (inner : Nat → Eval World (List Value)) (operands : List Value) :
    Eval World (List Value) := do
  let ip := (← get).ip
  match ← reading (.of (Cursor.opcode p.words)) with
  | .literal =>
    let place ← reading (Cursor.number p.words)
    match p.literals[place]? with
    | some v => return v :: operands
    | none => failure
  | .load =>
    let a ← reading (.of (Cursor.address p.words))
    return (← load a) :: operands
  | .binary op =>
    match operands with
    | right :: left :: rest => return op.apply left right :: rest
    | _ => failure
  | .unary op =>
    match operands with
    | operand :: rest => return op.apply operand :: rest
    | _ => failure
  | op =>
    if op.isStatement then failure
    else
      match ← reading (Cursor.instruction p.words op ip) with
      | some i =>
        let values ← inner i.expressions
        return (← yield host p calls i values) :: operands
      | none => failure

def tokens (inner : Nat → Eval World (List Value)) : Nat → List Value → Eval World (List Value)
  | 0, operands => return operands
  | n + 1, operands => do
    let operands ← token host p calls inner operands
    tokens inner n operands

def parts (one : Eval World Value) : Nat → Eval World (List Value)
  | 0 => return []
  | n + 1 => do
    let v ← one
    return v :: (← parts one n)

def expression : (nesting : Nat) → Eval World Value
  | 0 => failure
  | nesting + 1 => do
    let count ← reading (Cursor.number p.words)
    let operands ← tokens host p calls (parts (expression nesting)) count []
    return operands.headD .zero

def execute (i : Instruction) (values : List Value) : Eval World (Option Value) := do
  match i with
  | ⟨.nop, _, _, _⟩ => return none
  | ⟨.callStatement, _, .function place, _⟩ =>
    match p.functions[place]? with
    | some (.user f) =>
      let v ← calls f values
      modify ({ · with result := v })
      return none
    | _ =>
      let _ ← call host p calls place values
      return none
  | ⟨.returnValue, _, _, _⟩ => return some (values.getLastD .zero)
  | ⟨.jump, _, .address target, _⟩ =>
    jump p target
    return none
  | ⟨.jumpIfFalse, _, .address target, _⟩ =>
    if !(values.getLastD .zero).isTrue then jump p target
    return none
  | ⟨.assign, _, .slot a, _⟩ =>
    store a (values.getLastD .zero)
    return none
  | ⟨.assignElement, _, .slot a, _⟩ | ⟨.assignPath, _, .slot a, _⟩ =>
    let old ← load a
    store a (old.setPath (values.dropLast.map Machine.indexOf) (values.getLastD .zero))
    return none
  | _ => failure

def statement (nesting : Nat) : Eval World (Option Value) := do
  let ip := (← get).ip
  let op ← reading (.of (Cursor.opcode p.words))
  if op.isStatement then
    match ← reading (Cursor.instruction p.words op ip) with
    | some i =>
      let values ← parts (expression host p calls nesting) i.expressions
      execute host p calls i values
    | none => failure
  else failure

/-- Statements until one returns. -/
def body (nesting : Nat) : (statements : Nat) → Eval World Value
  | 0 => failure
  | n + 1 => do
    match ← statement host p calls nesting with
    | some v => return v
    | none => body nesting n

/-- The caller finds its place and its variables as they were. -/
def enter (fuel : Nat) : (depth : Nat) → Calls World
  | 0, _, _ => failure
  | depth + 1, f, arguments => fun s => do
    let frame := Frame.ofCall f arguments 0
    if f.ip.toNat ≤ p.words.size then
      let (v, s') ← body host p (enter fuel depth) fuel fuel { s with
        ip := f.ip.toNat, parameters := frame.parameters, locals := frame.locals }
      return (v, { s' with ip := s.ip, parameters := s.parameters, locals := s.locals })
    else failure

def outermost (nesting : Nat) : (statements : Nat) → Eval World Unit
  | 0 => failure
  | n + 1 => do
    if (← get).ip < p.words.size then
      match ← statement host p calls nesting with
      | some _ => return ()
      | none => outermost nesting n

/-- A whole program, if it completes. Its value is the result of the last state. -/
def run (fuel : Nat) (world : World) : Option (State World) := do
  let start : State World := {
    ip := 0, parameters := #[], locals := #[], globals := p.globals, result := .zero
    world := host.onStart world, asked := [] }
  let (_, s) ← outermost host p (enter host p fuel Machine.maxDepth) fuel fuel start
  return { s with world := host.onEnd s.world }

end Scriptlet.Recursion
