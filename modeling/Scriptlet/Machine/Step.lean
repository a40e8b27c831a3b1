import Scriptlet.Machine.Basic
import Scriptlet.Value.Element

/-!
Running a program statement by statement. A step executes one statement, up to a call of a
function of the program or a return from one; a suspended statement goes on in a later step.
-/
namespace Scriptlet.Machine

variable {World : Type}

def base (m : Machine World) : Nat :=
  match m.frames with
  | [] => 0
  | f :: _ => f.base

def atBoundary (m : Machine World) : Bool := decide (m.work.length ≤ m.base)

def read {α : Type} (reading : Cursor.Reading α) : Action World α := fun m =>
  match reading m.cursor with
  | .ok a cursor => .ok a { m with cursor }
  | .error e cursor => .error (.decode e) { m with cursor }

def push (w : Work) : Action World Unit := modify fun m => { m with work := w :: m.work }

def deliver (v : Value) : Action World Unit := modify fun m =>
  match m.work with
  | .instruction i remaining values :: rest =>
    { m with work := .instruction i remaining (v :: values) :: rest }
  | .expression remaining operands :: rest =>
    { m with work := .expression remaining (v :: operands) :: rest }
  | [] => m

def takeOperand (ip : Nat) : Action World Value := do
  let m ← get
  match m.work with
  | .expression remaining (v :: operands) :: rest =>
    set { m with work := .expression remaining operands :: rest }
    return v
  | _ => throw (.stackUnderflow ip)

def putOperand (ip : Nat) (v : Value) : Action World Unit := do
  let m ← get
  match m.work with
  | .expression remaining operands :: rest =>
    set { m with work := .expression remaining (v :: operands) :: rest }
  | _ => throw (.stackUnderflow ip)

def frame : Action World Frame := do
  match (← get).frames with
  | f :: _ => return f
  | [] => throw .noFrame

def slots (scope : VariableScope) : Action World (Array Value) := do
  match scope with
  | .globals => return (← get).globals
  | .locals => return (← frame).locals
  | .parameters => return (← frame).parameters

def load (a : Address) : Action World Value := do
  match (← slots a.scope)[a.index.toNat]? with
  | some v => return v
  | none => throw (.invalidVariable a)

def setSlot (m : Machine World) (a : Address) (v : Value) : Machine World :=
  let i := a.index.toNat
  match a.scope, m.frames with
  | .globals, _ => { m with globals := m.globals.setIfInBounds i v }
  | .locals, f :: rest =>
    { m with frames := { f with locals := f.locals.setIfInBounds i v } :: rest }
  | .parameters, f :: rest =>
    { m with frames := { f with parameters := f.parameters.setIfInBounds i v } :: rest }
  | _, [] => m

def store (a : Address) (v : Value) : Action World Unit := do
  let _ ← load a
  modify (·.setSlot a v)

variable (host : Host World) (program : Program)

def start : Action World Unit := modify fun m =>
  if m.started then m else { m with started := true, world := host.onStart m.world }

def halt : Action World Unit := modify fun m =>
  { m with halted := true, world := host.onEnd m.world }

/-- Enters a function. Its frame is there even if its code is not. -/
def enter (f : UserFunction) (arguments : List Value) : Action World Unit := do
  if maxDepth ≤ (← get).frames.length then throw .callDepthExceeded
  modify fun m =>
    { m with
      frames := Frame.ofCall f arguments m.work.length :: m.frames
      cursor := m.cursor.save }
  read (.of (Cursor.jump program.words f.ip.toNat))

/-- Leaves a function, or ends the program if none is active. The value goes to the
expression that called, or becomes the result if the call was a statement. -/
def leave (v : Value) : Action World Unit := do
  match (← get).frames with
  | [] => halt host
  | _ :: rest =>
    modify fun m => { m with frames := rest }
    read (.of Cursor.restore)
    if (← get).atBoundary then modify fun m => { m with result := v } else deliver v

def ask (name : String) (arguments : List Value) : Action World Value := do
  let m ← get
  let (answer, world) := host.call name arguments m.world
  set { m with world }
  match answer with
  | .ok v => return v
  | .error reason => throw (.host name reason)

def call (place : Nat) (arguments : List Value) (wanted : Bool) : Action World Unit := do
  match program.functions[place]? with
  | none => throw (.invalidFunction place)
  | some (.user f) => enter program f arguments
  | some (.host name _) =>
    let v ← ask host name arguments
    if wanted then deliver v
  | some (.native f) => if wanted then deliver (f.apply arguments)

def indexOf (v : Value) : Int := v.toInteger.toInt

def complete (i : Instruction) (values : List Value) : Action World Unit := do
  match i with
  | ⟨.nop, _, _, _⟩ => pure ()
  | ⟨.callStatement, _, .function place, _⟩ => call host program place values.reverse false
  | ⟨.call, _, .function place, _⟩ => call host program place values.reverse true
  | ⟨.returnValue, _, _, _⟩ => leave host (values.headD .zero)
  | ⟨.jump, _, .address target, _⟩ => read (.of (Cursor.jump program.words target))
  | ⟨.jumpIfFalse, _, .address target, _⟩ =>
    if !(values.headD .zero).isTrue then read (.of (Cursor.jump program.words target))
  | ⟨.assign, _, .slot a, _⟩ => store a (values.headD .zero)
  | ⟨.assignElement, _, .slot a, _⟩ | ⟨.assignPath, _, .slot a, _⟩ =>
    let old ← load a
    let path := values.tail.reverse.map indexOf
    modify (·.setSlot a (old.setPath path (values.headD .zero)))
  | ⟨.createList, _, _, _⟩ => deliver (.zeros (indexOf (values.headD .zero)).toNat)
  | ⟨.initializeList, _, _, _⟩ => deliver (.list values.reverse)
  | ⟨.element, _, .slot a, _⟩ | ⟨.elementPath, _, .slot a, _⟩ =>
    let v ← load a
    deliver (v.getPath (values.reverse.map indexOf))
  | ⟨op, ip, _, _⟩ => throw (.unexpectedOpcode op ip .here)

def await (op : Opcode) (ip : Nat) : Action World Unit := do
  match ← read (Cursor.instruction program.words op ip) with
  | some i => push (.instruction i i.expressions [])
  | none => throw (.unexpectedOpcode op ip .operands)

def opcode : Action World Opcode := read (.of (Cursor.opcode program.words))

def beginStatement : Action World Unit := do
  let ip := (← get).cursor.ip
  let op ← opcode program
  if !op.isStatement then throw (.unexpectedOpcode op ip .statement)
  await program op ip

def token : Action World Unit := do
  let ip := (← get).cursor.ip
  match ← opcode program with
  | .literal =>
    let place ← read (Cursor.number program.words)
    match program.literals[place]? with
    | some v => putOperand ip v
    | none => throw (.invalidLiteral place)
  | .load =>
    let a ← read (.of (Cursor.address program.words))
    putOperand ip (← load a)
  | .binary op =>
    let right ← takeOperand ip
    let left ← takeOperand ip
    putOperand ip (op.apply left right)
  | .unary op =>
    let operand ← takeOperand ip
    putOperand ip (op.apply operand)
  | op =>
    if op.isStatement then throw (.unexpectedOpcode op ip .expression)
    await program op ip

/-- One unit of work: reads a token, opens the next expression of an instruction, or
finishes what waits for nothing more. -/
def advance : Action World Unit := do
  let m ← get
  match m.work with
  | [] => pure ()
  | .expression 0 operands :: rest =>
    set { m with work := rest }
    deliver (operands.headD .zero)
  | .expression (n + 1) operands :: rest =>
    set { m with work := .expression n operands :: rest }
    token program
  | .instruction i 0 values :: rest =>
    set { m with work := rest }
    complete host program i values
  | .instruction i (n + 1) values :: rest =>
    set { m with work := .instruction i n values :: rest }
    let count ← read (Cursor.number program.words)
    push (.expression count [])

def workOff (depth : Nat) : Nat → Action World Unit
  | 0 => pure ()
  | n + 1 => do
    let m ← get
    if !m.halted && m.frames.length == depth && !m.atBoundary then
      advance host program
      workOff depth n

/-- Each unit of work reads a word and adds at most one item of work, or removes an item. So
a statement is done within this many units. -/
def workLeft (m : Machine World) : Nat :=
  2 * (program.words.size - m.cursor.ip) + m.work.length

def step : Action World Bool := do
  if (← get).halted then return false
  start host
  if (← get).atBoundary then
    if (← get).cursor.atEnd program.words then
      halt host
      return false
    beginStatement program
  let m ← get
  workOff host program m.frames.length (m.workLeft program)
  return !(← get).halted

def runFor : Nat → Action World (Option Value)
  | 0 => return none
  | n + 1 => do
    if ← step host program then runFor n else return some (← get).result

end Scriptlet.Machine
