import Scriptlet.Code.Instruction
import Scriptlet.Program.Basic

/-!
The state of a running program. Evaluation that waits for something is kept as work, one
stack for all active calls: an instruction waits for the values of its expressions, an
expression for its remaining tokens. Each frame knows how high the stack was when its call
was entered, so what lies below belongs to its callers.

The state holds a world of the host's own, on which the host's answers act.
-/
namespace Scriptlet

structure Host (World : Type) where
  onStart : World → World
  onEnd : World → World
  call : String → List Value → World → Except String Value × World

namespace Host

def silent : Host Unit := ⟨id, id, fun _ _ w => (.ok .zero, w)⟩

end Host

structure Frame where
  parameters : Array Value
  locals : Array Value
  base : Nat
  deriving Repr

namespace Frame

/-- A frame for a call: arguments that are missing are zero, further ones are dropped. -/
def ofCall (f : UserFunction) (arguments : List Value) (base : Nat) : Frame :=
  let n := f.parameters.toNat
  let given := arguments.take n
  { parameters := (given ++ List.replicate (n - given.length) Value.zero).toArray
    locals := Array.replicate f.locals.toNat .zero
    base }

end Frame

inductive Work where
  /-- Waits for `remaining` further expressions; the values so far, latest first. -/
  | instruction (i : Instruction) (remaining : Nat) (values : List Value)
  /-- Has `remaining` tokens to read; the operands so far, latest first. -/
  | expression (remaining : Nat) (operands : List Value)
  deriving Repr

structure Machine (World : Type) where
  cursor : Cursor
  frames : List Frame
  globals : Array Value
  work : List Work
  result : Value
  started : Bool
  halted : Bool
  world : World

namespace Machine

def init {World : Type} (program : Program) (world : World) : Machine World where
  cursor := .start
  frames := []
  globals := program.globals
  work := []
  result := .zero
  started := false
  halted := false
  world

def maxDepth : Nat := 256

inductive Position where
  | statement
  | operands
  | expression
  | here
  deriving DecidableEq, Repr

def Position.phrase : Position → String
  | .statement => "as a statement"
  | .operands => "with operands"
  | .expression => "in an expression"
  | .here => "here"

inductive Fault where
  | decode (e : DecodeError)
  | invalidFunction (place : Nat)
  | invalidLiteral (place : Nat)
  | invalidVariable (a : Address)
  | noFrame
  | stackUnderflow (ip : Nat)
  | unexpectedOpcode (op : Opcode) (ip : Nat) (position : Position)
  | callDepthExceeded
  | host (name reason : String)
  deriving DecidableEq, Repr

def Fault.message : Fault → String
  | .decode e => e.message
  | .invalidFunction place => s!"function index {place} is out of range"
  | .invalidLiteral place => s!"literal index {place} is out of range"
  | .invalidVariable a =>
    let scope := a.scope.name
    s!"variable VariableAddress \x7b scope: {scope}, index: {a.index} \x7d is out of range"
  | .noFrame => "no active call frame"
  | .stackUnderflow ip => s!"expression stack underflow at {ip}"
  | .unexpectedOpcode op ip position =>
    op.name ++ " cannot appear " ++ position.phrase ++ s!" (ip {ip})"
  | .callDepthExceeded => s!"call depth exceeds {maxDepth}"
  | .host name reason => s!"host function {name} failed: {reason}"

/-- Actions of the machine. A failed action leaves its effects up to the failure. -/
abbrev Action (World : Type) := EStateM Fault (Machine World)

end Machine

end Scriptlet
