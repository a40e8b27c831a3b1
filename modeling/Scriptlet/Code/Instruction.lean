import Scriptlet.Code.Cursor

/-!
Instructions: opcodes together with the words that belong to them. The expressions that an
instruction needs follow it in the code; an instruction knows only how many there are. The
other opcodes, those of literals, variables and operators, are parts of an expression that
need no expressions of their own.
-/
namespace Scriptlet

inductive Operand where
  | none
  | address (target : Nat)
  | function (place : Nat)
  | slot (a : Address)
  deriving DecidableEq, Repr

/-- An instruction found at an address, with the number of expressions that follow. -/
structure Instruction where
  op : Opcode
  ip : Nat
  operand : Operand
  expressions : Nat
  deriving DecidableEq, Repr

def Opcode.isStatement : Opcode → Bool
  | .nop | .callStatement | .returnValue | .jump | .jumpIfFalse => true
  | .assign | .assignElement | .assignPath => true
  | _ => false

namespace Cursor

abbrev Reading := EStateM DecodeError Cursor

def Reading.of {α : Type} (read : Cursor → Read α) : Reading α := fun c =>
  match read c with
  | (.ok a, next) => .ok a next
  | (.error e, next) => .error e next

variable (words : Array UInt32)

def number : Reading Nat := do
  return (← Reading.of (word words)).toNat

def instruction (op : Opcode) (ip : Nat) : Reading (Option Instruction) := do
  match op with
  | .nop => return some ⟨op, ip, .none, 0⟩
  | .callStatement | .call =>
    let place ← number words
    return some ⟨op, ip, .function place, ← number words⟩
  | .returnValue | .createList => return some ⟨op, ip, .none, 1⟩
  | .jump => return some ⟨op, ip, .address (← number words), 0⟩
  | .jumpIfFalse => return some ⟨op, ip, .address (← number words), 1⟩
  | .assign | .element => return some ⟨op, ip, .slot (← Reading.of (address words)), 1⟩
  | .assignElement => return some ⟨op, ip, .slot (← Reading.of (address words)), 2⟩
  | .assignPath =>
    let slot ← Reading.of (address words)
    return some ⟨op, ip, .slot slot, (← number words) + 1⟩
  | .initializeList => return some ⟨op, ip, .none, ← number words⟩
  | .elementPath =>
    let slot ← Reading.of (address words)
    return some ⟨op, ip, .slot slot, ← number words⟩
  | .literal | .load | .binary _ | .unary _ => return none

end Cursor

end Scriptlet
