import Scriptlet.Value.Operator

/-!
The instruction set. An opcode is stored as a number, and the numbers never change,
because saved programs hold them.
-/
namespace Scriptlet

inductive Opcode where
  | nop
  | callStatement
  | returnValue
  | jump
  | assign
  | assignElement
  | jumpIfFalse
  | assignPath
  | literal
  | load
  | createList
  | initializeList
  | element
  | call
  | elementPath
  | binary (op : BinaryOp)
  | unary (op : UnaryOp)
  deriving DecidableEq, Repr

namespace Opcode

def code : Opcode → Nat
  | .nop => 0
  | .callStatement => 1
  | .returnValue => 2
  | .jump => 3
  | .assign => 4
  | .assignElement => 5
  | .jumpIfFalse => 6
  | .literal => 7
  | .load => 8
  | .createList => 9
  | .initializeList => 10
  | .element => 11
  | .call => 12
  | .binary (.arithmetic .add) => 13
  | .binary (.arithmetic .subtract) => 14
  | .binary (.arithmetic .multiply) => 15
  | .binary (.arithmetic .divide) => 16
  | .binary .power => 17
  | .binary (.arithmetic .modulus) => 18
  | .binary .concat => 19
  | .unary .negate => 20
  | .binary (.logical .and) => 21
  | .binary (.logical .or) => 22
  | .binary (.logical .xor) => 23
  | .unary .not => 24
  | .binary (.relation .equal) => 25
  | .binary (.relation .notEqual) => 26
  | .binary (.relation .greater) => 27
  | .binary (.relation .greaterOrEqual) => 28
  | .binary (.relation .less) => 29
  | .binary (.relation .lessOrEqual) => 30
  | .assignPath => 31
  | .elementPath => 32

/-- All opcodes, each at the place of its number. -/
def all : List Opcode :=
  [.nop, .callStatement, .returnValue, .jump, .assign, .assignElement, .jumpIfFalse, .literal,
    .load, .createList, .initializeList, .element, .call,
    .binary (.arithmetic .add), .binary (.arithmetic .subtract), .binary (.arithmetic .multiply),
    .binary (.arithmetic .divide), .binary .power, .binary (.arithmetic .modulus),
    .binary .concat, .unary .negate, .binary (.logical .and), .binary (.logical .or),
    .binary (.logical .xor), .unary .not, .binary (.relation .equal),
    .binary (.relation .notEqual), .binary (.relation .greater),
    .binary (.relation .greaterOrEqual), .binary (.relation .less),
    .binary (.relation .lessOrEqual), .assignPath, .elementPath]

def ofCode? (n : Nat) : Option Opcode := all[n]?

theorem ofCode?_code (op : Opcode) : ofCode? op.code = some op := by
  cases op with
  | binary op => cases op with
    | arithmetic op => cases op <;> rfl
    | logical c => cases c <;> rfl
    | relation r => cases r <;> rfl
    | _ => rfl
  | unary op => cases op <;> rfl
  | _ => rfl

def word (op : Opcode) : UInt32 := UInt32.ofNat op.code

def ofWord? (w : UInt32) : Option Opcode := ofCode? w.toNat

def name : Opcode → String
  | .nop => "Nop"
  | .callStatement => "ExecFunction"
  | .returnValue => "Return"
  | .jump => "Jump"
  | .assign => "Assign"
  | .assignElement => "AssignListVariable"
  | .jumpIfFalse => "JumpIfFalse"
  | .literal => "EvalLiteral"
  | .load => "EvalVariable"
  | .createList => "EvalCreateList"
  | .initializeList => "EvalInitializeList"
  | .element => "EvalListVariable"
  | .call => "EvalFunction"
  | .binary (.arithmetic .add) => "EvalAdd"
  | .binary (.arithmetic .subtract) => "EvalSubtract"
  | .binary (.arithmetic .multiply) => "EvalMultiply"
  | .binary (.arithmetic .divide) => "EvalDivide"
  | .binary .power => "EvalPower"
  | .binary (.arithmetic .modulus) => "EvalModulus"
  | .binary .concat => "EvalConcat"
  | .unary .negate => "EvalNegate"
  | .binary (.logical .and) => "EvalAnd"
  | .binary (.logical .or) => "EvalOr"
  | .binary (.logical .xor) => "EvalXor"
  | .unary .not => "EvalNot"
  | .binary (.relation .equal) => "EvalIsEqual"
  | .binary (.relation .notEqual) => "EvalIsNotEqual"
  | .binary (.relation .greater) => "EvalIsGreaterThan"
  | .binary (.relation .greaterOrEqual) => "EvalIsGreaterThanOrEqual"
  | .binary (.relation .less) => "EvalIsLessThan"
  | .binary (.relation .lessOrEqual) => "EvalIsLessThanOrEqual"
  | .assignPath => "AssignListVariableMulti"
  | .elementPath => "EvalListVariableMulti"

def ofName? (s : String) : Option Opcode := all.find? (·.name == s)

end Opcode

end Scriptlet
