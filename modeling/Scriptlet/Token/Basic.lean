import Scriptlet.Value.Operator

/-!
Tokens of the language. Keywords and the operator words are read in any case.
-/
namespace Scriptlet

inductive Keyword where
  | var
  | goto
  | return_
  | if_
  | else_
  | while_
  | for_
  | break_
  | continue_
  | to
  | step
  deriving DecidableEq, Repr

namespace Keyword

def all : List Keyword :=
  [.var, .goto, .return_, .if_, .else_, .while_, .for_, .break_, .continue_, .to, .step]

def name : Keyword → String
  | .var => "Var"
  | .goto => "GoTo"
  | .return_ => "Return"
  | .if_ => "If"
  | .else_ => "Else"
  | .while_ => "While"
  | .for_ => "For"
  | .break_ => "Break"
  | .continue_ => "Continue"
  | .to => "To"
  | .step => "Step"

def ofWord? (word : List Char) : Option Keyword := all.find? fun k => Reading.sameWord word k.name

end Keyword

namespace Token

inductive Kind where
  | endOfFile
  | endOfLine
  | keyword (k : Keyword)
  | symbol
  | string
  | integer
  | float
  | operator (op : BinaryOp)
  | not
  | leftParen
  | rightParen
  | leftBrace
  | rightBrace
  | leftBracket
  | rightBracket
  | comma
  | colon
  deriving DecidableEq, Repr

namespace Kind

abbrev minus : Kind := .operator (.arithmetic .subtract)

abbrev equal : Kind := .operator (.relation .equal)

abbrev power : Kind := .operator .power

def operatorName : BinaryOp → String
  | .arithmetic .add => "Plus"
  | .arithmetic .subtract => "Minus"
  | .arithmetic .multiply => "Multiply"
  | .arithmetic .divide => "Divide"
  | .arithmetic .modulus => "Modulus"
  | .power => "Power"
  | .concat => "Concat"
  | .logical .and => "And"
  | .logical .or => "Or"
  | .logical .xor => "Xor"
  | .relation .equal => "Equal"
  | .relation .notEqual => "NotEqual"
  | .relation .greater => "GreaterThan"
  | .relation .greaterOrEqual => "GreaterThanOrEqual"
  | .relation .less => "LessThan"
  | .relation .lessOrEqual => "LessThanOrEqual"

def name : Kind → String
  | .endOfFile => "EndOfFile"
  | .endOfLine => "EndOfLine"
  | .keyword k => "Keyword(" ++ k.name ++ ")"
  | .symbol => "Symbol"
  | .string => "String"
  | .integer => "Integer"
  | .float => "Float"
  | .operator op => operatorName op
  | .not => "Not"
  | .leftParen => "LeftParen"
  | .rightParen => "RightParen"
  | .leftBrace => "LeftBrace"
  | .rightBrace => "RightBrace"
  | .leftBracket => "LeftBracket"
  | .rightBracket => "RightBracket"
  | .comma => "Comma"
  | .colon => "Colon"

def isLiteral : Kind → Bool
  | .string | .integer | .float => true
  | _ => false

def startsOperand : Kind → Bool
  | .string | .integer | .float | .symbol | .leftParen | .leftBrace | .not => true
  | .operator (.arithmetic .subtract) => true
  | _ => false

def endsStatement : Kind → Bool
  | .endOfLine | .endOfFile => true
  | _ => false

def ofWord (word : List Char) : Kind :=
  if Reading.sameWord word "and" then .operator (.logical .and)
  else if Reading.sameWord word "or" then .operator (.logical .or)
  else if Reading.sameWord word "xor" then .operator (.logical .xor)
  else if Reading.sameWord word "not" then .not
  else
    match Keyword.ofWord? word with
    | some k => .keyword k
    | none => .symbol

end Kind

end Token

/-- `lexeme` is the token's text, for a string its content. -/
structure Token where
  kind : Token.Kind
  lexeme : String
  line : UInt32
  deriving DecidableEq, Repr

namespace Token

def hexDigit? (c : Char) : Option UInt32 :=
  if Reading.isDigit c then some (c.val - '0'.val)
  else if decide ('a' ≤ c) && decide (c ≤ 'f') then some (c.val - 'a'.val + 10)
  else if decide ('A' ≤ c) && decide (c ≤ 'F') then some (c.val - 'A'.val + 10)
  else none

/-- The word wraps around at every digit. -/
def hexLiteral (digits : List Char) : Int32 :=
  ((digits.filterMap hexDigit?).foldl (fun n d => n * 16 + d) 0).toInt32

/-- A decimal literal beyond 32 bits is a floating number. -/
def integerLiteral (cs : List Char) : Atom :=
  match cs with
  | '0' :: 'x' :: digits => .integer (hexLiteral digits)
  | _ =>
    match Reading.int32? cs with
    | some n => .integer n
    | none => .float ((Reading.float? cs).getD Binary64.zero)

def literal? (t : Token) : Option Value :=
  match t.kind with
  | .string => some (.text t.lexeme)
  | .integer => some (.atom (integerLiteral t.lexeme.toList))
  | .float => some (.float ((Reading.float? t.lexeme.toList).getD Binary64.zero))
  | _ => none

def isMain (name : String) : Bool := Reading.sameWord name.toList "main"

end Token

end Scriptlet
