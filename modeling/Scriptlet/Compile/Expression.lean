import Scriptlet.Compile.Session

/-!
Expressions. They are written in postfix order, each behind the number of opcodes at its
own level.

From loosest to tightest: `or xor`, `and`, `not`, the comparisons, `&`, `+ -`, `* / %`,
unary `-`, `^`. Chains associate to the left, `^` to the right.

A rule that wrote nothing but one literal says so, and an operator on such operands is
computed at once: the operands are taken back, with the literals they brought, and the
result is written in their place.
-/
namespace Scriptlet.Compile

/-- A rule's code is one literal; `mark` is the size of the pool before it. -/
structure Constant where
  value : Value
  mark : Nat

abbrev Rule := Compile (Option Constant)

def emitLiteral (v : Value) : Compile Constant := do
  let mark := (← get).literals.size
  let place ← intern v
  emitWith .literal place
  pure ⟨v, mark⟩

def takeBack (words mark : Nat) : Compile Unit := do
  words.forM fun _ _ => modifyWriter (·.undo)
  modify fun s => { s with literals := s.literals.take mark }

def foldBinary (op : BinaryOp) (left right : Option Constant) : Rule := do
  match left, right with
  | some a, some b =>
    takeBack 4 a.mark
    some <$> emitLiteral (op.apply a.value b.value)
  | _, _ =>
    let _ ← emit (.binary op)
    pure none

def foldUnary (op : UnaryOp) (operand : Option Constant) : Rule := do
  match operand with
  | some c =>
    takeBack 2 c.mark
    some <$> emitLiteral (op.apply c.value)
  | none =>
    let _ ← emit (.unary op)
    pure none

def isChoice : BinaryOp → Bool
  | .logical .or | .logical .xor => true
  | _ => false

def isConjunction : BinaryOp → Bool
  | .logical .and => true
  | _ => false

def isComparison : BinaryOp → Bool
  | .relation _ => true
  | _ => false

def isJoin : BinaryOp → Bool
  | .concat => true
  | _ => false

def isSum : BinaryOp → Bool
  | .arithmetic .add | .arithmetic .subtract => true
  | _ => false

def isProduct : BinaryOp → Bool
  | .arithmetic .multiply | .arithmetic .divide | .arithmetic .modulus => true
  | _ => false

def chainFrom (level : BinaryOp → Bool) (next : Rule) : Nat → Option Constant → Rule
  | 0, _ => outOfBudget
  | n + 1, left => do
    match ← peekKind with
    | .operator op =>
      if level op then
        discard nextToken
        let right ← next
        let folded ← foldBinary op left right
        chainFrom level next n folded
      else pure left
    | _ => pure left

def chain (n : Nat) (level : BinaryOp → Bool) (next : Rule) : Rule := do
  let left ← next
  chainFrom level next n left

def negations (next : Rule) : Nat → Rule
  | 0 => outOfBudget
  | n + 1 => do
    if ← accept .not then
      let operand ← negations next n
      foldUnary .not operand
    else next

def signed (operand : Rule) : Nat → Rule
  | 0 => outOfBudget
  | n + 1 => do
    if ← accept .minus then
      let operand ← signed operand n
      foldUnary .negate operand
    else
      let base ← operand
      if ← accept .power then
        let exponent ← signed operand n
        foldBinary .power base exponent
      else pure base

def expressionOf (inner : Rule) : Compile Unit := do
  let t ← nextToken
  if t.kind.startsOperand then
    unget t
    counted (discard inner)
  else refuse .expectedExpression t

def itemsUntil (close : Token.Kind) (p : Problem) (item : Compile Unit) : Nat → Nat → Compile Nat
  | 0, _ => outOfBudget
  | n + 1, count => do
    item
    if ← accept close then pure (count + 1)
    else
      discard (expect .comma p)
      itemsUntil close p item n (count + 1)

def itemsOrNone (n : Nat) (close : Token.Kind) (p : Problem) (item : Compile Unit) :
    Compile Nat := do
  if ← accept close then pure 0 else itemsUntil close p item n 0

def bareItems (item : Compile Unit) : Nat → Nat → Compile Nat
  | 0, _ => outOfBudget
  | n + 1, count => do
    item
    if ← accept .comma then bareItems item n (count + 1) else pure (count + 1)

def bareItemsOrNone (n : Nat) (item : Compile Unit) : Compile Nat := do
  if (← peekKind).startsOperand then bareItems item n 0 else pure 0

def indexes (item : Compile Unit) : Nat → Nat → Compile Nat
  | 0, _ => outOfBudget
  | n + 1, count => do
    if ← accept .leftBracket then
      item
      discard (expect .rightBracket .expectedRightBracket)
      indexes item n (count + 1)
    else pure count

def prefixedByCount (rule : Compile Nat) : Compile Nat := do
  let address ← emitOperand 0
  let count ← rule
  patchAddress address count
  pure count

def indexPath (n : Nat) (item : Compile Unit) : Compile Unit :=
  discard (prefixedByCount (indexes item n 0))

def callOf (op : Opcode) (name : Token) (arguments : Compile Nat) : Compile Unit := do
  let place ← functionPlace name.lexeme
  emitWith op (UInt32.ofNat place)
  let count ← prefixedByCount arguments
  checkCall place name count

def parenthesized (n : Nat) (item : Compile Unit) : Compile Nat :=
  itemsOrNone n .rightParen .expectedRightParen item

def listInitializer (n : Nat) (item : Compile Unit) : Compile Unit := do
  let _ ← emit .initializeList
  discard (prefixedByCount (itemsOrNone n .rightBrace .expectedRightBrace item))

def emitVariable (a : Address) : Compile Unit := emitWith .load a.pack

/-- A name is a call, an element or a variable. A name that only a function has is a call
without arguments. -/
def symbolOperand (n : Nat) (item : Compile Unit) (name : Token) : Compile Unit := do
  match ← peekKind with
  | .leftParen =>
    discard nextToken
    callOf .call name (parenthesized n item)
  | .leftBracket =>
    let address ← variableAddress name
    emitWith .elementPath address.pack
    indexPath n item
  | _ =>
    let s ← get
    if (s.lookup? name.lexeme).isNone && s.functions.contains (functionKey name.lexeme) then
      callOf .call name (pure 0)
    else
      let address ← variableAddress name
      emitVariable address

def operand (n : Nat) (inner : Rule) : Rule := do
  let t ← nextToken
  match t.literal? with
  | some v => some <$> emitLiteral v
  | none =>
    match t.kind with
    | .leftParen =>
      let folded ← inner
      discard (expect .rightParen .expectedRightParen)
      pure folded
    | .leftBrace =>
      listInitializer n (expressionOf inner)
      pure none
    | .symbol =>
      symbolOperand n (expressionOf inner) t
      pure none
    | _ => refuse .expectedOperand t

def levels (n : Nat) (inner : Rule) : Rule :=
  let product := chain n isProduct (signed (operand n inner) n)
  let comparison := chain n isComparison (chain n isJoin (chain n isSum product))
  chain n isChoice (chain n isConjunction (negations comparison n))

def formula : Nat → Rule
  | 0 => outOfBudget
  | n + 1 => levels n (formula n)

def openFormula : Rule := do
  let s ← get
  formula s.budget

def expression : Compile Unit := do
  let s ← get
  expressionOf (formula s.budget)

end Scriptlet.Compile
