import Scriptlet.Compile.Expression

/-!
Statements. Jumps forward are written with an open operand, which is patched as soon as
the target is reached.
-/
namespace Scriptlet.Compile

def labelStatement (name : Token) : Compile Unit := do
  let ip ← here
  let scope ← currentScope
  let label := scope.label name.lexeme
  if label.ip.isSome then fail (problemAt .duplicateLabel name)
  modifyScope (·.bindLabel name.lexeme ip)
  label.waiting.forM fun operand => patchAddress operand ip

def gotoStatement : Compile Unit := do
  let name ← expect .symbol .expectedSymbol
  let _ ← emit .jump
  let operand ← emitOperand 0
  let scope ← currentScope
  modifyScope (·.useLabel name.lexeme operand name.line)
  match (scope.label name.lexeme).ip with
  | some ip => patchAddress operand ip
  | none => pure ()

def returnStatement : Compile Unit := do
  let _ ← emit .returnValue
  let kind ← peekKind
  if kind = .rightBrace || kind.endsStatement then discard (emitOperand 0) else expression

def bareCall (name : Token) : Compile Unit := do
  let n := (← get).budget
  callOf .callStatement name (bareItemsOrNone n expression)

def symbolStatement (name : Token) : Compile Unit := do
  let n := (← get).budget
  match ← peekKind with
  | .colon =>
    discard nextToken
    labelStatement name
  | .operator (.relation .equal) =>
    discard nextToken
    let address ← assignableAddress name
    emitWith .assign address.pack
    expression
  | .leftBracket =>
    let address ← assignableAddress name
    emitWith .assignPath address.pack
    indexPath n expression
    discard (expect .equal .expectedEquals)
    expression
  | .leftParen =>
    discard nextToken
    callOf .callStatement name (parenthesized n expression)
  | _ => bareCall name

def declareLocal (name : Token) : Compile Address := do
  let scope ← currentScope
  match scope.addLocal name.lexeme with
  | some (address, scope) =>
    setScope scope
    pure address
  | none =>
    report (problemAt .variableAlreadyDefined name)
    match scope.resolve? name.lexeme with
    | some address => pure address
    | none => internalError "declared variable has no slot"

def varStatement : Nat → Compile Unit
  | 0 => outOfBudget
  | n + 1 => do
    let name ← declaredName
    let address ← declareLocal name
    if ← accept .equal then
      emitWith .assign address.pack
      expression
    else if ← accept .leftBracket then
      emitWith .assign address.pack
      counted do
        let _ ← emit .createList
        expression
      discard (expect .rightBracket .expectedRightBracket)
    if ← accept .comma then varStatement n

/-- The statements of a block up to its closing brace. The end of the source is reported
for the innermost open block only. -/
def blockBody (statement : Token → Compile Unit) : Nat → Compile Unit
  | 0 => outOfBudget
  | n + 1 => do
    flush
    let t ← nextPastBreaks
    match t.kind with
    | .rightBrace => pure ()
    | .endOfFile =>
      unget t
      if (← get).unterminated then pure ()
      else
        modify fun s => { s with unterminated := true }
        fail (problemAt .expectedRightBrace t)
    | _ =>
      recover (statement t)
      blockBody statement n

def block (n : Nat) (statement : Token → Compile Unit) : Compile Unit := do
  let t ← nextPastBreaks
  if t.kind = .leftBrace then blockBody statement n else recover (statement t)

def ifStatement (body : Compile Unit) : Compile Unit := do
  let _ ← emit .jumpIfFalse
  let skip ← emitOperand 0
  expression
  body
  let t ← nextPastBreaks
  if t.kind = .keyword .else_ then
    let _ ← emit .jump
    let end_ ← emitOperand 0
    patchAddress skip (← here)
    body
    patchAddress end_ (← here)
  else
    unget t
    patchAddress skip (← here)

def Session.innermost? (s : Session) : Option Loop := s.scope.bind (·.loops.head?)

def addLoopJump (operand : Nat) (leave : Bool) : Compile Unit := do
  match (← get).innermost? with
  | none => internalError "no loop to patch"
  | some _ =>
    modifyScope (·.modifyLoop fun l =>
      if leave then { l with breaks := l.breaks ++ [operand] }
      else { l with continues := l.continues ++ [operand] })

def openLoop : Compile LoopId := do
  let ip ← here
  let scope ← currentScope
  let (id, scope) := scope.openLoop ip
  setScope scope
  pure id

def loopStart : Compile Nat := do
  match (← get).innermost? with
  | some l => pure l.start
  | none => internalError "no open loop"

def closeLoop (id : LoopId) : Compile Unit := do
  match (← get).scope.bind (·.closeLoop id) with
  | none => internalError "loop closed out of order"
  | some (l, scope) =>
    setScope scope
    let end_ ← here
    l.breaks.forM fun operand => patchAddress operand end_
    l.continues.forM fun operand => patchAddress operand l.resume

/-- Compiles a loop from its test on. The loop is closed also if its body fails. -/
def inLoop (body : Nat → Compile Unit) : Compile Unit := do
  let id ← openLoop
  let outcome ← attempt (loopStart >>= body)
  closeLoop id
  settle outcome

def emitLoopTest : Compile Unit := do
  let _ ← emit .jumpIfFalse
  let exit ← emitOperand 0
  addLoopJump exit true

def whileStatement (body : Compile Unit) : Compile Unit :=
  inLoop fun start => do
    emitLoopTest
    expression
    body
    emitWith .jump (UInt32.ofNat start)

def stepValue : Compile Value := do
  if ← accept (.keyword .step) then
    let negative ← accept .minus
    let t ← nextToken
    if t.kind = .integer || t.kind = .float then
      let value := t.literal?.getD .zero
      let value := if negative then UnaryOp.negate.apply value else value
      if value.compare .zero = .eq then fail (problemAt .invalidStepValue t)
      pure value
    else refuse .invalidStepValue t
  else pure (.integer 1)

/-- The loop behind the counter's first value. With a negative step the counter goes down
to the limit. -/
def forRounds (counter : Address) (body : Compile Unit) (start : Nat) : Compile Unit := do
  emitLoopTest
  let test ← counted do
    emitVariable counter
    let _ ← openFormula
    emit (.binary (.relation .lessOrEqual))
  let step ← stepValue
  if step.compare .zero = .lt then
    patchOpcode test (.binary (.relation .greaterOrEqual))
  body
  let resume ← here
  modifyScope (·.modifyLoop fun l => { l with resume })
  let place ← intern step
  emitWith .assign counter.pack
  counted do
    emitVariable counter
    emitWith .literal place
    discard (emit (.binary (.arithmetic .add)))
  emitWith .jump (UInt32.ofNat start)

def forStatement (body : Compile Unit) : Compile Unit := do
  let name ← expect .symbol .expectedSymbol
  let counter ← assignableAddress name
  discard (expect .equal .expectedEquals)
  emitWith .assign counter.pack
  expression
  if ← accept (.keyword .to) then inLoop (forRounds counter body)
  else
    let t ← nextToken
    refuse .expectedTo t

def loopJump (t : Token) (leave : Bool) : Compile Unit := do
  if (← get).scope.any fun scope => !scope.loops.isEmpty then
    let _ ← emit .jump
    let operand ← emitOperand 0
    addLoopJump operand leave
  else
    fail (Diagnostic.error (if leave then .breakWithoutLoop else .continueWithoutLoop) t.line)

def keywordStatement (k : Keyword) (t : Token) (body : Compile Unit) : Compile Unit := do
  match k with
  | .var => varStatement (← get).budget
  | .goto => gotoStatement
  | .return_ => returnStatement
  | .if_ => ifStatement body
  | .while_ => whileStatement body
  | .for_ => forStatement body
  | .break_ => loopJump t true
  | .continue_ => loopJump t false
  | .else_ | .to | .step => fail (problemAt .unexpectedKeyword t)

def statement : Nat → Token → Compile Unit
  | 0, _ => outOfBudget
  | n + 1, t =>
    match t.kind with
    | .keyword k => keywordStatement k t (block n (statement n))
    | .symbol => symbolStatement t
    | .leftBrace => blockBody (statement n) n
    | _ => fail (problemAt .unexpectedToken t)

end Scriptlet.Compile
