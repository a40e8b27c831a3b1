import Scriptlet.Compile.Statement
import Scriptlet.Options.Basic

/-!
Compiling a source: variables of the program first, then its functions. The code starts
with a call of the entry function, whose place is filled in at the end.
-/
namespace Scriptlet.Compile

def literalValue : Compile Value := do
  let negative ← accept .minus
  let t ← nextToken
  match t.literal? with
  | some v =>
    if !negative then pure v
    else if t.kind = .string then refuse .expectedLiteral t
    else pure (UnaryOp.negate.apply v)
  | none => refuse .expectedLiteral t

def literalItems : Nat → List Value → Compile Value
  | 0, _ => outOfBudget
  | n + 1, items => do
    let v ← literalValue
    let items := items ++ [v]
    if ← accept .rightBrace then pure (.list items)
    else
      discard (expect .comma .expectedRightBrace)
      literalItems n items

def literalInitializer : Compile Value := do
  if ← accept .leftBrace then
    if ← accept .rightBrace then pure (.list [])
    else literalItems (← get).budget []
  else literalValue

def headerValue : Compile Value := do
  if ← accept .equal then literalInitializer
  else if ← accept .leftBracket then
    let size ← expect .integer .expectedLiteral
    discard (expect .rightBracket .expectedRightBracket)
    pure (.zeros ((size.literal?.getD .zero).toInteger.toInt.toNat))
  else pure .zero

def headerVariables : Nat → Compile Unit
  | 0 => outOfBudget
  | n + 1 => do
    let name ← declaredName
    let value ← headerValue
    if (← get).globals.contains name.lexeme then
      report (problemAt .variableAlreadyDefined name)
    else
      modify fun s => { s with globals := s.globals ++ [(name.lexeme, ⟨value, false⟩)] }
    if ← accept .comma then headerVariables n

/-- Takes a place in the function table for a definition. There is none if the name is
already defined or offered. -/
def declareFunction (name : String) : Compile (Option Nat) := do
  let place ← functionPlace name
  match (← get).functions.entries[place]? with
  | some (.pending _) =>
    modify fun s => { s with functions := s.functions.modifyAt place fun _ => .pending name }
    pure (some place)
  | _ => pure none

def parameter (scope : Scope) (name : Token) : Compile Scope := do
  match scope.addParameter name.lexeme with
  | some (_, scope) => pure scope
  | none =>
    report (problemAt .variableAlreadyDefined name)
    pure scope

def parameters : Nat → Scope → Compile Scope
  | 0, _ => outOfBudget
  | n + 1, scope => do
    let name ← declaredName
    let scope ← parameter scope name
    if ← accept .rightParen then pure scope
    else
      discard (expect .comma .expectedRightParen)
      parameters n scope

def parameterList (scope : Scope) : Compile Scope := do
  discard (expect .leftParen .expectedLeftParen)
  if ← accept .rightParen then pure scope else parameters (← get).budget scope

def functionBody : Compile Unit := do
  let t ← nextPastBreaks
  if t.kind = .leftBrace then
    let n := (← get).budget
    blockBody (statement n) n
  else refuse .expectedLeftBrace t

def endFunction (scope : Scope) : Compile Unit := do
  let _ ← emit .returnValue
  let _ ← emitOperand 0
  scope.unboundLabels.forM fun (name, line) =>
    report ((Diagnostic.error .labelNotDefined line).withToken name)
  match scope.place with
  | none => pure ()
  | some place =>
    modify fun s =>
      { s with functions := s.functions.modifyAt place fun
        | .pending name =>
          .user ⟨name, UInt32.ofNat scope.ip, UInt32.ofNat scope.locals.length,
            UInt32.ofNat scope.parameters.length⟩
        | callee => callee }

def takeFunction : Compile (Option Scope) :=
  modifyGet fun s => (s.scope, { s with scope := none })

def endCurrent : Compile Unit := do
  match ← takeFunction with
  | some scope => endFunction scope
  | none => internalError "function record lost"

/-- A function is ended also if its body fails. Then the failure of the body counts. -/
def functionDefinition (name : Token) : Compile Unit := do
  modify fun s => { s with inHeader := false }
  let place ← declareFunction name.lexeme
  if place.isNone then report (problemAt .duplicateFunctionName name)
  let scope ← parameterList (Scope.start name.lexeme place (← here))
  setScope scope
  let body ← attempt functionBody
  let ending ← attempt endCurrent
  settle body
  settle ending

def topLevelItem (t : Token) : Compile Unit := do
  let s ← get
  match t.kind with
  | .symbol =>
    if (← peekKind) = .leftParen then functionDefinition t
    else fail (problemAt .codeOutsideFunction t)
  | .keyword .var =>
    if s.inHeader then headerVariables s.budget
    else
      fail ((Diagnostic.error .illegalVar t.line).withNote
        "global variables must be declared before the first function")
  | _ => fail (problemAt .codeOutsideFunction t)

def topLevel : Nat → Compile Unit
  | 0 => outOfBudget
  | n + 1 => do
    flush
    let t ← nextPastBreaks
    if t.kind = .endOfFile then pure ()
    else
      recover (topLevelItem t)
      topLevel n

/-- Checks one call of a function of the program. A function that was never defined is
reported at its first call only; `missing` are those already reported. -/
def resolveCall (missing : List Nat) (call : CallSite) : Compile (List Nat) := do
  match (← get).functions.entries[call.place]? with
  | some (.pending _) =>
    if missing.contains call.place then pure missing
    else
      report ((Diagnostic.error .functionNotDefined call.line).withToken call.name)
      pure (call.place :: missing)
  | some (.user f) =>
    match (Arity.exactly f.parameters.toNat).violation? call.arguments with
    | none => pure missing
    | some v =>
      report ((Diagnostic.error .wrongNumberOfArguments call.line).withDetail (v.message f.name))
      pure missing
  | _ => pure missing

def resolveCalls : Compile Unit := do
  let calls := (← get).calls
  discard (calls.toList.foldlM resolveCall [])

def mainOperand : Nat := 1

def resolveMain : Compile Unit := do
  let s ← get
  match s.functions.place? "Main", s.functions.find? "Main" with
  | some place, some (.user _) => patchAddress mainOperand place
  | _, _ => report (Diagnostic.error .mainNotDefined s.tokens.line)

def sourceRule : Compile Unit := do
  topLevel (← get).budget
  resolveCalls
  resolveMain
  flush

def prelude : CodeWriter :=
  CodeWriter.empty.opcode .callStatement |>.operand 0 |>.operand 0
    |>.opcode .returnValue |>.operand 0

def Session.start (registry : Registry) (maxErrors : Nat) (source : String) : Session where
  tokens := .ofSource source
  writer := prelude
  functions := registry.functions.map fun (name, f) => (name, .offered f)
  globals := registry.constants.map fun (name, v) => (name, ⟨v, true⟩)
  literals := #[]
  scope := none
  inHeader := true
  calls := #[]
  errors := #[]
  maxErrors
  unterminated := false
  budget := source.length + 2

def Session.program (s : Session) (lineNumbers : Bool) : Program where
  words := s.writer.words
  functions := (s.functions.entries.map Callee.toFunction).toArray
  globals := (s.globals.entries.map Global.value).toArray
  literals := s.literals
  lines := if lineNumbers then some s.writer.lines else none

def finalSession (registry : Registry) (maxErrors : Nat) (source : String) : Session :=
  match sourceRule (Session.start registry maxErrors source) with
  | .ok () s => s
  | .error .abort s => s
  | .error (.error d) s => { s with errors := s.errors.push d }

def compile (host : Registry) (options : Options) (source : String) :
    Except (List Diagnostic) Program :=
  let s := finalSession (options.registry host) options.maxErrors source
  if s.errors.isEmpty then .ok (s.program options.lineNumbers) else .error s.errors.toList

end Scriptlet.Compile
