import Scriptlet.Code.Writer
import Scriptlet.Compile.Scope
import Scriptlet.Program.Basic
import Scriptlet.Registry
import Scriptlet.Token.Stream

/-!
The state of a compilation and the basic steps on it. The source is compiled in one
pass: a rule reads tokens, checks them and writes code as it goes.

A rule that fails carries a diagnostic up to the statement around it, where it is
reported and the rest of the line is skipped. Reporting can end the compilation, when
there are too many errors.

The loops of the rules run on a budget. It starts at more than the length of the source,
and every round of a loop takes a token, so it is never spent.
-/
namespace Scriptlet.Compile

inductive Callee where
  | pending (name : String)
  | user (f : UserFunction)
  | offered (f : Function)

namespace Callee

def nowhere : UInt32 := 0xFFFFFFFF

def toFunction : Callee → Function
  | .pending name => .user ⟨name, nowhere, 0, 0⟩
  | .user f => .user f
  | .offered f => f

end Callee

structure Global where
  value : Value
  readOnly : Bool

/-- A call of a function of the program, checked when all definitions are known. -/
structure CallSite where
  place : Nat
  name : String
  arguments : Nat
  line : UInt32
  deriving DecidableEq, Repr

structure Session where
  tokens : TokenStream
  writer : CodeWriter
  functions : NameTable Callee
  globals : NameTable Global
  literals : Array Value
  scope : Option Scope
  inHeader : Bool
  calls : Array CallSite
  errors : Array Diagnostic
  maxErrors : Nat
  unterminated : Bool
  budget : Nat

inductive Stop where
  | error (d : Diagnostic)
  | abort
  deriving DecidableEq, Repr

end Compile

abbrev Compile (α : Type) : Type := EStateM Compile.Stop Compile.Session α

namespace Compile

def fail {α : Type} (d : Diagnostic) : Compile α := throw (.error d)

def attempt {α : Type} (rule : Compile α) : Compile (Except Stop α) := fun s =>
  match rule s with
  | .ok a s => .ok (.ok a) s
  | .error stop s => .ok (.error stop) s

def settle {α : Type} : Except Stop α → Compile α
  | .ok a => pure a
  | .error stop => throw stop

def internalError {α : Type} (detail : String) : Compile α := do
  fail ((Diagnostic.fatal .internalError (← get).tokens.line).withDetail detail)

def outOfBudget {α : Type} : Compile α := internalError "budget spent"

def pushError (d : Diagnostic) : Compile Unit :=
  modify fun s => { s with errors := s.errors.push d }

/-- Records a diagnostic. A fatal one, or one too many, ends the compilation. -/
def record (d : Diagnostic) : Compile Unit := do
  pushError d
  if d.isFatal then throw .abort
  let s ← get
  if s.maxErrors < s.errors.size then
    pushError (Diagnostic.fatal .tooManyErrors s.tokens.line)
    throw .abort

def flush : Compile Unit := do
  let errors ← modifyGet fun s =>
    let (errors, tokens) := s.tokens.takeErrors
    (errors, { s with tokens })
  errors.toList.forM record

/-- Records a diagnostic behind the lexical problems met before it. -/
def report (d : Diagnostic) : Compile Unit := do
  flush
  record d

def nextToken : Compile Token :=
  modifyGet fun s =>
    let (t, tokens) := s.tokens.next
    (t, { s with tokens, writer := s.writer.setLine t.line })

def nextPastBreaks : Compile Token :=
  modifyGet fun s =>
    let (t, tokens) := s.tokens.nextPastBreaks
    (t, { s with tokens, writer := s.writer.setLine t.line })

def unget (t : Token) : Compile Unit := modify fun s => { s with tokens := s.tokens.unget t }

def peekKind : Compile Token.Kind :=
  modifyGet fun s =>
    let (t, tokens) := s.tokens.peek
    (t.kind, { s with tokens })

def accept (kind : Token.Kind) : Compile Bool := do
  if (← peekKind) = kind then
    let _ ← nextToken
    pure true
  else pure false

def problemAt (p : Problem) (t : Token) : Diagnostic :=
  (Diagnostic.error p t.line).withToken t.lexeme

def refuse {α : Type} (p : Problem) (t : Token) : Compile α := do
  unget t
  fail (problemAt p t)

def expect (kind : Token.Kind) (p : Problem) : Compile Token := do
  let t ← nextToken
  if t.kind = kind then pure t else refuse p t

def reserved (t : Token) : Diagnostic :=
  (problemAt .expectedSymbol t).withNote "\"Main\" is reserved for the entry function"

def declaredName : Compile Token := do
  let t ← expect .symbol .expectedSymbol
  if Token.isMain t.lexeme then fail (reserved t) else pure t

/-- Skips the rest of the line, or up to a brace. Inside a function an opening brace stays
unread, so that the block behind a broken statement is compiled as a block. -/
def skipStatement : Nat → Compile Unit
  | 0 => outOfBudget
  | n + 1 => do
    match ← peekKind with
    | .endOfFile => pure ()
    | .rightBrace => pure ()
    | .endOfLine => discard nextToken
    | .leftBrace =>
      if (← get).scope.isSome then pure ()
      else
        discard nextToken
        skipStatement n
    | _ =>
      discard nextToken
      skipStatement n

def recover (statement : Compile Unit) : Compile Unit := do
  match ← attempt statement with
  | .ok () => pure ()
  | .error .abort => throw .abort
  | .error (.error d) =>
    report d
    skipStatement (← get).budget

def modifyWriter (f : CodeWriter → CodeWriter) : Compile Unit :=
  modify fun s => { s with writer := f s.writer }

def here : Compile Nat := do return (← get).writer.ip

def emit (op : Opcode) : Compile Nat := do
  let ip ← here
  modifyWriter (·.opcode op)
  pure ip

def emitOperand (word : UInt32) : Compile Nat := do
  let ip ← here
  modifyWriter (·.operand word)
  pure ip

def emitWith (op : Opcode) (word : UInt32) : Compile Unit := do
  let _ ← emit op
  let _ ← emitOperand word

def patch (address : Nat) (word : UInt32) : Compile Unit := modifyWriter (·.patch address word)

def patchAddress (address target : Nat) : Compile Unit := patch address (UInt32.ofNat target)

def patchOpcode (address : Nat) (op : Opcode) : Compile Unit :=
  modifyWriter (·.patchOpcode address op)

/-- Runs a rule in a counting scope of its own. The count of its opcodes stands in front
of what it writes. -/
def counted {α : Type} (rule : Compile α) : Compile α := do
  let address ← emitOperand 0
  modifyWriter (·.openScope)
  let outcome ← attempt rule
  let count := (← get).writer.count
  modifyWriter (·.closeScope)
  patchAddress address count
  settle outcome

def intern (v : Value) : Compile UInt32 := do
  match (← get).literals.findIdx? (·.same v) with
  | some i => pure (UInt32.ofNat i)
  | none =>
    modifyGet fun s => (UInt32.ofNat s.literals.size, { s with literals := s.literals.push v })

def modifyScope (f : Scope → Scope) : Compile Unit :=
  modify fun s => { s with scope := s.scope.map f }

def setScope (scope : Scope) : Compile Unit := modify fun s => { s with scope := some scope }

def currentScope : Compile Scope := do
  match (← get).scope with
  | some scope => pure scope
  | none => internalError "statement outside a function"

def Session.lookup? (s : Session) (name : String) : Option Address :=
  match s.scope.bind (·.resolve? name) with
  | some address => some address
  | none => (s.globals.place? name).map (Scope.slot .globals)

/-- The address of a variable. An unknown name becomes a local. -/
def variableAddress (name : Token) : Compile Address := do
  match (← get).lookup? name.lexeme with
  | some address => pure address
  | none =>
    if Token.isMain name.lexeme then fail (reserved name)
    let scope ← currentScope
    match scope.addLocal name.lexeme with
    | some (address, scope) =>
      setScope scope
      pure address
    | none => internalError "local slot vanished"

def assignableAddress (name : Token) : Compile Address := do
  let address ← variableAddress name
  if address.scope = .globals then
    let s ← get
    if (s.globals.entries[address.index.toNat]?).any (·.readOnly) then
      fail (problemAt .assignToReadOnlyVariable name)
  pure address

/-- Every spelling of the entry function is one name. -/
def functionKey (name : String) : String := if Token.isMain name then "Main" else name

def functionPlace (name : String) : Compile Nat := do
  let key := functionKey name
  match (← get).functions.place? key with
  | some place => pure place
  | none =>
    modifyGet fun s =>
      (s.functions.length, { s with functions := s.functions ++ [(key, .pending name)] })

def checkCall (place : Nat) (name : Token) (arguments : Nat) : Compile Unit := do
  match (← get).functions.entries[place]? with
  | some (.offered f) =>
    match (f.arity?.getD .any).violation? arguments with
    | none => pure ()
    | some v =>
      fail ((Diagnostic.error .wrongNumberOfArguments name.line).withDetail (v.message name.lexeme))
  | some _ =>
    modify fun s =>
      { s with calls := s.calls.push ⟨place, name.lexeme, arguments, name.line⟩ }
  | none => internalError "call to unknown function slot"

end Compile

end Scriptlet
