/-!
Problems found in a source text. Each has a numbered kind, the line it belongs to and a
message; the message is the kind's description, with the token or the detail that it is
about behind it.
-/
namespace Scriptlet

inductive Severity where
  | error
  | fatal
  deriving DecidableEq, Repr

def Severity.label : Severity → String
  | .error => "ERROR"
  | .fatal => "FATAL ERROR"

inductive Problem where
  | noError
  | tooManyErrors
  | internalError
  | codeOutsideFunction
  | duplicateFunctionName
  | duplicateLabel
  | functionNotDefined
  | illegalVar
  | invalidStepValue
  | labelNotDefined
  | mainNotDefined
  | newLineInString
  | variableAlreadyDefined
  | assignToReadOnlyVariable
  | variableNotDefined
  | wrongNumberOfArguments
  | expectedEquals
  | expectedExpression
  | expectedLeftBrace
  | expectedLeftParen
  | expectedLiteral
  | expectedOperand
  | expectedRightBrace
  | expectedRightParen
  | expectedRightBracket
  | expectedSymbol
  | expectedTo
  | breakWithoutLoop
  | continueWithoutLoop
  | unexpectedCharacter
  | unexpectedKeyword
  | unexpectedToken
  deriving DecidableEq, Repr

namespace Problem

def all : List Problem :=
  [.noError, .tooManyErrors, .internalError, .codeOutsideFunction, .duplicateFunctionName,
    .duplicateLabel, .functionNotDefined, .illegalVar, .invalidStepValue, .labelNotDefined,
    .mainNotDefined, .newLineInString, .variableAlreadyDefined, .assignToReadOnlyVariable,
    .variableNotDefined, .wrongNumberOfArguments, .expectedEquals, .expectedExpression,
    .expectedLeftBrace, .expectedLeftParen, .expectedLiteral, .expectedOperand,
    .expectedRightBrace, .expectedRightParen, .expectedRightBracket, .expectedSymbol,
    .expectedTo, .breakWithoutLoop, .continueWithoutLoop, .unexpectedCharacter,
    .unexpectedKeyword, .unexpectedToken]

def number (p : Problem) : Nat := all.idxOf p

def ofNumber? (n : Nat) : Option Problem := all[n]?

def id (p : Problem) : String :=
  let digits := Nat.toDigits 10 p.number
  "E" ++ String.ofList (List.replicate (3 - digits.length) '0' ++ digits)

def description : Problem → String
  | .noError => "Operation completed successfully"
  | .tooManyErrors => "Too many errors encountered"
  | .internalError => "Internal error"
  | .codeOutsideFunction => "Code is not allowed outside of functions"
  | .duplicateFunctionName => "More than one function defined with the same name"
  | .duplicateLabel => "Label defined more than once"
  | .functionNotDefined => "Function was not defined"
  | .illegalVar =>
    "The VAR keyword can only appear within a function, or before the first function"
  | .invalidStepValue => "STEP value must be a non-zero numeric literal"
  | .labelNotDefined => "Label was referenced but never defined"
  | .mainNotDefined =>
    "Function main() was not defined : You must define main() as the program's starting point"
  | .newLineInString => "New line in string literal"
  | .variableAlreadyDefined => "Variable has already been defined"
  | .assignToReadOnlyVariable => "Cannot change read-only variable"
  | .variableNotDefined => "Use of undefined variable"
  | .wrongNumberOfArguments => "Wrong number of arguments"
  | .expectedEquals => "Expected equal sign \"=\""
  | .expectedExpression => "An expression was expected"
  | .expectedLeftBrace => "Expected opening curly brace \"\x7b\""
  | .expectedLeftParen => "Opening parenthesis expected \"(\""
  | .expectedLiteral => "Expected literal value"
  | .expectedOperand => "Operand expected"
  | .expectedRightBrace => "Closing curly brace \"\x7d\" expected"
  | .expectedRightParen => "Closing parenthesis \")\" expected"
  | .expectedRightBracket => "Closing square bracket \"]\" expected"
  | .expectedSymbol => "Identifier name expected"
  | .expectedTo => "Expected TO keyword"
  | .breakWithoutLoop => "Break statement outside of loop"
  | .continueWithoutLoop => "Continue statement outside of loop"
  | .unexpectedCharacter => "Unexpected character encountered"
  | .unexpectedKeyword => "Keyword is unexpected here"
  | .unexpectedToken => "Unexpected token encountered"

end Problem

structure Diagnostic where
  severity : Severity
  problem : Problem
  message : String
  line : UInt32
  notes : List String
  suggestion : Option String
  deriving DecidableEq, Repr

namespace Diagnostic

def error (problem : Problem) (line : UInt32) : Diagnostic :=
  ⟨.error, problem, problem.description, line, [], none⟩

def fatal (problem : Problem) (line : UInt32) : Diagnostic :=
  ⟨.fatal, problem, problem.description, line, [], none⟩

def withDetail (d : Diagnostic) (detail : String) : Diagnostic :=
  { d with message := d.message ++ " : " ++ detail }

def withToken (d : Diagnostic) (token : String) : Diagnostic :=
  d.withDetail ("\"" ++ token ++ "\"")

def withNote (d : Diagnostic) (note : String) : Diagnostic :=
  { d with notes := d.notes ++ [note] }

def withSuggestion (d : Diagnostic) (suggestion : String) : Diagnostic :=
  { d with suggestion := some suggestion }

def isFatal (d : Diagnostic) : Bool := d.severity == .fatal

def display (d : Diagnostic) : String :=
  let label := d.severity.label
  let id := d.problem.id
  let message := d.message
  let line := d.line
  s!"{label} {id} : {message} (Line {line})"

end Diagnostic

end Scriptlet
