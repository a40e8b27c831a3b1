import Scriptlet.Compile.Statement
import Mathlib.Algebra.GroupWithZero.Nat

/-!
Scripts over integers as trees, apart from any text or code. A tree can be evaluated directly,
and it can be written out as a source with no more parentheses than the precedence of its
operators needs.

Evaluation is a recursion over the tree. Only two things are not bounded by the tree: how often
a loop goes round, which is a number given beforehand, and how deep calls go, which is limited.
-/
namespace Scriptlet.Script

inductive Operator where
  | arithmetic (op : Arithmetic)
  | logical (c : Connective)
  | relation (r : Relation)
  deriving DecidableEq, Repr

inductive Expr where
  | literal (n : Fin (2 ^ 31))
  | var (name : String)
  | call (name : String) (arguments : List Expr)
  | binary (op : Operator) (left right : Expr)
  | unary (op : UnaryOp) (operand : Expr)

structure Step where
  size : Int
  nonzero : size ≠ 0
  small : size.natAbs < 2 ^ 31

inductive Stmt where
  | assign (name : String) (value : Expr)
  | call (name : String) (arguments : List Expr)
  | if_ (test : Expr) (yes : List Stmt)
  | ifElse (test : Expr) (yes no : List Stmt)
  | while_ (test : Expr) (body : List Stmt)
  | for_ (counter : String) (first limit : Expr) (step : Step) (body : List Stmt)
  | break_
  | continue_
  | return_
  | returnValue (value : Expr)

structure Definition where
  name : String
  parameters : List String
  body : List Stmt

end Script

structure Script where
  definitions : List Script.Definition

namespace Script

def truth (p : Prop) [Decidable p] : Int32 := if p then -1 else 0

/-- Arithmetic wraps, and what is divided by zero gives zero. -/
def Operator.apply (a b : Int32) : Operator → Int32
  | .arithmetic .add => a + b
  | .arithmetic .subtract => a - b
  | .arithmetic .multiply => a * b
  | .arithmetic .divide => if b = 0 then 0 else a / b
  | .arithmetic .modulus => if b = 0 then 0 else a % b
  | .logical .and => truth (a ≠ 0 ∧ b ≠ 0)
  | .logical .or => truth (a ≠ 0 ∨ b ≠ 0)
  | .logical .xor => truth (¬(a ≠ 0 ↔ b ≠ 0))
  | .relation .equal => truth (a = b)
  | .relation .notEqual => truth (a ≠ b)
  | .relation .greater => truth (b < a)
  | .relation .greaterOrEqual => truth (b ≤ a)
  | .relation .less => truth (a < b)
  | .relation .lessOrEqual => truth (a ≤ b)

def signed (a : Int32) : UnaryOp → Int32
  | .negate => -a
  | .not => truth (a = 0)

abbrev Env := String → Int32

def Env.set (env : Env) (name : String) (v : Int32) : Env :=
  fun other => if other = name then v else env other

/-- Parameters start with the arguments, everything else with zero. -/
def Env.start (parameters : List String) (arguments : List Int32) : Env := fun name =>
  match parameters.idxOf? name with
  | some i => arguments.getD i 0
  | none => 0

abbrev Calls := String → List Int32 → Option Int32

variable (calls : Calls)

mutual

def Expr.eval (env : Env) : Expr → Option Int32
  | .literal n => some (Int32.ofNat n)
  | .var name => some (env name)
  | .call name arguments => (evalAll env arguments).bind (calls name)
  | .binary op left right =>
    (left.eval env).bind fun a => (right.eval env).map fun b => op.apply a b
  | .unary op operand => (operand.eval env).map fun a => signed a op

def evalAll (env : Env) : List Expr → Option (List Int32)
  | [] => some []
  | e :: rest => (e.eval env).bind fun v => (evalAll env rest).map (v :: ·)

end

inductive Flow where
  | onward
  | broken
  | continued
  | returned (v : Int32)
  deriving DecidableEq, Repr

def Flow.value : Flow → Int32
  | .returned v => v
  | _ => 0

def loop (test : Env → Option Bool) (body : Env → Option (Env × Flow)) (next : Env → Env) :
    Nat → Env → Option (Env × Flow)
  | 0, _ => none
  | n + 1, env =>
    (test env).bind fun goes =>
      if goes then
        (body env).bind fun
          | (env, .returned v) => some (env, .returned v)
          | (env, .broken) => some (env, .onward)
          | (env, _) => loop test body next n (next env)
      else some (env, .onward)

theorem loop_succ (test : Env → Option Bool) (body : Env → Option (Env × Flow)) (next : Env → Env)
    (n : Nat) (env : Env) : loop test body next (n + 1) env = (test env).bind fun goes =>
      if goes then
        (body env).bind fun
          | (env, .returned v) => some (env, .returned v)
          | (env, .broken) => some (env, .onward)
          | (env, _) => loop test body next n (next env)
      else some (env, .onward) := rfl

def Step.value (step : Step) : Int32 := Int32.ofInt step.size

def Step.reaches (step : Step) (counter limit : Int32) : Bool :=
  if step.size < 0 then decide (limit ≤ counter) else decide (counter ≤ limit)

variable (rounds : Nat)

mutual

def Stmt.exec : Stmt → Env → Option (Env × Flow)
  | .assign name value, env => (value.eval calls env).map fun v => (env.set name v, .onward)
  | .call name arguments, env =>
    (evalAll calls env arguments).bind fun vs => (calls name vs).map fun _ => (env, .onward)
  | .if_ test yes, env =>
    (test.eval calls env).bind fun v => if v ≠ 0 then execAll yes env else some (env, .onward)
  | .ifElse test yes no, env =>
    (test.eval calls env).bind fun v => if v ≠ 0 then execAll yes env else execAll no env
  | .while_ test body, env =>
    loop (fun env => (test.eval calls env).map (· != 0)) (execAll body) id rounds env
  | .for_ counter first limit step body, env =>
    (first.eval calls env).bind fun v =>
      loop (fun env => (limit.eval calls env).map (step.reaches (env counter))) (execAll body)
        (fun env => env.set counter (env counter + step.value)) rounds (env.set counter v)
  | .break_, env => some (env, .broken)
  | .continue_, env => some (env, .continued)
  | .return_, env => some (env, .returned 0)
  | .returnValue value, env => (value.eval calls env).map fun v => (env, .returned v)

def execAll : List Stmt → Env → Option (Env × Flow)
  | [], env => some (env, .onward)
  | s :: rest, env =>
    (s.exec env).bind fun
      | (env, .onward) => execAll rest env
      | left => some left

end

end Script

namespace Script

def find? (s : Script) (name : String) : Option Definition :=
  s.definitions.find? (·.name == name)

/-- Calls nested no deeper than `depth`, with no loop of more than `rounds` rounds. -/
def call (s : Script) (rounds : Nat) : (depth : Nat) → Calls
  | 0, _, _ => none
  | depth + 1, name, arguments =>
    (s.find? name).bind fun d =>
      (execAll (s.call rounds depth) rounds d.body (.start d.parameters arguments)).map (·.2.value)

/-- The value that the entry function gives, unless a loop takes more than `rounds` rounds or
calls nest deeper than 256. -/
def run (s : Script) (rounds : Nat) : Option Int32 := s.call rounds 256 "Main" []

structure Lexeme where
  kind : Token.Kind
  text : String
  deriving DecidableEq

namespace Lexeme

def name (x : String) : Lexeme := ⟨.symbol, x⟩

def number (n : Nat) : Lexeme := ⟨.integer, String.ofList (Nat.toDigits 10 n)⟩

def spelling : Keyword → String
  | .var => "var"
  | .goto => "goto"
  | .return_ => "return"
  | .if_ => "if"
  | .else_ => "else"
  | .while_ => "while"
  | .for_ => "for"
  | .break_ => "break"
  | .continue_ => "continue"
  | .to => "to"
  | .step => "step"

def keyword (k : Keyword) : Lexeme := ⟨.keyword k, spelling k⟩

def leftParen : Lexeme := ⟨.leftParen, "("⟩

def rightParen : Lexeme := ⟨.rightParen, ")"⟩

def leftBrace : Lexeme := ⟨.leftBrace, "\x7b"⟩

def rightBrace : Lexeme := ⟨.rightBrace, "\x7d"⟩

def comma : Lexeme := ⟨.comma, ","⟩

def equal : Lexeme := ⟨.equal, "="⟩

def minus : Lexeme := ⟨.minus, "-"⟩

def lineBreak : Lexeme := ⟨.endOfLine, "\n"⟩

end Lexeme

namespace Operator

def binary : Operator → BinaryOp
  | .arithmetic op => .arithmetic op
  | .logical c => .logical c
  | .relation r => .relation r

def sign : Operator → String
  | .arithmetic .add => "+"
  | .arithmetic .subtract => "-"
  | .arithmetic .multiply => "*"
  | .arithmetic .divide => "/"
  | .arithmetic .modulus => "%"
  | .logical .and => "and"
  | .logical .or => "or"
  | .logical .xor => "xor"
  | .relation .equal => "="
  | .relation .notEqual => "<>"
  | .relation .greater => ">"
  | .relation .greaterOrEqual => ">="
  | .relation .less => "<"
  | .relation .lessOrEqual => "<="

def lexeme (op : Operator) : Lexeme := ⟨.operator op.binary, op.sign⟩

/-- Higher levels bind tighter. Joining texts has level 4, powers have level 8. -/
def level : Operator → Nat
  | .logical .or | .logical .xor => 0
  | .logical .and => 1
  | .relation _ => 3
  | .arithmetic .add | .arithmetic .subtract => 5
  | .arithmetic _ => 6

end Operator

def unaryLexeme : UnaryOp → Lexeme
  | .negate => .minus
  | .not => ⟨.not, "not"⟩

def unaryLevel : UnaryOp → Nat
  | .negate => 7
  | .not => 2

def Expr.level : Expr → Nat
  | .binary op _ _ => op.level
  | .unary op _ => unaryLevel op
  | _ => 8

def enclosed (level : Nat) (e : Expr) (lexemes : List Lexeme) : List Lexeme :=
  if e.level < level then .leftParen :: (lexemes ++ [.rightParen]) else lexemes

mutual

/-- Chains associate to the left, so the right operand has to bind tighter. -/
def Expr.lexemes : Expr → List Lexeme
  | .literal n => [.number n]
  | .var x => [.name x]
  | .call f arguments => .name f :: .leftParen :: argumentLexemes arguments
  | .binary op left right =>
    enclosed op.level left left.lexemes ++
      op.lexeme :: enclosed (op.level + 1) right right.lexemes
  | .unary op operand => unaryLexeme op :: enclosed (unaryLevel op) operand operand.lexemes

def argumentLexemes : List Expr → List Lexeme
  | [] => [.rightParen]
  | e :: rest => e.lexemes ++ furtherLexemes rest

def furtherLexemes : List Expr → List Lexeme
  | [] => [.rightParen]
  | e :: rest => .comma :: (e.lexemes ++ furtherLexemes rest)

end

def Step.lexemes (step : Step) : List Lexeme :=
  .keyword .step :: ((if step.size < 0 then [.minus] else []) ++ [.number step.size.natAbs])

mutual

def Stmt.lexemes : Stmt → List Lexeme
  | .assign x value => .name x :: .equal :: value.lexemes
  | .call f arguments => .name f :: .leftParen :: argumentLexemes arguments
  | .if_ test yes =>
    .keyword .if_ :: (test.lexemes ++ .leftBrace :: .lineBreak :: lineLexemes yes)
  | .ifElse test yes no =>
    .keyword .if_ :: (test.lexemes ++ .leftBrace :: .lineBreak :: (lineLexemes yes ++
      .keyword .else_ :: .leftBrace :: .lineBreak :: lineLexemes no))
  | .while_ test body =>
    .keyword .while_ :: (test.lexemes ++ .leftBrace :: .lineBreak :: lineLexemes body)
  | .for_ counter first limit step body =>
    .keyword .for_ :: .name counter :: .equal :: (first.lexemes ++ .keyword .to ::
      (limit.lexemes ++ (step.lexemes ++ .leftBrace :: .lineBreak :: lineLexemes body)))
  | .break_ => [.keyword .break_]
  | .continue_ => [.keyword .continue_]
  | .return_ => [.keyword .return_]
  | .returnValue value => .keyword .return_ :: value.lexemes

def lineLexemes : List Stmt → List Lexeme
  | [] => [.rightBrace]
  | s :: rest => s.lexemes ++ .lineBreak :: lineLexemes rest

end

def parameterLexemes : List String → List Lexeme
  | [] => [.rightParen]
  | [x] => [.name x, .rightParen]
  | x :: rest => .name x :: .comma :: parameterLexemes rest

def Definition.lexemes (d : Definition) : List Lexeme :=
  .name d.name :: .leftParen :: (parameterLexemes d.parameters ++
    .leftBrace :: .lineBreak :: (lineLexemes d.body ++ [.lineBreak]))

def lexemes (s : Script) : List Lexeme := s.definitions.flatMap Definition.lexemes

def spell (ls : List Lexeme) : List Char := ls.flatMap fun l => l.text.toList ++ [' ']

def text (s : Script) : String := String.ofList (spell s.lexemes)

def reservedWords : List String :=
  ["var", "goto", "return", "if", "else", "while", "for", "break", "continue", "to", "step",
    "and", "or", "xor", "not"]

def isWord : List Char → Bool
  | [] => false
  | c :: cs => Token.Piece.isWordStart c && cs.all Token.Piece.isWordPart

/-- A word that is not reserved, in whatever case. -/
def isName (x : String) : Bool :=
  isWord x.toList && reservedWords.all fun w => !Reading.sameWord x.toList w

/-- The functions of a script with the numbers of their parameters, and the names that the
registry uses. -/
structure Signature where
  functions : List (String × Nat)
  registered : List String

def signature (s : Script) (registry : Registry) : Signature where
  functions := s.definitions.map fun d => (d.name, d.parameters.length)
  registered := registry.functions.map (·.1) ++ registry.constants.map (·.1)

namespace Signature

variable (g : Signature)

def isVariable (x : String) : Bool :=
  isName x && !Token.isMain x && !(g.functions.map (·.1)).contains x && !g.registered.contains x

def isFunction (f : String) : Bool :=
  isName f && (f == "Main" || !Token.isMain f) && !g.registered.contains f

end Signature

variable (g : Signature)

mutual

def Expr.fits : Expr → Bool
  | .literal _ => true
  | .var x => g.isVariable x
  | .call f arguments => g.functions.lookup f == some arguments.length && allFit arguments
  | .binary _ left right => left.fits && right.fits
  | .unary _ operand => operand.fits

def allFit : List Expr → Bool
  | [] => true
  | e :: rest => e.fits && allFit rest

end

mutual

def Stmt.fits (inLoop : Bool) : Stmt → Bool
  | .assign x value => g.isVariable x && value.fits g
  | .call f arguments => g.functions.lookup f == some arguments.length && allFit g arguments
  | .if_ test yes => test.fits g && blockFits inLoop yes
  | .ifElse test yes no => test.fits g && blockFits inLoop yes && blockFits inLoop no
  | .while_ test body => test.fits g && blockFits true body
  | .for_ counter first limit _ body =>
    g.isVariable counter && first.fits g && limit.fits g && blockFits true body
  | .break_ => inLoop
  | .continue_ => inLoop
  | .return_ => true
  | .returnValue value => value.fits g

def blockFits (inLoop : Bool) : List Stmt → Bool
  | [] => true
  | s :: rest => s.fits inLoop && blockFits inLoop rest

end

structure Definition.Fits (d : Definition) : Prop where
  name : g.isFunction d.name = true
  parameters : ∀ x ∈ d.parameters, g.isVariable x = true
  distinct : d.parameters.Nodup
  body : blockFits g false d.body = true

instance (d : Definition) : Decidable (d.Fits g) :=
  decidable_of_iff (g.isFunction d.name = true ∧ (∀ x ∈ d.parameters, g.isVariable x = true) ∧
      d.parameters.Nodup ∧ blockFits g false d.body = true)
    ⟨fun ⟨n, p, d, b⟩ => ⟨n, p, d, b⟩, fun ⟨n, p, d, b⟩ => ⟨n, p, d, b⟩⟩

/-- Functions have names of their own, and one without parameters is the entry function. -/
structure Proper (s : Script) (registry : Registry) : Prop where
  definitions : ∀ d ∈ s.definitions, d.Fits (s.signature registry)
  distinct : (s.definitions.map (·.name)).Nodup
  entry : ∃ d ∈ s.definitions, d.name = "Main" ∧ d.parameters = []

instance (s : Script) (registry : Registry) : Decidable (s.Proper registry) :=
  decidable_of_iff ((∀ d ∈ s.definitions, d.Fits (s.signature registry)) ∧
      (s.definitions.map (·.name)).Nodup ∧
      ∃ d ∈ s.definitions, d.name = "Main" ∧ d.parameters = [])
    ⟨fun ⟨d, n, e⟩ => ⟨d, n, e⟩, fun ⟨d, n, e⟩ => ⟨d, n, e⟩⟩

end Script

end Scriptlet
