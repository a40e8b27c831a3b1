import Scriptlet.Compile.Expression
import Scriptlet.Proofs.Code.Rows
import Scriptlet.Proofs.Source.Grammar

/-!
Expressions with their structure. The levels of precedence decide which operators hold which
operands, so that the tokens of an expression have one tree, and a tree of literals and operators
has a value.

The code of a tree is its postfix order, except that a tree with a value is one literal. Entries of
the pool are shared between literals that are equal, and the two zeros are equal.

Statements and whole sources are a row of expressions here, in the order of the code.
-/
namespace Scriptlet

/-- Equal, or zeros that may differ in their sign. -/
def Value.Agrees (w v : Value) : Prop :=
  w = v ∨ ∃ x y, w = .float x ∧ v = .float y ∧ x.isZero = true ∧ y.isZero = true

namespace Grammar

open Code

variable {pool : Array Value} {f : List Term} {ts us : List Token} {e : Phrase}

/-- The tree of an expression. Of an operand that is no literal it has the expressions inside. -/
inductive Phrase where
  | literal (v : Value)
  | unary (op : UnaryOp) (operand : Phrase)
  | binary (op : BinaryOp) (left right : Phrase)
  | operand (parts : List Phrase)

/-- The value of literals and operators between them. -/
def Phrase.value? : Phrase → Option Value
  | .literal v => some v
  | .unary op e => e.value?.map op.apply
  | .binary op a b => a.value?.bind fun v => b.value?.map (op.apply v)
  | .operand _ => none

inductive Level where
  | choice
  | conjunction
  | negation
  | comparison
  | join
  | sum
  | product
  | sign
  | operand

def Level.tighter? : Level → Option Level
  | .choice => some .conjunction
  | .conjunction => some .negation
  | .negation => some .comparison
  | .comparison => some .join
  | .join => some .sum
  | .sum => some .product
  | .product => some .sign
  | .sign => some .operand
  | .operand => none

def Level.chains : Level → BinaryOp → Bool
  | .choice => Compile.isChoice
  | .conjunction => Compile.isConjunction
  | .comparison => Compile.isComparison
  | .join => Compile.isJoin
  | .sum => Compile.isSum
  | .product => Compile.isProduct
  | .negation | .sign | .operand => fun _ => false

mutual

/-- An expression of the level, with its tree. -/
inductive Derives : Level → List Token → List Token → Phrase → Prop where
  | tighter {level next : Level} {e : Phrase} {ts us : List Token} : level.tighter? = some next →
      Derives next ts us e → Derives level ts us e
  | chain {level next : Level} {op : BinaryOp} {a b : Phrase} {ts us vs ws : List Token} :
      level.tighter? = some next → level.chains op = true → Derives level ts us a →
      Mark (.operator op) us vs → Derives next vs ws b → Derives level ts ws (.binary op a b)
  | not_ {e : Phrase} {ts us vs : List Token} : Mark .not ts us → Derives .negation us vs e →
      Derives .negation ts vs (.unary .not e)
  | negative {e : Phrase} {ts us vs : List Token} : Mark .minus ts us → Derives .sign us vs e →
      Derives .sign ts vs (.unary .negate e)
  | power {a b : Phrase} {ts us vs ws : List Token} : Derives .operand ts us a → Mark .power us vs →
      Derives .sign vs ws b → Derives .sign ts ws (.binary .power a b)
  | literal {t : Token} {v : Value} {us : List Token} : t.literal? = some v →
      Derives .operand (t :: us) us (.literal v)
  | parenthesis {e : Phrase} {ts us vs ws : List Token} : Mark .leftParen ts us →
      Derives .choice us vs e → Mark .rightParen vs ws → Derives .operand ts ws e
  | list {es : List Phrase} {ts us vs : List Token} : Mark .leftBrace ts us →
      DerivesItems .rightBrace us vs es → Derives .operand ts vs (.operand es)
  | call {es : List Phrase} {ts us vs ws : List Token} : Mark .symbol ts us →
      Mark .leftParen us vs →
      DerivesItems .rightParen vs ws es → Derives .operand ts ws (.operand es)
  | element {es : List Phrase} {ts us vs : List Token} : Mark .symbol ts us →
      DerivesIndexes us vs es → Derives .operand ts vs (.operand es)

inductive DerivesSequence : List Token → List Token → List Phrase → Prop where
  | last {e : Phrase} {ts us : List Token} : Derives .choice ts us e → DerivesSequence ts us [e]
  | more {e : Phrase} {es : List Phrase} {ts us vs ws : List Token} : Derives .choice ts us e →
      Mark .comma us vs → DerivesSequence vs ws es → DerivesSequence ts ws (e :: es)

inductive DerivesItems : Token.Kind → List Token → List Token → List Phrase → Prop where
  | none {close : Token.Kind} {ts us : List Token} : Mark close ts us → DerivesItems close ts us []
  | some {close : Token.Kind} {es : List Phrase} {ts us vs : List Token} :
      DerivesSequence ts us es → Mark close us vs → DerivesItems close ts vs es

inductive DerivesIndexes : List Token → List Token → List Phrase → Prop where
  | none {ts : List Token} : DerivesIndexes ts ts []
  | more {e : Phrase} {es : List Phrase} {ts us vs ws xs : List Token} : Mark .leftBracket ts us →
      Derives .choice us vs e → Mark .rightBracket vs ws → DerivesIndexes ws xs es →
      DerivesIndexes ts xs (e :: es)

end

mutual

theorem Derives.formula {level : Level} {ts us : List Token} {e : Phrase} :
    Derives level ts us e → Formula ts us
  | .tighter _ derives => derives.formula
  | .chain _ _ left operator right => .binary left.formula operator right.formula
  | .not_ mark operand => .not_ mark operand.formula
  | .negative mark operand => .negative mark operand.formula
  | .power left operator right => .binary left.formula operator right.formula
  | .literal literal => .operand (.literal (Token.isLiteral_of_literal? literal))
  | .parenthesis opened inner closed => .operand (.parenthesis opened inner.formula closed)
  | .list opened items => .operand (.list opened items.items)
  | .call name opened items => .operand (.call name opened items.items)
  | .element name path => .operand (.element name path.indexes)

theorem DerivesSequence.sequence {ts us : List Token} {es : List Phrase} :
    DerivesSequence ts us es → Sequence ts us
  | .last derives => .last derives.formula
  | .more derives comma rest => .more derives.formula comma rest.sequence

theorem DerivesItems.items {close : Token.Kind} {ts us : List Token} {es : List Phrase} :
    DerivesItems close ts us es → Items close ts us
  | .none closed => .none closed
  | .some rest closed => .some rest.sequence closed

theorem DerivesIndexes.indexes {ts us : List Token} {es : List Phrase} :
    DerivesIndexes ts us es → Indexes ts us
  | .none => .none
  | .more opened derives closed rest => .more opened derives.formula closed rest.indexes

end

mutual

/-- The code of a tree, with the literals of a pool. -/
inductive Renders (pool : Array Value) : Phrase → List Term → Prop where
  | constant {e : Phrase} {v w : Value} {i : Nat} : e.value? = some v → pool[i]? = some w →
      w.Agrees v → Renders pool e [.literal i]
  | unary {op : UnaryOp} {e : Phrase} {f : List Term} : e.value? = none → Renders pool e f →
      Renders pool (.unary op e) (f ++ [.unary op])
  | binary {op : BinaryOp} {a b : Phrase} {f g : List Term} : (Phrase.binary op a b).value? = none →
      Renders pool a f → Renders pool b g → Renders pool (.binary op a b) (f ++ g ++ [.binary op])
  | load (slot : Address) : Renders pool (.operand []) [.load slot]
  | compound (head : Head) {es : List Phrase} {fs : List (List Term)} : RendersAll pool es fs →
      Renders pool (.operand es) [.compound head fs]

inductive RendersAll (pool : Array Value) : List Phrase → List (List Term) → Prop where
  | nil : RendersAll pool [] []
  | cons {e : Phrase} {f : List Term} {es : List Phrase} {fs : List (List Term)} :
      Renders pool e f → RendersAll pool es fs → RendersAll pool (e :: es) (f :: fs)

end

theorem Renders.ne_nil (renders : Renders pool e f) : f ≠ [] := by
  cases renders <;> simp

theorem RendersAll.append {es es' : List Phrase} {fs fs' : List (List Term)} :
    RendersAll pool es fs → RendersAll pool es' fs' → RendersAll pool (es ++ es') (fs ++ fs')
  | .nil, second => second
  | .cons first rest, second => .cons first (rest.append second)

theorem RendersAll.head {es : List Phrase} {fs : List (List Term)}
    (renders : RendersAll pool (e :: es) (f :: fs)) : Renders pool e f := by
  cases renders with
  | cons first _ => exact first

theorem RendersAll.single (renders : Renders pool e f) : RendersAll pool [e] [f] :=
  .cons renders .nil

mutual

theorem Renders.mono {pool pool' : Array Value}
    (kept : ∀ (i : Nat) v, pool[i]? = some v → pool'[i]? = some v) {e : Phrase} {f : List Term} :
    Renders pool e f → Renders pool' e f
  | .constant value found agrees => .constant value (kept _ _ found) agrees
  | .unary none_ operand => .unary none_ (operand.mono kept)
  | .binary none_ left right => .binary none_ (left.mono kept) (right.mono kept)
  | .load slot => .load slot
  | .compound head parts => .compound head (parts.mono kept)

theorem RendersAll.mono {pool pool' : Array Value}
    (kept : ∀ (i : Nat) v, pool[i]? = some v → pool'[i]? = some v) {es : List Phrase}
    {fs : List (List Term)} : RendersAll pool es fs → RendersAll pool' es fs
  | .nil => .nil
  | .cons first rest => .cons (first.mono kept) (rest.mono kept)

end

inductive ExpressesInitial : List Token → List Token → List Phrase → Prop where
  | none {ts : List Token} : ExpressesInitial ts ts []
  | value {e : Phrase} {ts us vs : List Token} : Mark .equal ts us → Derives .choice us vs e →
      ExpressesInitial ts vs [e]
  | zeros {e : Phrase} {ts us vs ws : List Token} : Mark .leftBracket ts us →
      Derives .choice us vs e → Mark .rightBracket vs ws → ExpressesInitial ts ws [.operand [e]]

inductive ExpressesDeclared : List Token → List Token → List Phrase → Prop where
  | last {es : List Phrase} {ts us vs : List Token} : Mark .symbol ts us →
      ExpressesInitial us vs es → ExpressesDeclared ts vs es
  | more {es es' : List Phrase} {ts us vs ws xs : List Token} : Mark .symbol ts us →
      ExpressesInitial us vs es → Mark .comma vs ws → ExpressesDeclared ws xs es' →
      ExpressesDeclared ts xs (es ++ es')

inductive ExpressesSimple : List Token → List Token → List Phrase → Prop where
  | assign {e : Phrase} {es : List Phrase} {ts us vs ws xs : List Token} : Mark .symbol ts us →
      DerivesIndexes us vs es → Mark .equal vs ws → Derives .choice ws xs e →
      ExpressesSimple ts xs (es ++ [e])
  | call {es : List Phrase} {ts us vs ws : List Token} : Mark .symbol ts us →
      Mark .leftParen us vs → DerivesItems .rightParen vs ws es → ExpressesSimple ts ws es
  | bareCall {es : List Phrase} {ts us vs : List Token} : Mark .symbol ts us →
      DerivesSequence us vs es → ExpressesSimple ts vs es
  | bareName {ts us : List Token} : Mark .symbol ts us →
      (∀ t ∈ us.head?, t.kind.startsOperand = false) → ExpressesSimple ts us []
  | returnValue {e : Phrase} {ts us vs : List Token} : Mark (.keyword .return_) ts us →
      Derives .choice us vs e → ExpressesSimple ts vs [e]
  | return_ {ts us : List Token} : Mark (.keyword .return_) ts us →
      (∀ t ∈ us.head?, t.kind = .rightBrace ∨ t.kind = .endOfLine) → ExpressesSimple ts us []
  | declaration {es : List Phrase} {ts us vs : List Token} : Mark (.keyword .var) ts us →
      ExpressesDeclared us vs es → ExpressesSimple ts vs es

theorem ExpressesInitial.initial {es : List Phrase} : ExpressesInitial ts us es → Initial ts us
  | .none => .none
  | .value equal derives => .value equal derives.formula
  | .zeros opened derives closed => .zeros opened derives.formula closed

theorem ExpressesDeclared.declared {ts : List Token} {es : List Phrase} :
    ExpressesDeclared ts us es → Declared ts us
  | .last name initial => .last name initial.initial
  | .more name initial comma rest => .more name initial.initial comma rest.declared

theorem ExpressesSimple.simple {es : List Phrase} : ExpressesSimple ts us es → Simple ts us
  | .assign name path equal derives => .assign name path.indexes equal derives.formula
  | .call name opened items => .call name opened items.items
  | .bareCall name rest => .bareCall name rest.sequence
  | .bareName name stops => .bareName name stops
  | .returnValue keyword derives => .returnValue keyword derives.formula
  | .return_ keyword stops => .return_ keyword stops
  | .declaration keyword declared => .declaration keyword declared.declared

inductive ExpressesStep : List Token → List Token → Phrase → Prop where
  | none {ts : List Token} : ExpressesStep ts ts (.literal (.integer 1))
  | up {t : Token} {v : Value} {ts us : List Token} : Mark (.keyword .step) ts (t :: us) →
      t.kind = .integer ∨ t.kind = .float → t.literal? = some v → ExpressesStep ts us (.literal v)
  | down {t : Token} {v : Value} {ts us vs : List Token} : Mark (.keyword .step) ts us →
      Mark .minus us (t :: vs) → t.kind = .integer ∨ t.kind = .float → t.literal? = some v →
      ExpressesStep ts vs (.unary .negate (.literal v))

theorem ExpressesStep.stepSize : ExpressesStep ts us e → StepSize ts us
  | .none => .none
  | .up keyword number _ => .up keyword number
  | .down keyword minus number _ => .down keyword minus number

mutual

/-- The statement between two places of the source has these expressions, in the order of its code.
-/
inductive Expresses : List Token → List Token → List Phrase → Prop where
  | simple {es : List Phrase} {ts us : List Token} : ExpressesSimple ts us es → Expresses ts us es
  | label {ts us vs : List Token} : Mark .symbol ts us → Mark .colon us vs → Expresses ts vs []
  | goto {ts us vs : List Token} : Mark (.keyword .goto) ts us → Mark .symbol us vs →
      Expresses ts vs []
  | break_ {ts us : List Token} : Mark (.keyword .break_) ts us → Expresses ts us []
  | continue_ {ts us : List Token} : Mark (.keyword .continue_) ts us → Expresses ts us []
  | block {es : List Phrase} {ts us vs : List Token} : Mark .leftBrace ts us →
      ExpressesAll us vs es → Expresses ts vs es
  | if_ {e : Phrase} {es : List Phrase} {ts us vs ws xs ys : List Token} :
      Mark (.keyword .if_) ts us →
      Derives .choice us vs e → Breaks vs ws → Expresses ws xs es → Breaks xs ys →
      (∀ t ∈ ys.head?, t.kind ≠ .keyword .else_) → Expresses ts ys (e :: es)
  | ifElse {e : Phrase} {es es' : List Phrase} {ts us vs ws xs ys zs ts' us' : List Token} :
      Mark (.keyword .if_) ts us → Derives .choice us vs e → Breaks vs ws → Expresses ws xs es →
      Breaks xs ys → Mark (.keyword .else_) ys zs → Breaks zs ts' → Expresses ts' us' es' →
      Expresses ts us' (e :: es ++ es')
  | while_ {e : Phrase} {es : List Phrase} {ts us vs ws xs : List Token} :
      Mark (.keyword .while_) ts us → Derives .choice us vs e → Breaks vs ws → Expresses ws xs es →
      Expresses ts xs (e :: es)
  /-- The counter is compared with the limit before each round, and the step added to it behind. -/
  | for_ (op : Relation) {first limit step : Phrase} {es : List Phrase}
      {ts us vs ws xs ys zs ts' us' vs' : List Token} : Mark (.keyword .for_) ts us →
      Mark .symbol us vs → Mark .equal vs ws → Derives .choice ws xs first →
      Mark (.keyword .to) xs ys → Derives .choice ys zs limit → ExpressesStep zs ts' step →
      Breaks ts' us' → Expresses us' vs' es →
      Expresses ts vs' (first :: .binary (.relation op) (.operand []) limit ::
        es ++ [.binary (.arithmetic .add) (.operand []) step])

inductive ExpressesAll : List Token → List Token → List Phrase → Prop where
  | nil {ts us vs : List Token} : Breaks ts us → Mark .rightBrace us vs → ExpressesAll ts vs []
  | cons {es es' : List Phrase} {ts us vs ws : List Token} : Breaks ts us → Expresses us vs es →
      ExpressesAll vs ws es' → ExpressesAll ts ws (es ++ es')

end

inductive SourceExpresses : List Token → List Phrase → Prop where
  | nil {ts : List Token} : Breaks ts [] → SourceExpresses ts []
  | variables {es : List Phrase} {ts us vs ws : List Token} : Breaks ts us →
      Mark (.keyword .var) us vs → Globals vs ws → SourceExpresses ws es → SourceExpresses ts es
  | function {es es' : List Phrase} {ts us vs ws xs ys zs : List Token} : Breaks ts us →
      Mark .symbol us vs → ParameterList vs ws → Breaks ws xs → Mark .leftBrace xs ys →
      ExpressesAll ys zs es → SourceExpresses zs es' → SourceExpresses ts (es ++ es')

end Grammar

namespace Code

def Plain.expressions : Plain → List (List Term)
  | .returnValue [] => []
  | p => p.parts

def Statement.expressions : Statement → List (List Term)
  | .plain p => p.expressions
  | .jump _ => []
  | .jumpIfFalse _ test => [test]

def rowExpressions (row : List Statement) : List (List Term) := row.flatMap Statement.expressions

theorem rowExpressions_append (row more : List Statement) :
    rowExpressions (row ++ more) = rowExpressions row ++ rowExpressions more := by
  simp [rowExpressions]

theorem rowExpressions_cons (x : Statement) (row : List Statement) :
    rowExpressions (x :: row) = x.expressions ++ rowExpressions row := by
  simp [rowExpressions]

theorem rowExpressions_plain (ps : List Plain) :
    rowExpressions (ps.map .plain) = ps.flatMap Plain.expressions := by
  simp [rowExpressions, List.flatMap_map, Statement.expressions]

theorem rowExpressions_resolveRow (t : Target) (address : Nat) (row : List Statement) :
    rowExpressions (resolveRow t address row) = rowExpressions row := by
  induction row with
  | nil => rfl
  | cons x row ih =>
    rw [resolveRow_cons, rowExpressions_cons, rowExpressions_cons, ih]
    cases x <;> rfl

end Code

end Scriptlet
