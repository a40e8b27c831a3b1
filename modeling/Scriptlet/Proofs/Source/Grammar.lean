import Scriptlet.Token.Stream

/-!
The grammar of a source, over the tokens that are still ahead. Every phrase is a relation between
the tokens in front of it and those behind it, so that phrases follow each other without being cut
out of the source.

Levels of precedence play no role: an operator may stand between any two formulas. Where one phrase
could end early and another begin, a phrase says what must not follow it.
-/
namespace Scriptlet

/-- The tokens ahead, up to the end of the file. -/
def TokenStream.remaining (s : TokenStream) : List Token :=
  if more : s.next.1.kind = .endOfFile then []
  else
    have := s.next_unread_lt more
    s.next.1 :: s.next.2.remaining
termination_by s.unread

theorem Token.isLiteral_of_literal? {t : Token} {v : Value} (literal : t.literal? = some v) :
    t.kind.isLiteral = true := by
  unfold Token.literal? at literal
  generalize t.kind = kind at literal ⊢
  cases kind with
  | string | integer | float => rfl
  | _ => cases literal

namespace Grammar

variable {ts us : List Token}

def Mark (kind : Token.Kind) (ts us : List Token) : Prop := ∃ t, t.kind = kind ∧ ts = t :: us

def Name (name : String) (ts us : List Token) : Prop :=
  ∃ t, t.kind = .symbol ∧ t.lexeme = name ∧ ts = t :: us

inductive Breaks : List Token → List Token → Prop where
  | none {ts : List Token} : Breaks ts ts
  | more {ts us vs : List Token} : Mark .endOfLine ts us → Breaks us vs → Breaks ts vs

mutual

inductive Operand : List Token → List Token → Prop where
  | literal {t : Token} {us : List Token} : t.kind.isLiteral = true → Operand (t :: us) us
  | parenthesis {ts us vs ws : List Token} : Mark .leftParen ts us → Formula us vs →
      Mark .rightParen vs ws → Operand ts ws
  | list {ts us vs : List Token} : Mark .leftBrace ts us → Items .rightBrace us vs → Operand ts vs
  | call {ts us vs ws : List Token} : Mark .symbol ts us → Mark .leftParen us vs →
      Items .rightParen vs ws → Operand ts ws
  | element {ts us vs : List Token} : Mark .symbol ts us → Indexes us vs → Operand ts vs

inductive Formula : List Token → List Token → Prop where
  | operand {ts us : List Token} : Operand ts us → Formula ts us
  | not_ {ts us vs : List Token} : Mark .not ts us → Formula us vs → Formula ts vs
  | negative {ts us vs : List Token} : Mark .minus ts us → Formula us vs → Formula ts vs
  | binary {op : BinaryOp} {ts us vs ws : List Token} : Formula ts us → Mark (.operator op) us vs →
      Formula vs ws → Formula ts ws

inductive Sequence : List Token → List Token → Prop where
  | last {ts us : List Token} : Formula ts us → Sequence ts us
  | more {ts us vs ws : List Token} : Formula ts us → Mark .comma us vs → Sequence vs ws →
      Sequence ts ws

inductive Items : Token.Kind → List Token → List Token → Prop where
  | none {close : Token.Kind} {ts us : List Token} : Mark close ts us → Items close ts us
  | some {close : Token.Kind} {ts us vs : List Token} : Sequence ts us → Mark close us vs →
      Items close ts vs

inductive Indexes : List Token → List Token → Prop where
  | none {ts : List Token} : Indexes ts ts
  | more {ts us vs ws xs : List Token} : Mark .leftBracket ts us → Formula us vs →
      Mark .rightBracket vs ws → Indexes ws xs → Indexes ts xs

end

/-- The first value of a declared variable, if it has one. -/
inductive Initial : List Token → List Token → Prop where
  | none {ts : List Token} : Initial ts ts
  | value {ts us vs : List Token} : Mark .equal ts us → Formula us vs → Initial ts vs
  | zeros {ts us vs ws : List Token} : Mark .leftBracket ts us → Formula us vs →
      Mark .rightBracket vs ws → Initial ts ws

inductive Declared : List Token → List Token → Prop where
  | last {ts us vs : List Token} : Mark .symbol ts us → Initial us vs → Declared ts vs
  | more {ts us vs ws xs : List Token} : Mark .symbol ts us → Initial us vs → Mark .comma vs ws →
      Declared ws xs → Declared ts xs

inductive Simple : List Token → List Token → Prop where
  | assign {ts us vs ws xs : List Token} : Mark .symbol ts us → Indexes us vs → Mark .equal vs ws →
      Formula ws xs → Simple ts xs
  | call {ts us vs ws : List Token} : Mark .symbol ts us → Mark .leftParen us vs →
      Items .rightParen vs ws → Simple ts ws
  | bareCall {ts us vs : List Token} : Mark .symbol ts us → Sequence us vs → Simple ts vs
  | bareName {ts us : List Token} : Mark .symbol ts us →
      (∀ t ∈ us.head?, t.kind.startsOperand = false) → Simple ts us
  | returnValue {ts us vs : List Token} : Mark (.keyword .return_) ts us → Formula us vs →
      Simple ts vs
  | return_ {ts us : List Token} : Mark (.keyword .return_) ts us →
      (∀ t ∈ us.head?, t.kind = .rightBrace ∨ t.kind = .endOfLine) → Simple ts us
  | declaration {ts us vs : List Token} : Mark (.keyword .var) ts us → Declared us vs → Simple ts vs

inductive StepSize : List Token → List Token → Prop where
  | none {ts : List Token} : StepSize ts ts
  | up {t : Token} {ts us : List Token} : Mark (.keyword .step) ts (t :: us) →
      t.kind = .integer ∨ t.kind = .float → StepSize ts us
  | down {t : Token} {ts us vs : List Token} : Mark (.keyword .step) ts us →
      Mark .minus us (t :: vs) → t.kind = .integer ∨ t.kind = .float → StepSize ts vs

inductive SignedLiteral : List Token → List Token → Prop where
  | literal {t : Token} {us : List Token} : t.kind.isLiteral = true → SignedLiteral (t :: us) us
  | negative {t : Token} {ts us : List Token} : Mark .minus ts (t :: us) → t.kind.isLiteral = true →
      t.kind ≠ .string → SignedLiteral ts us

inductive SignedLiterals : List Token → List Token → Prop where
  | last {ts us vs : List Token} : SignedLiteral ts us → Mark .rightBrace us vs →
      SignedLiterals ts vs
  | more {ts us vs ws : List Token} : SignedLiteral ts us → Mark .comma us vs →
      SignedLiterals vs ws → SignedLiterals ts ws

inductive GlobalValue : List Token → List Token → Prop where
  | none {ts : List Token} : GlobalValue ts ts
  | constant {ts us vs : List Token} : Mark .equal ts us → SignedLiteral us vs → GlobalValue ts vs
  | noItems {ts us vs ws : List Token} : Mark .equal ts us → Mark .leftBrace us vs →
      Mark .rightBrace vs ws → GlobalValue ts ws
  | items {ts us vs ws : List Token} : Mark .equal ts us → Mark .leftBrace us vs →
      SignedLiterals vs ws → GlobalValue ts ws
  | zeros {ts us vs ws : List Token} : Mark .leftBracket ts us → Mark .integer us vs →
      Mark .rightBracket vs ws → GlobalValue ts ws

inductive Globals : List Token → List Token → Prop where
  | last {ts us vs : List Token} : Mark .symbol ts us → GlobalValue us vs → Globals ts vs
  | more {ts us vs ws xs : List Token} : Mark .symbol ts us → GlobalValue us vs →
      Mark .comma vs ws → Globals ws xs → Globals ts xs

inductive Parameters : List Token → List Token → Prop where
  | last {ts us vs : List Token} : Mark .symbol ts us → Mark .rightParen us vs → Parameters ts vs
  | more {ts us vs ws : List Token} : Mark .symbol ts us → Mark .comma us vs → Parameters vs ws →
      Parameters ts ws

inductive ParameterList : List Token → List Token → Prop where
  | none {ts us vs : List Token} : Mark .leftParen ts us → Mark .rightParen us vs →
      ParameterList ts vs
  | some {ts us vs : List Token} : Mark .leftParen ts us → Parameters us vs → ParameterList ts vs

theorem Mark.suffix {kind : Token.Kind} (mark : Mark kind ts us) : us <:+ ts := by
  obtain ⟨t, -, rfl⟩ := mark
  exact List.suffix_cons t us

theorem Name.mark {name : String} (named : Name name ts us) : Mark .symbol ts us := by
  obtain ⟨t, kind, -, same⟩ := named
  exact ⟨t, kind, same⟩

theorem Breaks.suffix (breaks : Breaks ts us) : us <:+ ts := by
  induction breaks with
  | none => exact List.suffix_rfl
  | more mark _ ih => exact ih.trans mark.suffix

mutual

theorem Operand.suffix {ts us : List Token} : Operand ts us → us <:+ ts
  | .literal _ => List.suffix_cons _ _
  | .parenthesis left inner right => right.suffix.trans (inner.suffix.trans left.suffix)
  | .list left items => items.suffix.trans left.suffix
  | .call name left items => items.suffix.trans (left.suffix.trans name.suffix)
  | .element name indexes => indexes.suffix.trans name.suffix

theorem Formula.suffix {ts us : List Token} : Formula ts us → us <:+ ts
  | .operand operand => operand.suffix
  | .not_ mark inner => inner.suffix.trans mark.suffix
  | .negative mark inner => inner.suffix.trans mark.suffix
  | .binary left operator right => right.suffix.trans (operator.suffix.trans left.suffix)

theorem Sequence.suffix {ts us : List Token} : Sequence ts us → us <:+ ts
  | .last formula => formula.suffix
  | .more formula comma rest => rest.suffix.trans (comma.suffix.trans formula.suffix)

theorem Items.suffix {close : Token.Kind} {ts us : List Token} : Items close ts us → us <:+ ts
  | .none mark => mark.suffix
  | .some items mark => mark.suffix.trans items.suffix

theorem Indexes.suffix {ts us : List Token} : Indexes ts us → us <:+ ts
  | .none => List.suffix_rfl
  | .more left index right rest =>
    rest.suffix.trans (right.suffix.trans (index.suffix.trans left.suffix))

end

theorem Initial.suffix (initial : Initial ts us) : us <:+ ts := by
  cases initial with
  | none => exact List.suffix_rfl
  | value equal formula => exact formula.suffix.trans equal.suffix
  | zeros left size right => exact right.suffix.trans (size.suffix.trans left.suffix)

theorem Declared.suffix (declared : Declared ts us) : us <:+ ts := by
  induction declared with
  | last name initial => exact initial.suffix.trans name.suffix
  | more name initial comma _ ih =>
    exact ih.trans (comma.suffix.trans (initial.suffix.trans name.suffix))

theorem Simple.suffix (simple : Simple ts us) : us <:+ ts := by
  cases simple with
  | assign name indexes equal value =>
    exact value.suffix.trans (equal.suffix.trans (indexes.suffix.trans name.suffix))
  | call name left items => exact items.suffix.trans (left.suffix.trans name.suffix)
  | bareCall name items => exact items.suffix.trans name.suffix
  | bareName name _ => exact name.suffix
  | returnValue keyword value => exact value.suffix.trans keyword.suffix
  | return_ keyword _ => exact keyword.suffix
  | declaration keyword declared => exact declared.suffix.trans keyword.suffix

theorem StepSize.suffix (step : StepSize ts us) : us <:+ ts := by
  cases step with
  | none => exact List.suffix_rfl
  | up keyword _ => exact (List.suffix_cons _ _).trans keyword.suffix
  | down keyword minus _ => exact (List.suffix_cons _ _).trans (minus.suffix.trans keyword.suffix)

theorem SignedLiteral.suffix (literal : SignedLiteral ts us) : us <:+ ts := by
  cases literal with
  | literal _ => exact List.suffix_cons _ _
  | negative minus _ _ => exact (List.suffix_cons _ _).trans minus.suffix

theorem SignedLiterals.suffix (literals : SignedLiterals ts us) : us <:+ ts := by
  induction literals with
  | last literal brace => exact brace.suffix.trans literal.suffix
  | more literal comma _ ih => exact ih.trans (comma.suffix.trans literal.suffix)

theorem GlobalValue.suffix (value : GlobalValue ts us) : us <:+ ts := by
  cases value with
  | none => exact List.suffix_rfl
  | constant equal literal => exact literal.suffix.trans equal.suffix
  | noItems equal left right => exact right.suffix.trans (left.suffix.trans equal.suffix)
  | items equal left literals => exact literals.suffix.trans (left.suffix.trans equal.suffix)
  | zeros left size right => exact right.suffix.trans (size.suffix.trans left.suffix)

theorem Globals.suffix (globals : Globals ts us) : us <:+ ts := by
  induction globals with
  | last name value => exact value.suffix.trans name.suffix
  | more name value comma _ ih =>
    exact ih.trans (comma.suffix.trans (value.suffix.trans name.suffix))

theorem Parameters.suffix (parameters : Parameters ts us) : us <:+ ts := by
  induction parameters with
  | last name right => exact right.suffix.trans name.suffix
  | more name comma _ ih => exact ih.trans (comma.suffix.trans name.suffix)

theorem ParameterList.suffix (list : ParameterList ts us) : us <:+ ts := by
  cases list with
  | none left right => exact right.suffix.trans left.suffix
  | some left parameters => exact parameters.suffix.trans left.suffix

end Grammar

end Scriptlet
