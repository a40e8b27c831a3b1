import Scriptlet.Proofs.Formula.Operands

/-!
Expressions of a script compile. As formulas they have integers for literals and names for
everything else, and they are written out in the same way, so what is known of formulas holds of
them. A constant part comes to the integer that it has in every environment.
-/
namespace Scriptlet.Script

open Code Compile

abbrev Numeral := Fin (2 ^ 31)

instance : Formula.Literals Numeral where
  lexeme n := .number n
  value n := .integer (Int32.ofNat n)
  legible n := number_legible n
  kind _ := by simp [Lexeme.number]
  reads n _ read := number_literal n.isLt read
  atom _ := rfl

mutual

def Expr.formula : Expr → Formula.Tree Numeral
  | .literal n => .literal n
  | .var x => .var x
  | .call f arguments => .call f (formulas arguments)
  | .binary op left right => .binary op.binary left.formula right.formula
  | .unary op operand => .unary op operand.formula

def formulas : List Expr → List (Formula.Tree Numeral)
  | [] => []
  | e :: rest => e.formula :: formulas rest

end

theorem formulas_length (es : List Expr) : (formulas es).length = es.length := by
  induction es with
  | nil => rfl
  | cons e es ih => rw [formulas, List.length_cons, List.length_cons, ih]

theorem binaryLevel_binary (op : Operator) :
    Formula.binaryLevel op.binary = op.level ∧ op.level < 7 := by
  cases op with
  | arithmetic op => cases op <;> decide
  | logical c => cases c <;> decide
  | relation r => exact ⟨rfl, by simp [Operator.level]⟩

theorem binaryLexeme_binary (op : Operator) : Formula.binaryLexeme op.binary = op.lexeme := by
  cases op with
  | arithmetic op => cases op <;> rfl
  | logical c => cases c <;> rfl
  | relation r => cases r <;> rfl

variable {level : Nat} {w : Value}

/-- Powers have a level of their own, but there are none in a script. -/
theorem formula_level {e : Expr} (low : level ≤ 8) : e.formula.level < level ↔ e.level < level := by
  cases e with
  | binary op left right =>
    rw [Expr.formula, Formula.Tree.level, (binaryLevel_binary op).1]
    rfl
  | unary op operand =>
    rw [Expr.formula]
    rfl
  | _ =>
    simp only [Expr.formula, Formula.Tree.level, Expr.level]
    omega

theorem formula_enclosed {e : Expr} (low : level ≤ 8) (ls : List Lexeme) :
    Formula.enclosed level e.formula ls = enclosed level e ls := by
  simp only [Formula.enclosed, enclosed, formula_level low]

theorem unaryLevel_le (op : UnaryOp) : unaryLevel op ≤ 8 := by
  cases op <;> decide

mutual

theorem Expr.formula_lexemes : (e : Expr) → e.formula.lexemes = e.lexemes
  | .literal n => by
    rw [Expr.formula, Formula.Tree.lexemes, Expr.lexemes]
    rfl
  | .var x => by rw [Expr.formula, Formula.Tree.lexemes, Expr.lexemes]
  | .call f arguments => by
    rw [Expr.formula, Formula.Tree.lexemes, Expr.lexemes, formulas_lexemes]
  | .binary op left right => by
    obtain ⟨level, low⟩ := binaryLevel_binary op
    obtain ⟨same, next⟩ := Formula.chain_levels (level ▸ low)
    rw [Expr.formula, Formula.Tree.lexemes, Expr.lexemes, same, next, level, binaryLexeme_binary,
      formula_enclosed (by omega), formula_enclosed (by omega), left.formula_lexemes,
      right.formula_lexemes]
  | .unary op operand => by
    rw [Expr.formula, Formula.Tree.lexemes, Expr.lexemes, formula_enclosed (unaryLevel_le op),
      operand.formula_lexemes]

theorem formulas_lexemes : (es : List Expr) →
    Formula.itemLexemes .rightParen (formulas es) = argumentLexemes es
  | [] => by rw [formulas, Formula.itemLexemes, argumentLexemes]
  | e :: rest => by
    rw [formulas, Formula.itemLexemes, argumentLexemes, e.formula_lexemes, formulas_further]

theorem formulas_further : (es : List Expr) →
    Formula.furtherLexemes .rightParen (formulas es) = furtherLexemes es
  | [] => by rw [formulas, Formula.furtherLexemes, furtherLexemes]
  | e :: rest => by
    rw [formulas, Formula.furtherLexemes, furtherLexemes, e.formula_lexemes, formulas_further]

end

def setting (g : Signature) (budget : Nat) : Formula.Setting where
  signature := g
  words := ⟨g.isVariable, fun f n => g.functions.lookup f == some n⟩
  budget := budget

variable {g : Signature} {budget : Nat}

theorem speaks_of_inside {s : Session} (inside : Inside g budget s) :
    Formula.Speaks (setting g budget) s :=
  ⟨inside, fun _ var => Or.inr var, fun _ _ known => Or.inl (eq_of_beq known)⟩

mutual

theorem Expr.formula_fits :
    (e : Expr) → e.fits g = true → e.formula.fits (setting g budget).words = true
  | .literal n, _ => by rw [Expr.formula, Formula.Tree.fits]
  | .var x, fits => by
    rw [Expr.fits] at fits
    rwa [Expr.formula, Formula.Tree.fits]
  | .call f arguments, fits => by
    rw [Expr.fits, Bool.and_eq_true] at fits
    rw [Expr.formula, Formula.Tree.fits, Bool.and_eq_true, formulas_length]
    exact ⟨fits.1, formulas_fit arguments fits.2⟩
  | .binary op left right, fits => by
    rw [Expr.fits, Bool.and_eq_true] at fits
    rw [Expr.formula, Formula.Tree.fits, Bool.and_eq_true]
    exact ⟨left.formula_fits fits.1, right.formula_fits fits.2⟩
  | .unary op operand, fits => by
    rw [Expr.fits] at fits
    rw [Expr.formula, Formula.Tree.fits]
    exact operand.formula_fits fits

theorem formulas_fit : (es : List Expr) → allFit g es = true →
    Formula.allFit (setting g budget).words (formulas es) = true
  | [], _ => by rw [formulas, Formula.allFit]
  | e :: rest, fits => by
    rw [allFit, Bool.and_eq_true] at fits
    rw [formulas, Formula.allFit, Bool.and_eq_true]
    exact ⟨e.formula_fits fits.1, formulas_fit rest fits.2⟩

end

theorem Expr.fixed_of_value? {v : Value} : (e : Expr) → e.formula.value? = some v →
    ∃ n, v = .integer n ∧ e.Fixed n
  | .literal n, value => by
    rw [Expr.formula, Formula.Tree.value?] at value
    exact ⟨_, (Option.some.inj value).symm, fun _ _ => rfl⟩
  | .var x, value => by simp [Expr.formula, Formula.Tree.value?] at value
  | .call f arguments, value => by simp [Expr.formula, Formula.Tree.value?] at value
  | .binary op left right, value => by
    rw [Expr.formula, Formula.Tree.value?, Option.bind_eq_some_iff] at value
    obtain ⟨w, first, value⟩ := value
    obtain ⟨w', second, rfl⟩ := Option.map_eq_some_iff.mp value
    obtain ⟨n, rfl, fixed⟩ := left.fixed_of_value? first
    obtain ⟨n', rfl, fixed'⟩ := right.fixed_of_value? second
    refine ⟨op.apply n n', op.binary_apply n n', fun calls env => ?_⟩
    rw [Expr.eval, fixed calls env, fixed' calls env, Option.bind_some, Option.map_some]
  | .unary op operand, value => by
    rw [Expr.formula, Formula.Tree.value?, Option.map_eq_some_iff] at value
    obtain ⟨w, value, rfl⟩ := value
    obtain ⟨n, rfl, fixed⟩ := operand.fixed_of_value? value
    refine ⟨signed n op, unary_apply op n, fun calls env => ?_⟩
    rw [Expr.eval, fixed calls env, Option.map_some]

theorem standsFor_integer {n : Int32} (stands : StandsFor w (.integer n)) : w = .integer n := by
  rcases stands with same | same
  · exact same
  · match w, same with
    | .integer m, same => rw [eq_of_beq (show (m == n) = true from same)]

theorem constant_codes {r : Naming} (e : Expr) {v : Value} {i : Nat}
    (value : e.formula.value? = some v) (found : r.literal i w) (stands : StandsFor w v) :
    Codes r e [.literal i] := by
  obtain ⟨n, rfl, fixed⟩ := e.fixed_of_value? value
  rw [standsFor_integer stands] at found
  exact .fixed fixed found

mutual

theorem Expr.codes_of_formula {r : Naming} {ts : List Term} : (e : Expr) →
    Formula.Codes r e.formula ts → Codes r e ts
  | .literal n, codes => by
    rw [Expr.formula] at codes
    cases codes with
    | constant value found stands => exact constant_codes (.literal n) value found stands
  | .var x, codes => by
    rw [Expr.formula] at codes
    cases codes with
    | constant value found stands => exact constant_codes (.var x) value found stands
    | var slot => exact .var slot
  | .call f arguments, codes => by
    rw [Expr.formula] at codes
    cases codes with
    | constant value found stands => exact constant_codes (.call f arguments) value found stands
    | call place all => exact .call place (codesAll_of_formulas arguments all)
  | .binary op left right, codes => by
    rw [Expr.formula] at codes
    cases codes with
    | constant value found stands => exact constant_codes (.binary op left right) value found stands
    | binary first second =>
      exact .binary (left.codes_of_formula first) (right.codes_of_formula second)
  | .unary op operand, codes => by
    rw [Expr.formula] at codes
    cases codes with
    | constant value found stands => exact constant_codes (.unary op operand) value found stands
    | unary inner => exact .unary (operand.codes_of_formula inner)

theorem codesAll_of_formulas {r : Naming} {fs : List (List Term)} : (es : List Expr) →
    Formula.CodesAll r (formulas es) fs → CodesAll r es fs
  | [], all => by
    rw [formulas] at all
    cases all
    exact .nil
  | e :: rest, all => by
    rw [formulas] at all
    cases all with
    | cons first others => exact .cons (e.codes_of_formula first) (codesAll_of_formulas rest others)

end

end Scriptlet.Script

namespace Scriptlet.Compile

open Actions Code Script

variable {s s' : Session} {g : Signature} {budget : Nat} {rest : List Lexeme}

theorem inside_of_speaks (speaks : Formula.Speaks (setting g budget) s) : Inside g budget s :=
  speaks.toInside

structure Valued (g : Signature) (budget : Nat) (s s' : Session) (rest : List Lexeme) (e : Expr)
    (f : List Term) : Prop where
  inside : Inside g budget s'
  ahead : Ahead rest s'.tokens
  writes : WritesParts s s' [f]
  codes : Codes s'.naming e f

theorem expression_valued (e : Expr) (s : Session) (rest : List Lexeme) (fits : e.fits g = true)
    (small : e.lexemes.length < budget) (inside : Inside g budget s)
    (ahead : Ahead (e.lexemes ++ rest) s.tokens) (stops : Stops 0 rest) :
    ∃ f s', expression s = .ok () s' ∧ Valued g budget s s' rest e f := by
  rw [← e.formula_lexemes] at small ahead
  obtain ⟨f, s', ran, listed⟩ := Formula.expression_lists (σ := setting g budget) e.formula s rest
    (e.formula_fits fits) small (speaks_of_inside inside) ahead stops
  refine ⟨f, s', ran, inside_of_speaks listed.speaks, listed.ahead, listed.writes, ?_⟩
  cases listed.codes with
  | cons first _ => exact e.codes_of_formula first

theorem openFormula_outcome (e : Expr) (fits : e.fits g = true) (small : e.lexemes.length < budget)
    (inside : Inside g budget s) (ahead : Ahead (e.lexemes ++ rest) s.tokens)
    (stops : Stops 0 rest) :
    ∃ c s' ts, openFormula s = .ok c s' ∧ Inside g budget s' ∧ Ahead rest s'.tokens ∧
      Outcome s s' c ts ∧ Codes s'.naming e ts := by
  rw [← e.formula_lexemes, ← Formula.lexemesAt_zero] at small ahead
  obtain ⟨c, s', ran, compiled⟩ := Formula.formula_parses (σ := setting g budget) budget
    e.formula s rest (e.formula_fits fits) small (speaks_of_inside inside) ahead stops
  obtain ⟨ts, outcome, codes⟩ := compiled.coded
  refine ⟨c, s', ts, ?_, inside_of_speaks compiled.speaks, compiled.ahead, outcome,
    e.codes_of_formula codes⟩
  rw [openFormula, get_bind, inside.budget, ran]

theorem callOf_calls {tok : Token} {es : List Expr}
    (known : g.functions.lookup tok.lexeme = some es.length) (fits : allFit g es = true)
    (small : (argumentLexemes es).length ≤ budget) (inside : Inside g budget s)
    (ahead : Ahead (argumentLexemes es ++ rest) s.tokens) : ∃ place fs s', callOf .callStatement tok
        (itemsOrNone budget .rightParen .expectedRightParen expression) s = .ok () s' ∧
      Inside g budget s' ∧ Ahead rest s'.tokens ∧ Emits s s' (Plain.call place fs).words 1 ∧
      (Plain.call place fs).Valid s'.references ∧ s'.naming.place tok.lexeme place ∧
      CodesAll s'.naming es fs := by
  rw [← formulas_lexemes] at small ahead
  have known : (setting g budget).words.calls tok.lexeme (formulas es).length = true := by
    rw [formulas_length]
    exact beq_iff_eq.mpr known
  obtain ⟨place, fs, s', ran, calling⟩ := Formula.callOf_calls .callStatement known
    (fun t speaks ahead => Formula.itemsOrNone_lists Formula.closes_rightParen .expectedRightParen
      Formula.expression_lists (formulas_fit es fits) small small speaks ahead)
    (speaks_of_inside inside) ahead
  exact ⟨place, fs, s', ran, inside_of_speaks calling.speaks, calling.ahead, calling.emits,
    ⟨calling.admits, calling.valid⟩, calling.placed, codesAll_of_formulas es calling.codes⟩

theorem returnStatement_returns {e : Expr} (fits : e.fits g = true)
    (small : e.lexemes.length < budget) (inside : Inside g budget s)
    (ahead : Ahead (e.lexemes ++ .lineBreak :: rest) s.tokens) :
    ∃ f s', returnStatement s = .ok () s' ∧ Inside g budget s' ∧
    Ahead (.lineBreak :: rest) s'.tokens ∧
      Emits s s' (Plain.returnValue f).words 1 ∧ (Plain.returnValue f).Valid s'.references ∧
      Codes s'.naming e f := by
  rw [← e.formula_lexemes] at small ahead
  obtain ⟨f, s', ran, speaks, ahead, emits, valid, codes⟩ := Formula.returnStatement_returns
    (σ := setting g budget) (e.formula_fits fits) small (speaks_of_inside inside) ahead
  exact ⟨f, s', ran, inside_of_speaks speaks, ahead, emits, valid, e.codes_of_formula codes⟩

end Scriptlet.Compile
