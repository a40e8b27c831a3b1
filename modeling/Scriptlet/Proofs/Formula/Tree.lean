import Scriptlet.Proofs.Code.Terms
import Scriptlet.Proofs.Script.Spelling

/-!
Expressions as trees, apart from any text or code. A tree is written out with no more parentheses
than the precedence of its operators needs: chains associate to the left, a power takes as its
exponent whatever a sign may stand in front of. Its code is the tree in postfix order.
-/
namespace Scriptlet.Formula

open Code Script

class Literals (L : Type) where
  lexeme : L → Lexeme
  value : L → Value
  legible : ∀ l, (lexeme l).Legible
  kind : ∀ l, (lexeme l).kind ∈ [Token.Kind.string, .integer, .float]
  reads : ∀ l t, (lexeme l).Matches t → t.literal? = some (value l)
  atom : ∀ l, (value l).isList = false

instance : Literals Empty where
  lexeme l := l.elim
  value l := l.elim
  legible l := l.elim
  kind l := l.elim
  reads l := l.elim
  atom l := l.elim

inductive Tree (L : Type) where
  | literal (l : L)
  | var (name : String)
  | element (name : String) (first : Tree L) (more : List (Tree L))
  | call (name : String) (arguments : List (Tree L))
  | items (elements : List (Tree L))
  | unary (op : UnaryOp) (operand : Tree L)
  | binary (op : BinaryOp) (left right : Tree L)

/-- Higher levels bind tighter. Signs have level 7, operands level 9. -/
def binaryLevel : BinaryOp → Nat
  | .logical .or | .logical .xor => 0
  | .logical .and => 1
  | .relation _ => 3
  | .concat => 4
  | .arithmetic .add | .arithmetic .subtract => 5
  | .arithmetic _ => 6
  | .power => 8

/-- Chains associate to the left, and the base of a power is an operand. -/
def leftLevel : BinaryOp → Nat
  | .power => 9
  | op => binaryLevel op

/-- The right operand binds tighter than its chain, but the exponent of a power may have a sign or
be a power itself. -/
def rightLevel : BinaryOp → Nat
  | .power => 7
  | op => binaryLevel op + 1

variable {L : Type}

def Tree.level : Tree L → Nat
  | .binary op _ _ => binaryLevel op
  | .unary op _ => unaryLevel op
  | _ => 9

def binarySign : BinaryOp → String
  | .arithmetic .add => "+"
  | .arithmetic .subtract => "-"
  | .arithmetic .multiply => "*"
  | .arithmetic .divide => "/"
  | .arithmetic .modulus => "%"
  | .power => "^"
  | .concat => "&"
  | .logical .and => "and"
  | .logical .or => "or"
  | .logical .xor => "xor"
  | .relation .equal => "="
  | .relation .notEqual => "<>"
  | .relation .greater => ">"
  | .relation .greaterOrEqual => ">="
  | .relation .less => "<"
  | .relation .lessOrEqual => "<="

def binaryLexeme (op : BinaryOp) : Lexeme := ⟨.operator op, binarySign op⟩

def leftBracket : Lexeme := ⟨.leftBracket, "["⟩

def rightBracket : Lexeme := ⟨.rightBracket, "]"⟩

def enclosed (level : Nat) (e : Tree L) (lexemes : List Lexeme) : List Lexeme :=
  if e.level < level then .leftParen :: (lexemes ++ [.rightParen]) else lexemes

section Lexemes

variable [Literals L]

mutual

def Tree.lexemes : Tree L → List Lexeme
  | .literal l => [Literals.lexeme l]
  | .var x => [.name x]
  | .element x first more =>
    .name x :: leftBracket :: (first.lexemes ++ rightBracket :: indexLexemes more)
  | .call f arguments => .name f :: .leftParen :: itemLexemes .rightParen arguments
  | .items elements => .leftBrace :: itemLexemes .rightBrace elements
  | .unary op operand => unaryLexeme op :: enclosed (unaryLevel op) operand operand.lexemes
  | .binary op left right =>
    enclosed (leftLevel op) left left.lexemes ++
      binaryLexeme op :: enclosed (rightLevel op) right right.lexemes

def indexLexemes : List (Tree L) → List Lexeme
  | [] => []
  | e :: rest => leftBracket :: (e.lexemes ++ rightBracket :: indexLexemes rest)

def itemLexemes (close : Lexeme) : List (Tree L) → List Lexeme
  | [] => [close]
  | e :: rest => e.lexemes ++ furtherLexemes close rest

def furtherLexemes (close : Lexeme) : List (Tree L) → List Lexeme
  | [] => [close]
  | e :: rest => .comma :: (e.lexemes ++ furtherLexemes close rest)

end

def Tree.lexemesAt (level : Nat) (e : Tree L) : List Lexeme := enclosed level e e.lexemes

/-- The value of literals with nothing but operators between them. -/
def Tree.value? : Tree L → Option Value
  | .literal l => some (Literals.value l)
  | .unary op operand => operand.value?.map op.apply
  | .binary op left right => left.value?.bind fun v => right.value?.map (op.apply v)
  | _ => none

end Lexemes

structure Vocabulary where
  names : String → Bool
  calls : String → Nat → Bool

structure Vocabulary.Named (v : Vocabulary) : Prop where
  names : ∀ x, v.names x = true → isName x = true
  calls : ∀ f n, v.calls f n = true → isName f = true

section Fits

variable (v : Vocabulary)

mutual

def Tree.fits : Tree L → Bool
  | .literal _ => true
  | .var x => v.names x
  | .element x first more => v.names x && first.fits && allFit more
  | .call f arguments => v.calls f arguments.length && allFit arguments
  | .items elements => allFit elements
  | .unary _ operand => operand.fits
  | .binary _ left right => left.fits && right.fits

def allFit : List (Tree L) → Bool
  | [] => true
  | e :: rest => e.fits && allFit rest

end

end Fits

section Postorder

variable (slot : String → Address) (place : String → Nat)

mutual

/-- The tree in postfix order, one token for every node. The expressions of a call, of an element
and of a list are rows of their own below the token. -/
def Tree.postorder : Tree Empty → List Term
  | .literal l => l.elim
  | .var x => [.load (slot x)]
  | .element x first more => [.compound (.element (slot x)) (first.postorder :: allPostorder more)]
  | .call f arguments => [.compound (.call (place f)) (allPostorder arguments)]
  | .items elements => [.compound .items (allPostorder elements)]
  | .unary op operand => operand.postorder ++ [.unary op]
  | .binary op left right => left.postorder ++ right.postorder ++ [.binary op]

def allPostorder : List (Tree Empty) → List (List Term)
  | [] => []
  | e :: rest => e.postorder :: allPostorder rest

end

end Postorder

theorem binary_legible (op : BinaryOp) : (binaryLexeme op).Legible := by
  cases op with
  | arithmetic op => cases op <;> exact legible_of_cut rfl rfl fun _ => rfl
  | logical c => cases c <;> exact word_legible rfl rfl
  | relation r => cases r <;> exact legible_of_cut rfl rfl fun _ => rfl
  | power | concat => exact legible_of_cut rfl rfl fun _ => rfl

theorem leftBracket_legible : leftBracket.Legible := legible_of_cut rfl rfl fun _ => rfl

theorem rightBracket_legible : rightBracket.Legible := legible_of_cut rfl rfl fun _ => rfl

theorem enclosed_legible {ls : List Lexeme} (inner : ∀ l ∈ ls, l.Legible) (level : Nat)
    (e : Tree L) :
    ∀ l ∈ enclosed level e ls, l.Legible := by
  unfold enclosed
  split
  · simp only [List.forall_mem_cons, List.forall_mem_append]
    exact ⟨leftParen_legible, inner, rightParen_legible, by simp⟩
  · exact inner

section Legible

variable [Literals L] {v : Vocabulary}

mutual

theorem Tree.lexemes_legible (named : v.Named) :
    (e : Tree L) → e.fits v = true → ∀ l ∈ e.lexemes, l.Legible
  | .literal l, _ => by
    rw [Tree.lexemes, List.forall_mem_singleton]
    exact Literals.legible l
  | .var x, fits => by
    rw [Tree.fits] at fits
    rw [Tree.lexemes, List.forall_mem_singleton]
    exact name_legible (named.names x fits)
  | .element x first more, fits => by
    simp only [Tree.fits, Bool.and_eq_true] at fits
    simp only [Tree.lexemes, List.forall_mem_cons, List.forall_mem_append]
    exact ⟨name_legible (named.names x fits.1.1), leftBracket_legible,
      first.lexemes_legible named fits.1.2, rightBracket_legible,
        indexLexemes_legible named more fits.2⟩
  | .call f arguments, fits => by
    simp only [Tree.fits, Bool.and_eq_true] at fits
    simp only [Tree.lexemes, List.forall_mem_cons]
    exact ⟨name_legible (named.calls f _ fits.1), leftParen_legible,
      itemLexemes_legible named rightParen_legible arguments fits.2⟩
  | .items elements, fits => by
    rw [Tree.fits] at fits
    simp only [Tree.lexemes, List.forall_mem_cons]
    exact ⟨leftBrace_legible, itemLexemes_legible named rightBrace_legible elements fits⟩
  | .unary op operand, fits => by
    rw [Tree.fits] at fits
    simp only [Tree.lexemes, List.forall_mem_cons]
    exact ⟨unary_legible op, enclosed_legible (operand.lexemes_legible named fits) _ _⟩
  | .binary op left right, fits => by
    simp only [Tree.fits, Bool.and_eq_true] at fits
    simp only [Tree.lexemes, List.forall_mem_append, List.forall_mem_cons]
    exact ⟨enclosed_legible (left.lexemes_legible named fits.1) _ _, binary_legible op,
      enclosed_legible (right.lexemes_legible named fits.2) _ _⟩

theorem indexLexemes_legible (named : v.Named) :
    (es : List (Tree L)) → allFit v es = true → ∀ l ∈ indexLexemes es, l.Legible
  | [], _ => by simp [indexLexemes]
  | e :: rest, fits => by
    simp only [allFit, Bool.and_eq_true] at fits
    simp only [indexLexemes, List.forall_mem_cons, List.forall_mem_append]
    exact ⟨leftBracket_legible, e.lexemes_legible named fits.1, rightBracket_legible,
      indexLexemes_legible named rest fits.2⟩

theorem itemLexemes_legible (named : v.Named) {close : Lexeme} (closes : close.Legible) :
    (es : List (Tree L)) → allFit v es = true → ∀ l ∈ itemLexemes close es, l.Legible
  | [], _ => by
    rw [itemLexemes, List.forall_mem_singleton]
    exact closes
  | e :: rest, fits => by
    simp only [allFit, Bool.and_eq_true] at fits
    simp only [itemLexemes, List.forall_mem_append]
    exact ⟨e.lexemes_legible named fits.1, furtherLexemes_legible named closes rest fits.2⟩

theorem furtherLexemes_legible (named : v.Named) {close : Lexeme} (closes : close.Legible) :
    (es : List (Tree L)) → allFit v es = true → ∀ l ∈ furtherLexemes close es, l.Legible
  | [], _ => by
    rw [furtherLexemes, List.forall_mem_singleton]
    exact closes
  | e :: rest, fits => by
    simp only [allFit, Bool.and_eq_true] at fits
    simp only [furtherLexemes, List.forall_mem_cons, List.forall_mem_append]
    exact ⟨comma_legible, e.lexemes_legible named fits.1,
      furtherLexemes_legible named closes rest fits.2⟩

end

end Legible

end Scriptlet.Formula
