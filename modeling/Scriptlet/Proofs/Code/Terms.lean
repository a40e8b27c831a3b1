import Scriptlet.Code.Instruction

/-!
The tokens of compiled expressions as trees. A token either stands for itself or is compound
and carries the expressions that follow it in the code, each of them again a row of tokens
behind its count. The words of a row, what it does to the height of the operands, and what it
refers to are functions of the tree.
-/
namespace Scriptlet.Code

inductive Head where
  | call (place : Nat)
  | element (slot : Address)
  | items
  | zeros
  deriving DecidableEq, Repr

inductive Term where
  | literal (place : Nat)
  | load (slot : Address)
  | binary (op : BinaryOp)
  | unary (op : UnaryOp)
  | compound (head : Head) (parts : List (List Term))

def Head.words (head : Head) (n : Nat) : List UInt32 :=
  match head with
  | .call place => [Opcode.call.word, .ofNat place, .ofNat n]
  | .element slot => [Opcode.elementPath.word, slot.pack, .ofNat n]
  | .items => [Opcode.initializeList.word, .ofNat n]
  | .zeros => [Opcode.createList.word]

mutual

def Term.words : Term → List UInt32
  | .literal place => [Opcode.literal.word, .ofNat place]
  | .load slot => [Opcode.load.word, slot.pack]
  | .binary op => [(Opcode.binary op).word]
  | .unary op => [(Opcode.unary op).word]
  | .compound head parts => head.words parts.length ++ partsWords parts

def termsWords : List Term → List UInt32
  | [] => []
  | t :: rest => t.words ++ termsWords rest

def partsWords : List (List Term) → List UInt32
  | [] => []
  | f :: rest => .ofNat f.length :: (termsWords f ++ partsWords rest)

end

theorem termsWords_append (ts us : List Term) :
    termsWords (ts ++ us) = termsWords ts ++ termsWords us := by
  induction ts with
  | nil => simp only [termsWords, List.nil_append]
  | cons t ts ih => simp only [List.cons_append, termsWords, ih, List.append_assoc]

theorem partsWords_append (fs gs : List (List Term)) :
    partsWords (fs ++ gs) = partsWords fs ++ partsWords gs := by
  induction fs with
  | nil => simp only [partsWords, List.nil_append]
  | cons f fs ih => simp only [List.cons_append, partsWords, ih, List.append_assoc]

theorem partsWords_single (f : List Term) : partsWords [f] = .ofNat f.length :: termsWords f := by
  simp only [partsWords, List.append_nil]

theorem termsWords_single (t : Term) : termsWords [t] = t.words := by
  simp only [termsWords, List.append_nil]

theorem Term.words_length_pos (t : Term) : 0 < t.words.length := by
  cases t with
  | compound head parts => cases head <;> simp [Term.words, Head.words]
  | _ => simp [Term.words]

theorem termsWords_length_le (ts : List Term) : ts.length ≤ (termsWords ts).length := by
  induction ts with
  | nil => simp
  | cons t ts ih =>
    have := t.words_length_pos
    simp only [termsWords, List.length_cons, List.length_append]
    omega

theorem partsWords_length_le (fs : List (List Term)) : fs.length ≤ (partsWords fs).length := by
  induction fs with
  | nil => simp
  | cons f fs ih =>
    simp only [partsWords, List.length_cons, List.length_append]
    omega

def Term.effect (h : Nat) : Term → Option Nat
  | .binary _ => if 2 ≤ h then some (h - 1) else none
  | .unary _ => if 1 ≤ h then some h else none
  | _ => some (h + 1)

/-- The height behind a row of tokens, unless one of them lacks an operand. -/
def effect (h : Nat) : List Term → Option Nat
  | [] => some h
  | t :: rest => (t.effect h).bind fun h => effect h rest

theorem effect_append (h : Nat) (ts us : List Term) :
    effect h (ts ++ us) = (effect h ts).bind fun h => effect h us := by
  induction ts generalizing h with
  | nil => rfl
  | cons t ts ih =>
    simp only [List.cons_append, effect]
    cases t.effect h with
    | none => rfl
    | some k => exact ih k

def Pushes (ts : List Term) : Prop := ∀ h, effect h ts = some (h + 1)

theorem pushes_literal (place : Nat) : Pushes [.literal place] := fun _ => rfl

theorem pushes_load (slot : Address) : Pushes [.load slot] := fun _ => rfl

theorem pushes_compound (head : Head) (parts : List (List Term)) :
    Pushes [.compound head parts] := fun _ => rfl

variable {ts us : List Term}

theorem pushes_unary (op : UnaryOp) (operand : Pushes ts) : Pushes (ts ++ [.unary op]) := by
  intro h
  simp [effect_append, operand h, effect, Term.effect]

theorem pushes_binary (op : BinaryOp) (left : Pushes ts) (right : Pushes us) :
    Pushes (ts ++ us ++ [.binary op]) := by
  intro h
  simp [effect_append, left h, right (h + 1), effect, Term.effect]

mutual

def Term.literals : Term → List Nat
  | .literal place => [place]
  | .load _ => []
  | .binary _ => []
  | .unary _ => []
  | .compound _ parts => partsLiterals parts

def termsLiterals : List Term → List Nat
  | [] => []
  | t :: rest => t.literals ++ termsLiterals rest

def partsLiterals : List (List Term) → List Nat
  | [] => []
  | f :: rest => termsLiterals f ++ partsLiterals rest

end

theorem termsLiterals_append (ts us : List Term) :
    termsLiterals (ts ++ us) = termsLiterals ts ++ termsLiterals us := by
  induction ts with
  | nil => simp only [termsLiterals, List.nil_append]
  | cons t ts ih => simp only [List.cons_append, termsLiterals, ih, List.append_assoc]

theorem partsLiterals_append (fs gs : List (List Term)) :
    partsLiterals (fs ++ gs) = partsLiterals fs ++ partsLiterals gs := by
  induction fs with
  | nil => simp only [partsLiterals, List.nil_append]
  | cons f fs ih => simp only [List.cons_append, partsLiterals, ih, List.append_assoc]

theorem termsLiterals_single (t : Term) : termsLiterals [t] = t.literals := by
  simp only [termsLiterals, List.append_nil]

theorem partsLiterals_single (f : List Term) : partsLiterals [f] = termsLiterals f := by
  simp only [partsLiterals, List.append_nil]

/-- The literals, variables, targets of assignments and calls that code may contain. -/
structure References where
  literal : Nat → Prop
  slot : Address → Prop
  target : Address → Prop
  call : (place arguments : Nat) → Prop

structure References.Within (r r' : References) : Prop where
  literal : ∀ place, r.literal place → r'.literal place
  slot : ∀ a, r.slot a → r'.slot a
  target : ∀ a, r.target a → r'.target a
  call : ∀ place arguments, r.call place arguments → r'.call place arguments

theorem References.Within.refl (r : References) : r.Within r :=
  ⟨fun _ => id, fun _ => id, fun _ => id, fun _ _ => id⟩

variable (r : References)

def Head.Valid (n : Nat) : Head → Prop
  | .call place => r.call place n
  | .element slot => r.slot slot
  | .items => True
  | .zeros => n = 1

mutual

def Term.Valid : Term → Prop
  | .literal place => r.literal place
  | .load slot => r.slot slot
  | .binary _ => True
  | .unary _ => True
  | .compound head parts => head.Valid r parts.length ∧ partsValid parts

def termsValid : List Term → Prop
  | [] => True
  | t :: rest => t.Valid ∧ termsValid rest

/-- Every expression starts on operands of its own and never lacks one. -/
def partsValid : List (List Term) → Prop
  | [] => True
  | f :: rest => ((effect 0 f).isSome = true ∧ termsValid f) ∧ partsValid rest

end

variable {r}

theorem termsValid_append : termsValid r (ts ++ us) ↔ termsValid r ts ∧ termsValid r us := by
  induction ts with
  | nil => simp [termsValid]
  | cons t ts ih => simp only [List.cons_append, termsValid, ih, and_assoc]

theorem partsValid_append {fs gs : List (List Term)} :
    partsValid r (fs ++ gs) ↔ partsValid r fs ∧ partsValid r gs := by
  induction fs with
  | nil => simp [partsValid]
  | cons f fs ih => simp only [List.cons_append, partsValid, ih, and_assoc]

theorem partsValid_single {f : List Term} (pushes : Pushes f) (valid : termsValid r f) :
    partsValid r [f] := by
  simp only [partsValid, pushes 0, Option.isSome_some, valid, and_self]

theorem Head.Valid.mono {r' : References} (within : r.Within r') {n : Nat} {head : Head}
    (valid : head.Valid r n) : head.Valid r' n := by
  cases head with
  | call place => exact within.call place n valid
  | element slot => exact within.slot slot valid
  | items => trivial
  | zeros => exact valid

mutual

theorem Term.Valid.mono {r' : References} (within : r.Within r') :
    (t : Term) → t.Valid r → t.Valid r'
  | .literal place, valid => by
    rw [Term.Valid] at valid ⊢
    exact within.literal place valid
  | .load slot, valid => by
    rw [Term.Valid] at valid ⊢
    exact within.slot slot valid
  | .binary _, _ => by simp [Term.Valid]
  | .unary _, _ => by simp [Term.Valid]
  | .compound head parts, valid => by
    rw [Term.Valid] at valid ⊢
    exact ⟨valid.1.mono within, partsValid_mono within parts valid.2⟩

theorem termsValid_mono {r' : References} (within : r.Within r') :
    (ts : List Term) → termsValid r ts → termsValid r' ts
  | [], _ => by simp [termsValid]
  | t :: ts, valid => by
    rw [termsValid] at valid ⊢
    exact ⟨Term.Valid.mono within t valid.1, termsValid_mono within ts valid.2⟩

theorem partsValid_mono {r' : References} (within : r.Within r') :
    (fs : List (List Term)) → partsValid r fs → partsValid r' fs
  | [], _ => by simp [partsValid]
  | f :: fs, valid => by
    rw [partsValid] at valid ⊢
    exact ⟨⟨valid.1.1, termsValid_mono within f valid.1.2⟩, partsValid_mono within fs valid.2⟩

end

end Scriptlet.Code
