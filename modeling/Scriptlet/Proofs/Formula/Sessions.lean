import Scriptlet.Proofs.Formula.Tree
import Scriptlet.Proofs.Script.Sessions

/-!
What a session has to know to read an expression, and what its code is. A name is a variable of the
function or becomes one, and what is called is a function of the source or one that the registry
offers. What a name stands for is never changed, so the code of a part of an expression is its code
in the whole.
-/
namespace Scriptlet.Formula

open Actions Code Compile Script

variable {s s' t : Session} {L : Type} {f : String} {n : Nat}

def Offers (s : Session) (f : String) (n : Nat) : Prop :=
  functionKey f = f ∧ ∃ i h, s.functions.place? f = some i ∧
    s.functions.entries[i]? = some (.offered h) ∧ (h.arity?.getD .any).admits n = true

theorem Offers.of_append {more : NameTable Callee} (offers : Offers s f n)
    (functions : s'.functions = s.functions ++ more) : Offers s' f n := by
  obtain ⟨key, i, h, placed, entry, admits⟩ := offers
  refine ⟨key, i, h, ?_, ?_, admits⟩
  · rw [functions]
    exact place?_append placed
  · have inside : i < (s.functions.map (·.2)).length := by simpa using place?_lt placed
    rw [functions, NameTable.entries, List.map_append, List.getElem?_append_left inside]
    exact entry

structure Setting where
  signature : Signature
  words : Vocabulary
  budget : Nat

/-- Everything in the vocabulary means something. -/
structure Speaks (σ : Setting) (s : Session) : Prop extends Inside σ.signature σ.budget s where
  slots : ∀ x, σ.words.names x = true →
    (∃ a, s.naming.slot x a) ∨ σ.signature.isVariable x = true
  callees : ∀ f n, σ.words.calls f n = true →
    σ.signature.functions.lookup f = some n ∨ Offers s f n

variable {σ : Setting} {x : String} {es : List (Tree L)} {fs : List (List Term)}

theorem Speaks.of_grows (speaks : Speaks σ s) (grows : Grows s s')
    (inside : Inside σ.signature σ.budget s') : Speaks σ s' := by
  refine ⟨inside, fun x known => ?_, fun f n known => ?_⟩
  · refine (speaks.slots x known).imp_left fun found => ?_
    obtain ⟨a, found⟩ := found
    exact ⟨a, grows.naming.slot x a found⟩
  · obtain ⟨more, functions, _⟩ := grows.functions
    exact (speaks.callees f n known).imp_right fun offers => offers.of_append functions

theorem Speaks.of_reads (speaks : Speaks σ s) (reads : Reads s s') : Speaks σ s' :=
  speaks.of_grows reads.emits.grows (speaks.toInside.of_reads reads)

theorem Speaks.of_code (speaks : Speaks σ s) (tokens : TokenStream) (writer : CodeWriter)
    (literals : Array Value) : Speaks σ { s with tokens, writer, literals } :=
  ⟨speaks.toInside.of_code tokens writer literals, speaks.slots, speaks.callees⟩

theorem Speaks.of_writer (speaks : Speaks σ s) (writer : CodeWriter) : Speaks σ { s with writer } :=
  speaks.of_code s.tokens writer s.literals

theorem lookup?_of_slot {a : Address} (slot : s.naming.slot x a) : s.lookup? x = some a := by
  change s.scope.bind (·.resolve? x) = some a at slot
  rw [Session.lookup?, slot]

theorem Speaks.no_call (speaks : Speaks σ s) (known : σ.words.names x = true) :
    ((s.lookup? x).isNone && s.functions.contains (functionKey x)) = false := by
  rcases speaks.slots x known with ⟨a, slot⟩ | var
  · rw [lookup?_of_slot slot]
    rfl
  · rw [functionKey, isMain_of_isVariable var]
    simp only [Bool.false_eq_true, ↓reduceIte]
    rw [contains_false_of_names (speaks.not_function var), Bool.and_false]

theorem variableAddress_speaks {tok : Token} (speaks : Speaks σ s)
    (known : σ.words.names tok.lexeme = true) :
    ∃ a s', variableAddress tok s = .ok a s' ∧ Speaks σ s' ∧ s'.tokens = s.tokens ∧
      s'.naming.slot tok.lexeme a := by
  rcases speaks.slots _ known with ⟨a, slot⟩ | var
  · refine ⟨a, s, ?_, speaks, rfl, slot⟩
    rw [variableAddress, get_bind, lookup?_of_slot slot]
    rfl
  · obtain ⟨a, s', found, names, slot, _⟩ := variableAddress_names speaks.toInside var
    have grows := (variableAddress_ok found).1.grows
    exact ⟨a, s', found, speaks.of_grows grows names.inside, names.tokens, slot⟩

theorem functionPlace_speaks (speaks : Speaks σ s) (known : σ.words.calls f n = true) :
    ∃ i s', functionPlace f s = .ok i s' ∧ Speaks σ s' ∧ s'.tokens = s.tokens ∧
    s'.naming.place f i := by
  rcases speaks.callees f n known with own | offers
  · obtain ⟨i, s', placed, ready, tokens, scope, place⟩ := functionPlace_names speaks.toReady own
    exact ⟨i, s', placed, speaks.of_grows (functionPlace_ok placed).1.grows
      ⟨ready, scope ▸ speaks.scope⟩, tokens, place⟩
  · obtain ⟨key, i, h, placed, _⟩ := offers
    refine ⟨i, s, ?_, speaks, rfl, placed⟩
    rw [functionPlace, get_bind, key, placed]
    rfl

theorem checkCall_speaks {place : Nat} (tok : Token) (speaks : Speaks σ s)
    (known : σ.words.calls f n = true) (placed : s.naming.place f place) :
    ∃ s', checkCall place tok n s = .ok () s' ∧ Speaks σ s' ∧ s'.tokens = s.tokens ∧
      s'.naming = s.naming := by
  rcases speaks.callees f n known with own | offers
  · obtain ⟨s', checked, ready, tokens, scope, naming⟩ :=
      checkCall_names tok speaks.toReady own placed
    exact ⟨s', checked, speaks.of_grows (checkCall_ok checked).1.grows
      ⟨ready, scope ▸ speaks.scope⟩, tokens, naming⟩
  · obtain ⟨key, i, h, there, entry, admits⟩ := offers
    obtain rfl : i = place := Option.some.inj (there.symm.trans placed)
    refine ⟨s, ?_, speaks, rfl, rfl⟩
    rw [checkCall, get_bind, entry]
    simp only [(Arity.violation?_eq_none_iff _ _).mpr admits]
    rfl

variable (r : Naming) [Literals L]

mutual

/-- The code of a tree. Literals and operators between them are one literal of the pool. -/
inductive Codes : Tree L → List Term → Prop where
  | constant {e : Tree L} {v w : Value} {i : Nat} : e.value? = some v → r.literal i w →
      StandsFor w v → Codes e [.literal i]
  | var {x : String} {a : Address} : r.slot x a → Codes (.var x) [.load a]
  | element {x : String} {a : Address} {first : Tree L} {more : List (Tree L)}
      {fs : List (List Term)} :
      r.slot x a → CodesAll (first :: more) fs →
      Codes (.element x first more) [.compound (.element a) fs]
  | call {f : String} {place : Nat} {es : List (Tree L)} {fs : List (List Term)} :
      r.place f place → CodesAll es fs → Codes (.call f es) [.compound (.call place) fs]
  | items {es : List (Tree L)} {fs : List (List Term)} : CodesAll es fs →
      Codes (.items es) [.compound .items fs]
  | unary {op : UnaryOp} {operand : Tree L} {ts : List Term} : Codes operand ts →
      Codes (.unary op operand) (ts ++ [.unary op])
  | binary {op : BinaryOp} {left right : Tree L} {ts us : List Term} : Codes left ts →
      Codes right us → Codes (.binary op left right) (ts ++ us ++ [.binary op])

inductive CodesAll : List (Tree L) → List (List Term) → Prop where
  | nil : CodesAll [] []
  | cons {e : Tree L} {es : List (Tree L)} {f : List Term} {fs : List (List Term)} : Codes e f →
      CodesAll es fs → CodesAll (e :: es) (f :: fs)

end

variable {r}

mutual

theorem Codes.mono {r' : Naming} (within : r.Within r') {e : Tree L} {ts : List Term} :
    Codes r e ts → Codes r' e ts
  | .constant value found stands => .constant value (within.literal _ _ found) stands
  | .var slot => .var (within.slot _ _ slot)
  | .element slot all => .element (within.slot _ _ slot) (all.mono within)
  | .call place all => .call (within.place _ _ place) (all.mono within)
  | .items all => .items (all.mono within)
  | .unary operand => .unary (operand.mono within)
  | .binary left right => .binary (left.mono within) (right.mono within)

theorem CodesAll.mono {r' : Naming} (within : r.Within r') {es : List (Tree L)}
    {fs : List (List Term)} : CodesAll r es fs → CodesAll r' es fs
  | .nil => .nil
  | .cons first rest => .cons (first.mono within) (rest.mono within)

end

theorem CodesAll.append {es' : List (Tree L)} {fs' : List (List Term)} (first : CodesAll r es fs)
    (second : CodesAll r es' fs') : CodesAll r (es ++ es') (fs ++ fs') := by
  induction es generalizing fs with
  | nil =>
    cases first
    exact second
  | cons e es ih =>
    cases first with
    | cons head rest => exact .cons head (ih rest)

theorem CodesAll.length_eq (all : CodesAll r es fs) : fs.length = es.length := by
  induction es generalizing fs with
  | nil =>
    cases all
    rfl
  | cons e es ih =>
    cases all with
    | cons head rest => rw [List.length_cons, List.length_cons, ih rest]

theorem Tree.value?_free : (e : Tree Empty) → e.value? = none
  | .literal l => l.elim
  | .var _ => rfl
  | .element _ _ _ => rfl
  | .call _ _ => rfl
  | .items _ => rfl
  | .unary _ operand => by rw [Tree.value?, operand.value?_free]; rfl
  | .binary _ left _ => by rw [Tree.value?, left.value?_free]; rfl

section Free

variable {v : Vocabulary} {slot : String → Address} {place : String → Nat}

mutual

theorem Codes.postorder (slots : ∀ x a, v.names x = true → r.slot x a → slot x = a)
    (places : ∀ f i, r.place f i → place f = i) {e : Tree Empty} {ts : List Term} :
    Codes r e ts → e.fits v = true → ts = e.postorder slot place
  | .constant value _ _, _ => by
    rw [Tree.value?_free] at value
    cases value
  | .var found, fits => by
    rw [Tree.fits] at fits
    rw [Tree.postorder, slots _ _ fits found]
  | .element found all, fits => by
    simp only [Tree.fits, Bool.and_eq_true] at fits
    have parts := all.postorder slots places
      (by simp only [allFit, fits.1.2, fits.2, Bool.and_self])
    rw [allPostorder] at parts
    rw [Tree.postorder, slots _ _ fits.1.1 found, parts]
  | .call found all, fits => by
    simp only [Tree.fits, Bool.and_eq_true] at fits
    rw [Tree.postorder, places _ _ found, all.postorder slots places fits.2]
  | .items all, fits => by
    rw [Tree.fits] at fits
    rw [Tree.postorder, all.postorder slots places fits]
  | .unary operand, fits => by
    rw [Tree.fits] at fits
    rw [Tree.postorder, operand.postorder slots places fits]
  | .binary left right, fits => by
    simp only [Tree.fits, Bool.and_eq_true] at fits
    rw [Tree.postorder, left.postorder slots places fits.1, right.postorder slots places fits.2]

theorem CodesAll.postorder (slots : ∀ x a, v.names x = true → r.slot x a → slot x = a)
    (places : ∀ f i, r.place f i → place f = i) {es : List (Tree Empty)} {fs : List (List Term)} :
    CodesAll r es fs → allFit v es = true → fs = allPostorder slot place es
  | .nil, _ => by rw [allPostorder]
  | .cons first rest, fits => by
    simp only [allFit, Bool.and_eq_true] at fits
    rw [allPostorder, first.postorder slots places fits.1, rest.postorder slots places fits.2]

end

end Free

end Scriptlet.Formula
