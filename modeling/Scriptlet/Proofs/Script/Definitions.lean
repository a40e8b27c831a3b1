import Scriptlet.Proofs.Compile.Programs
import Scriptlet.Proofs.Script.Sessions

/-!
The definition of a function, stage by stage. It takes its place in the function table, its
parameters are listed, and its body becomes code. None of this fails for a script that makes sense.
-/
namespace Scriptlet.Compile

open Actions Code Script

variable {s s' t : Session} {g : Signature} {budget limit : Nat} {rest : List Lexeme} {x : Scope}
  {f : String} {n : Nat}

section Tables

variable {α : Type} {table : NameTable α} {name other : String} {i : Nat}

theorem place?_eq (table : NameTable α) (name : String) :
    table.place? name = (table.map (·.1)).findIdx? (· == name) := by
  rw [List.findIdx?_map]
  rfl

theorem keys_modifyAt (table : NameTable α) (i : Nat) (f : α → α) :
    (table.modifyAt i f).map (·.1) = table.map (·.1) := by
  apply List.ext_getElem?
  intro q
  simp only [NameTable.modifyAt, List.getElem?_map, List.getElem?_modify]
  by_cases same : i = q
  · cases table[q]? <;> simp [same]
  · cases table[q]? <;> simp [same]

theorem place?_modifyAt (table : NameTable α) (i : Nat) (f : α → α) (name : String) :
    (table.modifyAt i f).place? name = table.place? name := by
  rw [place?_eq, place?_eq, keys_modifyAt]

theorem place?_inj (found : table.place? name = some i) (found' : table.place? other = some i) :
    name = other := by
  obtain ⟨_, first, _⟩ := List.findIdx?_eq_some_iff_getElem.mp found
  obtain ⟨_, second, _⟩ := List.findIdx?_eq_some_iff_getElem.mp found'
  exact (eq_of_beq first).symm.trans (eq_of_beq second)

end Tables

theorem Ready.modifyAt (ready : Ready g budget s) (place : Nat) (f : Callee → Callee)
    (kept : ∀ c h, f c = .offered h → ∃ h', c = .offered h') :
    Ready g budget { s with functions := s.functions.modifyAt place f } where
  keys := ready.keys
  globals := ready.globals
  names entry member := by
    have key : entry.1 ∈ (s.functions.modifyAt place f).map (·.1) := List.mem_map_of_mem member
    rw [keys_modifyAt] at key
    obtain ⟨old, there, same⟩ := List.mem_map.mp key
    rw [← same]
    exact ready.names old there
  own name n i h known placed entry := by
    rw [place?_modifyAt] at placed
    have before := ready.own name n i
    rw [entries_modifyAt] at entry
    split at entry
    · obtain ⟨c, old, same⟩ := Option.map_eq_some_iff.mp entry
      obtain ⟨h', rfl⟩ := kept c h same
      exact before h' known placed old
    · exact before h known placed entry
  calls c noted := by
    obtain ⟨name, arguments, placed⟩ := ready.calls c noted
    exact ⟨name, arguments, (place?_modifyAt _ _ _ _).trans placed⟩
  clean := ready.clean
  budget := ready.budget

theorem declaredName_sees {x : String} (other : Token.isMain x = false)
    (ahead : Ahead (.name x :: rest) s.tokens) :
    ∃ tok s', declaredName s = .ok tok s' ∧ tok.lexeme = x ∧ Ahead rest s'.tokens := by
  obtain ⟨tok, s', taken, read, ahead⟩ := expect_sees .symbol .expectedSymbol rfl ahead
  have same : tok.lexeme = x := read.2 (by simp [Lexeme.name])
  refine ⟨tok, s', ?_, same, ahead⟩
  rw [declaredName, bind_ok _ taken, same, other]
  rfl

theorem parameterLexemes_cons (x y : String) (xs : List String) :
    parameterLexemes (x :: y :: xs) = .name x :: .comma :: parameterLexemes (y :: xs) :=
  parameterLexemes.eq_3 x (y :: xs) (by simp)

theorem parameters_lists (n : Nat) : ∀ (xs : List String) (x : Scope) (s : Session), xs ≠ [] →
    (parameterLexemes xs).length ≤ n → (∀ y ∈ xs, Token.isMain y = false) → xs.Nodup →
    (∀ y ∈ xs, x.declares y = false) → Ahead (parameterLexemes xs ++ rest) s.tokens →
    ∃ s', parameters n x s = .ok { x with parameters := x.parameters ++ xs } s' ∧
      Ahead rest s'.tokens ∧ Reads s s' := by
  induction n with
  | zero =>
    intro xs x s some_ short
    rcases xs with _ | ⟨y, _ | ⟨z, zs⟩⟩
    · exact absurd rfl some_
    · simp [parameterLexemes] at short
    · simp [parameterLexemes_cons] at short
  | succ n ih =>
    intro xs x s some_ short vars distinct new ahead
    rcases xs with _ | ⟨y, _ | ⟨z, zs⟩⟩
    · exact absurd rfl some_
    · rw [parameterLexemes] at ahead
      obtain ⟨tok, s₁, named, rfl, behind⟩ := declaredName_sees (vars y (by simp)) ahead
      obtain ⟨s₂, closed, ahead⟩ := accept_sees .rightParen rfl behind
      have fresh := new tok.lexeme (by simp)
      refine ⟨s₂, ?_, ahead, (declaredName_reads named).1.trans (accept_reads closed).1⟩
      rw [parameters, bind_ok _ named, parameter_new fresh]
      refine (bind_ok _ closed).trans ?_
      rfl
    · rw [parameterLexemes_cons, List.cons_append, List.cons_append] at ahead
      rw [parameterLexemes_cons, List.length_cons, List.length_cons] at short
      obtain ⟨tok, s₁, named, rfl, behind⟩ := declaredName_sees (vars y (by simp)) ahead
      obtain ⟨s₂, goes, ahead⟩ := accept_misses .rightParen (by decide) behind
      obtain ⟨_, s₃, comma, _, ahead⟩ := expect_sees .comma .expectedRightParen rfl ahead
      have fresh := new tok.lexeme (by simp)
      obtain ⟨apart, distinct⟩ := List.nodup_cons.mp distinct
      -- The names to come stay new, because they differ from the one just added.
      have later : ∀ w ∈ z :: zs,
          Scope.declares { x with parameters := x.parameters ++ [tok.lexeme] } w = false := by
        intro w member
        have old := new w (List.mem_cons_of_mem _ member)
        have other : ¬w = tok.lexeme := by
          rintro rfl
          exact apart member
        simp only [Scope.declares, Bool.or_eq_false_iff] at old ⊢
        simp_all
      obtain ⟨s', ran, ahead, reads⟩ := ih (z :: zs) _ s₃ (by simp) (by omega)
        (fun w member => vars w (List.mem_cons_of_mem _ member)) distinct later ahead
      refine ⟨s', ?_, ahead, (((declaredName_reads named).1.trans (accept_reads goes).1).trans
        (expect_reads comma).1).trans reads⟩
      rw [parameters, bind_ok _ named, parameter_new fresh]
      refine (bind_ok _ goes).trans ?_
      simp only [Bool.false_eq_true, ↓reduceIte]
      rw [bind_ok _ (discard_ok comma), ran]
      simp

theorem parameterList_lists {xs : List String} (none_ : x.parameters = []) (free : x.locals = [])
    (vars : ∀ y ∈ xs, Token.isMain y = false) (distinct : xs.Nodup)
    (short : (parameterLexemes xs).length ≤ budget) (ready : Ready g budget s)
    (ahead : Ahead (.leftParen :: (parameterLexemes xs ++ rest)) s.tokens) :
    ∃ s', parameterList x s = .ok { x with parameters := xs } s' ∧ Ahead rest s'.tokens ∧
    Reads s s' := by
  obtain ⟨_, s₁, opened, _, ahead⟩ := expect_sees .leftParen .expectedLeftParen rfl ahead
  have reads₁ := (expect_reads opened).1
  rw [parameterList, bind_ok _ (discard_ok opened)]
  cases xs with
  | nil =>
    obtain ⟨s', closed, ahead⟩ := accept_sees .rightParen rfl ahead
    refine ⟨s', ?_, ahead, reads₁.trans (accept_reads closed).1⟩
    rw [bind_ok _ closed, ← none_]
    rfl
  | cons y ys =>
    obtain ⟨ls, row⟩ : ∃ ls, parameterLexemes (y :: ys) = .name y :: ls := by
      cases ys with
      | nil => exact ⟨_, rfl⟩
      | cons z zs => exact ⟨_, parameterLexemes_cons y z zs⟩
    rw [row, List.cons_append] at ahead
    obtain ⟨s₂, goes, ahead⟩ := accept_misses .rightParen (by simp [Lexeme.name]) ahead
    rw [← List.cons_append, ← row] at ahead
    have reads₂ := reads₁.trans (accept_reads goes).1
    have declared : ∀ w ∈ y :: ys, x.declares w = false := by simp [Scope.declares, none_, free]
    obtain ⟨s', ran, ahead, reads⟩ := parameters_lists budget (y :: ys) x s₂ (by simp) short vars
      distinct declared ahead
    refine ⟨s', ?_, ahead, reads₂.trans reads⟩
    rw [bind_ok _ goes]
    simp only [Bool.false_eq_true, ↓reduceIte]
    rw [get_bind, (ready.of_reads reads₂).budget, ran, none_]
    rfl

theorem functionPlace_pending (ready : Ready g budget s) (known : g.functions.lookup f = some n)
    (new : ∀ i h, s.functions.place? f = some i → s.functions.entries[i]? ≠ some (.user h)) :
    ∃ place functions name, functionPlace f s = .ok place { s with functions } ∧
      Ready g budget { s with functions } ∧ functions.place? f = some place ∧
      functions.entries[place]? = some (.pending name) ∧
      ∀ other i, s.functions.place? other = some i → functions.place? other = some i := by
  rw [functionPlace, get_bind, ready.keys f n known]
  cases found : s.functions.place? f with
  | some i =>
    have present : i < s.functions.entries.length := by
      simpa [NameTable.entries] using place?_lt found
    have entry := List.getElem?_eq_getElem present
    cases callee : s.functions.entries[i] with
    | offered h => exact absurd (entry.trans (congrArg some callee)) (ready.own f n i h known found)
    | user h => exact absurd (entry.trans (congrArg some callee)) (new i h found)
    | pending name =>
      exact ⟨i, s.functions, name, rfl, ready, found, entry.trans (congrArg some callee),
        fun _ _ => id⟩
  | none =>
    refine ⟨s.functions.length, s.functions ++ [(f, .pending f)], f, rfl, ready.pending known,
      place?_append_new found, ?_, fun _ _ => place?_append⟩
    simp [NameTable.entries]

theorem declareFunction_takes (ready : Ready g budget s) (known : g.functions.lookup f = some n)
    (new : ∀ i h, s.functions.place? f = some i → s.functions.entries[i]? ≠ some (.user h)) :
    ∃ place functions, declareFunction f s = .ok (some place) { s with functions } ∧
      Ready g budget { s with functions } ∧ functions.place? f = some place ∧
      ∀ other i, s.functions.place? other = some i → functions.place? other = some i := by
  obtain ⟨place, functions, name, found, ready', placed, entry, places⟩ :=
    functionPlace_pending ready known new
  refine ⟨place, functions.modifyAt place fun _ => .pending f, ?_,
    ready'.modifyAt place (fun _ => .pending f) (by simp), ?_, ?_⟩
  · rw [declareFunction, bind_ok _ found, get_bind]
    simp only [entry]
    rfl
  · rw [place?_modifyAt, placed]
  · intro other i before
    rw [place?_modifyAt, places other i before]

theorem functionDefinition_eq {tok : Token} {place : Nat} {r s₁ s₂ : Session} {y : Scope}
    (declared : declareFunction tok.lexeme { s with inHeader := false } = .ok (some place) r)
    (listed : parameterList (Scope.start tok.lexeme (some place) r.writer.ip) r = .ok x s₁)
    (ran : functionBody { s₁ with scope := some x } = .ok () s₂) (scope : s₂.scope = some y)
    (bound : y.unboundLabels = []) (at_ : y.place = some place) :
    functionDefinition tok s = .ok () { s₂ with
      scope := none
      writer := (s₂.writer.opcode .returnValue).operand 0
      functions := s₂.functions.modifyAt place (finished y) } := by
  have body : attempt functionBody { s₁ with scope := some x } = .ok (.ok ()) s₂ := by
    rw [attempt, ran]
  have ending : attempt endCurrent s₂ = .ok (.ok ()) { s₂ with
      scope := none
      writer := (s₂.writer.opcode .returnValue).operand 0
      functions := s₂.functions.modifyAt place (finished y) } := by
    rw [attempt, endCurrent_eq scope, endFunction, bind_ok _ (emit_eq _ _),
      bind_ok _ (emitOperand_eq 0 _), bound, at_]
    rfl
  rw [functionDefinition, modify_bind, bind_ok _ declared]
  simp only [Option.isNone_some, Bool.false_eq_true, ↓reduceIte]
  rw [bind_ok _ (here_eq r), bind_ok _ listed, setScope, modify_bind, bind_ok _ body,
    bind_ok _ ending]
  rfl

end Scriptlet.Compile
