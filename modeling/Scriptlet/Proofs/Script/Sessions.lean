import Scriptlet.Proofs.Compile.Expressions
import Scriptlet.Proofs.Script.Coding
import Scriptlet.Proofs.Script.Spelling

/-!
Compiling a script that makes sense: what its session knows. The lexemes ahead are read as
tokens, variables resolve to slots and functions to places of the table, and calls that are
noted have as many arguments as their functions have parameters. None of this ever fails.
-/
namespace Scriptlet.Compile

open Actions Code Script

variable {s s' t : Session} {l : Lexeme} {ls : List Lexeme} {name x f : String} {α : Type}
  {tok : Token} {n : Nat} {table : NameTable α} {i : Nat} {names : List String}

theorem nextToken_sees (ahead : Ahead (l :: ls) s.tokens) :
    ∃ t s', nextToken s = .ok t s' ∧ l.Matches t ∧ Ahead ls s'.tokens :=
  ⟨_, _, nextToken_eq s, ahead.2.1, ahead.2.2⟩

theorem unget_sees (ahead : Ahead ls s.tokens) (taken : nextToken s = .ok tok t) :
    ∃ s', unget tok t = .ok () s' ∧ Ahead ls s'.tokens := by
  obtain ⟨rfl, rfl⟩ := EStateM.Result.ok.inj ((nextToken_eq s).symm.trans taken)
  exact ⟨_, rfl, ahead.unget⟩

theorem peekKind_sees (ahead : Ahead (l :: ls) s.tokens) :
    ∃ s', peekKind s = .ok l.kind s' ∧ Ahead (l :: ls) s'.tokens := by
  refine ⟨{ s with tokens := s.tokens.peek.2 }, ?_, ahead.peek⟩
  rw [peekKind_eq]
  exact congrArg (fun kind => EStateM.Result.ok kind _) ahead.2.1.1

theorem accept_sees (kind : Token.Kind) (same : l.kind = kind) (ahead : Ahead (l :: ls) s.tokens) :
    ∃ s', accept kind s = .ok true s' ∧ Ahead ls s'.tokens := by
  obtain ⟨s₁, peeked, ahead⟩ := peekKind_sees ahead
  obtain ⟨tok, s₂, taken, _, ahead⟩ := nextToken_sees ahead
  refine ⟨s₂, ?_, ahead⟩
  rw [accept, bind_ok _ peeked, if_pos same, bind_ok _ taken]
  rfl

theorem accept_misses (kind : Token.Kind) (other : l.kind ≠ kind)
    (ahead : Ahead (l :: ls) s.tokens) :
    ∃ s', accept kind s = .ok false s' ∧ Ahead (l :: ls) s'.tokens := by
  obtain ⟨s₁, peeked, ahead⟩ := peekKind_sees ahead
  refine ⟨s₁, ?_, ahead⟩
  rw [accept, bind_ok _ peeked, if_neg other]
  rfl

theorem expect_sees (kind : Token.Kind) (p : Problem) (same : l.kind = kind)
    (ahead : Ahead (l :: ls) s.tokens) :
    ∃ t s', expect kind p s = .ok t s' ∧ l.Matches t ∧ Ahead ls s'.tokens := by
  obtain ⟨tok, s₁, taken, read, ahead⟩ := nextToken_sees ahead
  refine ⟨tok, s₁, ?_, read, ahead⟩
  rw [expect, bind_ok _ taken, if_pos (read.1.trans same)]
  rfl

theorem nextPastBreaks_sees (solid : l.kind ≠ .endOfLine) (past : Past (l :: ls) s.tokens) :
    ∃ t s', nextPastBreaks s = .ok t s' ∧ l.Matches t ∧ Ahead ls s'.tokens := by
  obtain ⟨read, ahead⟩ := past.next solid
  exact ⟨_, _, rfl, read, ahead⟩

theorem unget_past (solid : l.kind ≠ .endOfLine) (past : Past (l :: ls) s.tokens)
    (taken : nextPastBreaks s = .ok tok t) :
    ∃ s', unget tok t = .ok () s' ∧ Ahead (l :: ls) s'.tokens := by
  cases taken
  exact ⟨_, rfl, past.unget solid⟩

theorem flush_none (none_ : s.tokens.errors = #[]) : flush s = .ok () s := by
  have same : ({ s with tokens := { s.tokens with errors := #[] } } : Session) = s := by
    rw [← none_]
  rw [flush, bind_apply]
  change s.tokens.errors.toList.forM record _ = _
  rw [none_]
  exact congrArg (EStateM.Result.ok ()) same

theorem recover_of_ok {rule : Compile Unit} (ok : rule s = .ok () s') :
    recover rule s = .ok () s' := by
  have attempted : attempt rule s = .ok (.ok ()) s' := by rw [attempt, ok]
  rw [recover, bind_ok _ attempted]
  rfl

theorem discard_ok {rule : Compile α} {a : α} (ok : rule s = .ok a s') :
    discard rule s = .ok () s' := by
  rw [discard_apply, ok]

def Session.naming (s : Session) : Naming where
  slot x a := s.scope.bind (·.resolve? x) = some a
  place f i := s.functions.place? f = some i
  literal i v := s.literals[i]? = some v

theorem idxOf?_append {more : List String} (found : names.idxOf? name = some i) :
    (names ++ more).idxOf? name = some i := by
  rw [List.idxOf?, List.findIdx?_append]
  exact Option.or_eq_some_iff.mpr (Or.inl found)

theorem place?_append {more : NameTable α} (found : table.place? name = some i) :
    NameTable.place? (table ++ more) name = some i := by
  rw [NameTable.place?, List.findIdx?_append]
  exact Option.or_eq_some_iff.mpr (Or.inl found)

theorem idxOf?_append_new (new : names.idxOf? name = none) :
    (names ++ [name]).idxOf? name = some names.length := by
  rw [List.idxOf?] at new ⊢
  simp [List.findIdx?_append, new, List.findIdx?_cons]

theorem place?_append_new {entry : α} (new : table.place? name = none) :
    NameTable.place? (table ++ [(name, entry)]) name = some table.length := by
  rw [NameTable.place?] at new ⊢
  simp [List.findIdx?_append, new, List.findIdx?_cons]

theorem Scope.resolve?_new {x : Scope} (new : x.resolve? name = none) :
    Scope.resolve? { x with locals := x.locals ++ [name] } name = some x.nextLocal := by
  unfold Scope.resolve? at new ⊢
  cases parameter : x.parameters.idxOf? name with
  | some i => simp [parameter] at new
  | none =>
    simp only [parameter, Option.map_eq_none_iff] at new
    simp only [idxOf?_append_new new, Option.map_some]
    rfl

theorem Scope.Grows.resolve? {x y : Scope} (grows : Scope.Grows x y) {a : Address}
    (found : x.resolve? name = some a) : y.resolve? name = some a := by
  unfold Scope.resolve? at found ⊢
  rw [grows.parameters]
  cases parameter : x.parameters.idxOf? name with
  | some i =>
    rw [parameter] at found
    exact found
  | none =>
    rw [parameter] at found
    obtain ⟨i, local_, rfl⟩ := Option.map_eq_some_iff.mp found
    obtain ⟨more, locals⟩ := grows.locals
    simp only [locals, idxOf?_append local_, Option.map_some]

theorem Grows.naming (grows : Grows s s') : s.naming.Within s'.naming where
  slot x a found := by
    have rel := grows.scope
    change s.scope.bind _ = some a at found
    change s'.scope.bind _ = some a
    generalize s.scope = before, s'.scope = after at rel found
    cases rel with
    | none => cases found
    | some same => exact same.resolve? found
  place f i found := by
    obtain ⟨more, functions, _⟩ := grows.functions
    change s'.functions.place? f = some i
    rw [functions]
    exact place?_append found
  literal _ _ found := grows.literal_of found

/-- The tables agree with the script, and there is no error. -/
structure Ready (g : Signature) (budget : Nat) (s : Session) : Prop where
  keys : ∀ f n, g.functions.lookup f = some n → functionKey f = f
  globals : ∀ x, g.isVariable x = true → s.globals.place? x = none
  names : ∀ entry ∈ s.functions,
    entry.1 ∈ g.registered ∨ (g.functions.lookup entry.1).isSome = true
  own : ∀ f n i h, g.functions.lookup f = some n → s.functions.place? f = some i →
    s.functions.entries[i]? ≠ some (.offered h)
  calls : ∀ c ∈ s.calls.toList, ∃ f, g.functions.lookup f = some c.arguments ∧
    s.functions.place? f = some c.place
  clean : s.errors = #[]
  budget : s.budget = budget

structure Inside (g : Signature) (budget : Nat) (s : Session) : Prop extends Ready g budget s where
  scope : s.scope.isSome = true

variable {g : Signature} {budget : Nat}

theorem Ready.of_tables (ready : Ready g budget s) (functions : s'.functions = s.functions)
    (calls : s'.calls = s.calls) (globals : s'.globals = s.globals) (errors : s'.errors = s.errors)
    (same : s'.budget = s.budget) : Ready g budget s' where
  keys := ready.keys
  globals := globals ▸ ready.globals
  names := functions ▸ ready.names
  own := functions ▸ ready.own
  calls := functions ▸ calls ▸ ready.calls
  clean := errors ▸ ready.clean
  budget := same ▸ ready.budget

theorem Ready.of_reads (ready : Ready g budget s) (reads : Reads s s') : Ready g budget s' := by
  obtain ⟨tokens, line, rfl⟩ := reads
  exact ready.of_tables rfl rfl rfl rfl rfl

theorem Inside.of_reads (inside : Inside g budget s) (reads : Reads s s') : Inside g budget s' := by
  refine ⟨inside.toReady.of_reads reads, ?_⟩
  obtain ⟨tokens, line, rfl⟩ := reads
  exact inside.scope

theorem Inside.of_code (inside : Inside g budget s) (tokens : TokenStream) (writer : CodeWriter)
    (literals : Array Value) : Inside g budget { s with tokens, writer, literals } :=
  ⟨inside.toReady.of_tables rfl rfl rfl rfl rfl, inside.scope⟩

theorem Inside.of_writer (inside : Inside g budget s) (writer : CodeWriter) :
    Inside g budget { s with writer } :=
  inside.of_code s.tokens writer s.literals

theorem place?_none_of_names (other : ∀ entry ∈ table, entry.1 ≠ name) :
    table.place? name = none := by
  rw [NameTable.place?, List.findIdx?_eq_none_iff]
  intro entry member
  simpa using other entry member

theorem contains_false_of_names (other : ∀ entry ∈ table, entry.1 ≠ name) :
    table.contains name = false := by
  induction table with
  | nil => rfl
  | cons entry rest ih =>
    have := other entry (by simp)
    have := ih fun e member => other e (by simp [member])
    simpa [NameTable.contains, NameTable.find?, *] using this

theorem Ready.not_function (ready : Ready g budget s) (var : g.isVariable x = true) :
    ∀ entry ∈ s.functions, entry.1 ≠ x := by
  simp only [Signature.isVariable, Bool.and_eq_true, Bool.not_eq_true', List.contains_eq_mem,
    decide_eq_false_iff_not] at var
  obtain ⟨⟨_, notFunction⟩, notRegistered⟩ := var
  rintro entry member rfl
  rcases ready.names entry member with registered | known
  · exact notRegistered registered
  · obtain ⟨pair, there, same⟩ := List.lookup_isSome_iff.mp known
    exact notFunction (List.mem_map.mpr ⟨pair, there, (eq_of_beq same).symm⟩)

theorem isMain_of_isVariable (var : g.isVariable x = true) : Token.isMain x = false := by
  simp only [Signature.isVariable, Bool.and_eq_true, Bool.not_eq_true'] at var
  exact var.1.1.2

theorem Inside.lookup?_eq (inside : Inside g budget s) (var : g.isVariable x = true) :
    s.lookup? x = s.scope.bind (·.resolve? x) := by
  unfold Session.lookup?
  rw [inside.globals x var]
  cases s.scope.bind (·.resolve? x) <;> rfl

/-- What a step that only enters a name leaves as it is. -/
structure Names (g : Signature) (budget : Nat) (s s' : Session) : Prop where
  inside : Inside g budget s'
  tokens : s'.tokens = s.tokens

theorem variableAddress_names (inside : Inside g budget s) (var : g.isVariable tok.lexeme = true) :
    ∃ a s', variableAddress tok s = .ok a s' ∧ Names g budget s s' ∧
      s'.naming.slot tok.lexeme a ∧ a.scope ≠ .globals := by
  obtain ⟨x, scope⟩ := Option.isSome_iff_exists.mp inside.scope
  have looked := inside.lookup?_eq var
  rw [scope, Option.bind_some] at looked
  cases found : x.resolve? tok.lexeme with
  | some a =>
    refine ⟨a, s, ?_, ⟨inside, rfl⟩, ?_, (resolve?_hasSlot scope found).2⟩
    · rw [variableAddress, get_bind, looked, found]
      rfl
    · change s.scope.bind _ = some a
      rw [scope, Option.bind_some, found]
  | none =>
    have added := (variableAddress_new (looked.trans found) (isMain_of_isVariable var) scope).2
    exact ⟨x.nextLocal, _, added, ⟨⟨inside.toReady.of_tables rfl rfl rfl rfl rfl, rfl⟩, rfl⟩,
      Scope.resolve?_new found, by simp [Scope.nextLocal, Scope.slot]⟩

theorem assignableAddress_names (inside : Inside g budget s)
    (var : g.isVariable tok.lexeme = true) :
    ∃ a s', assignableAddress tok s = .ok a s' ∧ Names g budget s s' ∧
    s'.naming.slot tok.lexeme a := by
  obtain ⟨a, s', found, names, slot, notGlobal⟩ := variableAddress_names inside var
  refine ⟨a, s', ?_, names, slot⟩
  rw [assignableAddress, bind_ok _ found]
  simp only [notGlobal, ↓reduceIte]
  rfl

theorem Ready.pending (ready : Ready g budget s) (known : g.functions.lookup f = some n) :
    Ready g budget { s with functions := s.functions ++ [(f, .pending f)] } where
  keys := ready.keys
  globals := ready.globals
  names entry member := by
    rcases List.mem_append.mp member with old | new
    · exact ready.names entry old
    · rw [List.mem_singleton.mp new]
      exact Or.inr (by simp [known])
  own f' m i h known' placed := by
    simp only [NameTable.entries, List.map_append, List.map_cons, List.map_nil]
    cases found : s.functions.place? f' with
    | some j =>
      obtain rfl : i = j := Option.some.inj (placed.symm.trans (place?_append found))
      have old : i < (s.functions.map (·.2)).length := by simpa using place?_lt found
      rw [List.getElem?_append_left old]
      exact ready.own f' m i h known' found
    | none =>
      rw [NameTable.place?] at found
      rw [NameTable.place?, List.findIdx?_append, found, Option.none_or] at placed
      obtain ⟨j, _, rfl⟩ := Option.map_eq_some_iff.mp placed
      rw [List.getElem?_append_right (by simp), List.getElem?_singleton]
      split <;> simp
  calls c noted := by
    obtain ⟨f', arguments, placed⟩ := ready.calls c noted
    exact ⟨f', arguments, place?_append placed⟩
  clean := ready.clean
  budget := ready.budget

theorem functionPlace_names (ready : Ready g budget s) (known : g.functions.lookup f = some n) :
    ∃ i s', functionPlace f s = .ok i s' ∧ Ready g budget s' ∧ s'.tokens = s.tokens ∧
      s'.scope = s.scope ∧ s'.naming.place f i := by
  rw [functionPlace, get_bind, ready.keys f n known]
  cases found : s.functions.place? f with
  | some i => exact ⟨i, s, rfl, ready, rfl, rfl, found⟩
  | none =>
    exact ⟨s.functions.length, _, rfl, ready.pending known, rfl, rfl, place?_append_new found⟩

theorem checkCall_names {place : Nat} (tok : Token) (ready : Ready g budget s)
    (known : g.functions.lookup f = some n) (placed : s.naming.place f place) :
    ∃ s', checkCall place tok n s = .ok () s' ∧ Ready g budget s' ∧ s'.tokens = s.tokens ∧
      s'.scope = s.scope ∧ s'.naming = s.naming := by
  change s.functions.place? f = some place at placed
  have present : place < s.functions.entries.length := by
    simpa [NameTable.entries] using place?_lt placed
  have own := ready.own f n place
  rw [checkCall, get_bind]
  rw [List.getElem?_eq_getElem present] at own ⊢
  refine ⟨{ s with calls := s.calls.push ⟨place, tok.lexeme, n, tok.line⟩ }, ?_, ?_, rfl, rfl, rfl⟩
  · cases entry : s.functions.entries[place] with
    | offered h => exact absurd (congrArg some entry) (own h known placed)
    | pending | user => rfl
  · refine { ready with calls := ?_ }
    intro c noted
    rcases List.mem_append.mp (Array.toList_push ▸ noted) with old | new
    · exact ready.calls c old
    · rw [List.mem_singleton.mp new]
      exact ⟨f, known, placed⟩

end Scriptlet.Compile
