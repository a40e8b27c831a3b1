import Scriptlet.Proofs.Machine.Safety
import Scriptlet.Proofs.Source.Branches

/-!
Whole programs. Between functions, every function that has been defined has its code among the
words: a row of complete statements whose jumps stay inside, and the return behind them. Every
function that is still pending has been called, so that resolving all calls without an error
leaves none. What compiling returns is therefore sound.
-/
namespace Scriptlet

namespace Compile

open Actions Code Grammar

variable {s s' t : Session} {limit : Nat} {place : Nat} {x y : Scope} {u : Unit} {α : Type}
  {s₁ s₂ r : Session} {f : UserFunction} {b : Body} {name : String} {p : Program} {a : α}
  {callee : Callee} {q : Nat} {row : List Statement}

def Session.frame (s : Session) (parameters locals : Nat) : References where
  literal place := place < s.literals.size
  slot a := ∃ i < slots a.scope, a = Scope.slot a.scope i
  target a := (∃ i < slots a.scope, a = Scope.slot a.scope i) ∧ s.MayAssign a
  call := s.Admits
where
  slots : VariableScope → Nat
    | .globals => s.globals.length
    | .locals => locals
    | .parameters => parameters

theorem references_within_frame (scope : s.scope = some x) :
    s.references.Within (s.frame x.parameters.length x.locals.length) := by
  have slots : ∀ kind, s.slotCount kind =
      Session.frame.slots s x.parameters.length x.locals.length kind := by
    intro kind
    cases kind <;> simp [Session.slotCount, Session.frame.slots, scope]
  have has : ∀ a, s.HasSlot a → (s.frame x.parameters.length x.locals.length).slot a := by
    rintro a ⟨i, bound, same⟩
    exact ⟨i, slots _ ▸ bound, same⟩
  exact ⟨fun _ => id, has, fun a target => ⟨has a target.1, target.2⟩, fun _ _ => id⟩

theorem mayAssign_of_append {a : Address} {i : Nat} {more : NameTable Global}
    (globals : s'.globals = s.globals ++ more) (inside : a.scope = .globals → i < s.globals.length)
    (same : a = Scope.slot a.scope i) (may : s.MayAssign a) : s'.MayAssign a := by
  intro scope
  have index : a.index.toNat < s.globals.length := by
    rw [same]
    exact Nat.lt_of_le_of_lt (Nat.mod_le _ _) (inside scope)
  rw [globals, NameTable.entries, List.map_append, List.getElem?_append_left (by simpa using index)]
  exact may scope

theorem Session.Admits.mono {arguments : Nat} (admits : s.Admits place arguments)
    (functions : s.functions.length ≤ s'.functions.length)
    (offered : ∀ f, s'.functions.entries[place]? = some (.offered f) ↔
      s.functions.entries[place]? = some (.offered f)) (calls : ∀ c ∈ s.calls.toList,
      c ∈ s'.calls.toList) :
    s'.Admits place arguments := by
  refine ⟨Nat.lt_of_lt_of_le admits.1 functions, ?_⟩
  rcases admits.2 with ⟨f, entry, takes⟩ | ⟨other, c, noted, same⟩
  · exact Or.inl ⟨f, (offered f).mpr entry, takes⟩
  · exact Or.inr ⟨fun f entry => other f ((offered f).mp entry), c, calls c noted, same⟩

theorem frame_within (literals : s.literals.size ≤ s'.literals.size)
    (globals : ∃ more, s'.globals = s.globals ++ more)
    (admits : ∀ place arguments, s.Admits place arguments → s'.Admits place arguments)
    (parameters locals : Nat) :
    (s.frame parameters locals).Within (s'.frame parameters locals) := by
  obtain ⟨more, globals⟩ := globals
  have slots : ∀ kind, Session.frame.slots s parameters locals kind ≤
      Session.frame.slots s' parameters locals kind := by
    intro kind
    cases kind with
    | globals => simp [Session.frame.slots, globals]
    | _ => exact Nat.le_refl _
  have has : ∀ a, (s.frame parameters locals).slot a → (s'.frame parameters locals).slot a := by
    rintro a ⟨i, bound, same⟩
    exact ⟨i, Nat.lt_of_lt_of_le bound (slots _), same⟩
  refine ⟨fun _ inside => Nat.lt_of_lt_of_le inside literals, has, ?_, admits⟩
  rintro a ⟨⟨i, bound, same⟩, may⟩
  refine ⟨has a ⟨i, bound, same⟩, mayAssign_of_append globals (fun scope => ?_) same may⟩
  rwa [scope] at bound

/-- The entry of a function tells where its code is and how many variables it has. -/
structure Coded (limit : Nat) (s : Session) (f : UserFunction) (b : Body) : Prop where
  start : f.ip = .ofNat b.start
  parameters : f.parameters = .ofNat b.parameters
  locals : f.locals = .ofNat b.locals
  few : b.parameters + b.locals ≤ limit
  behind : prelude.ip ≤ b.start
  placed : Holds s.writer.words b.start (rowWords Target.word (b.row ++ [Statement.final]))
  targets : ∀ x ∈ b.row, ∀ t, x.target? = some t → ∃ a ∈ bounds b.start b.row, t = .ip a
  valid : ∀ x ∈ b.row, x.Valid (s.frame b.parameters b.locals)

theorem writer_words (s : Session) : s.writer.words.toList = s.words := by
  simp [CodeWriter.words, Session.words]

theorem Coded.mono (coded : Coded limit s f b) (words : ∃ more, s'.words = s.words ++ more)
    (literals : s.literals.size ≤ s'.literals.size)
    (globals : ∃ more, s'.globals = s.globals ++ more)
    (admits : ∀ place arguments, s.Admits place arguments → s'.Admits place arguments) :
    Coded limit s' f b := by
  refine { coded with
    placed := ?_
    valid := fun x member =>
      (coded.valid x member).mono (frame_within literals globals admits _ _) }
  obtain ⟨more, words⟩ := words
  obtain ⟨before, after, split, start⟩ := coded.placed
  refine ⟨before, after ++ more, ?_, start⟩
  rw [writer_words] at split ⊢
  simp [words, split]

/-- The bodies are those of the functions that have been defined, and nothing but the prelude and
the bodies, one behind the other, is among the words. The pool has been filled by their code. -/
structure Paved (limit : Nat) (s : Session) (bs : List Body) : Prop where
  paves : Body.Paves prelude.ip bs s.words.length
  defined : ∀ b ∈ bs, ∃ (place : Nat) (f : UserFunction),
    s.functions.entries[place]? = some (.user f) ∧ Coded limit s f b
  coded : ∀ (place : Nat) (f : UserFunction), s.functions.entries[place]? = some (.user f) →
    ∃ b ∈ bs, Coded limit s f b
  stocked : Fills #[] s.literals (bs.flatMap fun b => rowLiterals b.row)

/-- What holds between functions. -/
structure Arranged (limit : Nat) (s : Session) : Prop where
  outside : s.scope = none
  terminated : s.unterminated = false
  front : ∃ more, s.words = prelude.words.toList ++ more
  paved : ∃ bs, Paved limit s bs
  called : ∀ (place : Nat) (name : String), s.functions.entries[place]? = some (.pending name) →
    ∃ c ∈ s.calls.toList, c.place = place
  offered : ∀ (place : Nat) (f : Function), s.functions.entries[place]? = some (.offered f) →
    ∀ g, f ≠ .user g
  ahead : s.tokens.ahead ≤ limit

theorem Arranged.coded (arranged : Arranged limit s) {place : Nat}
    (entry : s.functions.entries[place]? = some (.user f)) : ∃ b, Coded limit s f b := by
  obtain ⟨bs, paved⟩ := arranged.paved
  obtain ⟨b, _, coded⟩ := paved.coded place f entry
  exact ⟨b, coded⟩

theorem Paved.define {bs : List Body} (paved : Paved limit s bs)
    (kept : ∀ {f b}, Coded limit s f b → Coded limit s' f b) (start : b.start = s.words.length)
    (behind : b.behind = s'.words.length)
    (unused : ∀ g, s.functions.entries[place]? ≠ some (.user g))
    (entry : s'.functions.entries[place]? = some (.user f)) (coded : Coded limit s' f b)
    (others : ∀ q ≠ place, ∀ g, s'.functions.entries[q]? = some (.user g) ↔
      s.functions.entries[q]? = some (.user g))
        (fills : Fills s.literals s'.literals (rowLiterals b.row)) :
    Paved limit s' (bs ++ [b]) := by
  refine ⟨Body.paves_append.mpr ⟨start ▸ paved.paves, behind⟩, ?_, ?_, ?_⟩
  · intro c member
    rcases List.mem_append.mp member with old | new
    · obtain ⟨q, g, at_, coded⟩ := paved.defined c old
      have other : q ≠ place := by
        rintro rfl
        exact unused g at_
      exact ⟨q, g, (others q other g).mpr at_, kept coded⟩
    · obtain rfl := List.mem_singleton.mp new
      exact ⟨place, f, entry, coded⟩
  · intro q g at_
    by_cases same : q = place
    · subst same
      rw [entry] at at_
      cases at_
      exact ⟨b, by simp, coded⟩
    · obtain ⟨c, member, coded⟩ := paved.coded q g ((others q same g).mp at_)
      exact ⟨c, List.mem_append_left _ member, kept coded⟩
  · rw [List.flatMap_append, List.flatMap_singleton]
    exact paved.stocked.trans fills

theorem Arranged.of_tables (arranged : Arranged limit s) (outside : s'.scope = s.scope)
    (terminated : s'.unterminated = s.unterminated)
    (words : s'.words = s.words) (functions : s'.functions = s.functions)
    (calls : s'.calls = s.calls) (literals : s'.literals = s.literals)
    (globals : ∃ more, s'.globals = s.globals ++ more)
    (ahead : s'.tokens.ahead ≤ s.tokens.ahead) : Arranged limit s' where
  outside := outside.trans arranged.outside
  terminated := terminated.trans arranged.terminated
  front := words ▸ arranged.front
  paved := by
    obtain ⟨bs, paved⟩ := arranged.paved
    have kept : ∀ {f b}, Coded limit s f b → Coded limit s' f b := fun coded =>
      coded.mono ⟨[], by simp [words]⟩ (by simp [literals]) globals fun place arguments admits =>
        admits.mono (by simp [functions]) (by simp [functions]) (by simp [calls])
    refine ⟨bs, words ▸ paved.paves, fun b member => ?_, fun place f entry => ?_,
      literals ▸ paved.stocked⟩
    · obtain ⟨place, f, entry, coded⟩ := paved.defined b member
      exact ⟨place, f, functions ▸ entry, kept coded⟩
    · obtain ⟨b, member, coded⟩ := paved.coded place f (functions ▸ entry)
      exact ⟨b, member, kept coded⟩
  called := fun place name entry => by
    obtain ⟨c, noted, same⟩ := arranged.called place name (functions ▸ entry)
    exact ⟨c, calls ▸ noted, same⟩
  offered := fun place f entry => arranged.offered place f (functions ▸ entry)
  ahead := Nat.le_trans ahead arranged.ahead

theorem Arranged.of_reads (arranged : Arranged limit s) (reads : Reads s s')
    (load : s'.load ≤ s.load) : Arranged limit s' := by
  obtain ⟨tokens, line, rfl⟩ := reads
  refine arranged.of_tables rfl rfl rfl rfl rfl rfl ⟨[], (List.append_nil _).symm⟩ ?_
  have := arranged.outside
  simpa [Session.load, this] using load

structure Declares (s s' : Session) : Prop where
  phrase : Globals s.left s'.left
  load : s'.load ≤ s.load
  tables : ∃ more, Reads { s with globals := s.globals ++ more } s' ∧ ∀ g ∈ more, g.2.value.Flat

theorem Declares.errors (declares : Declares s s') : s'.errors = s.errors := by
  obtain ⟨more, ⟨tokens, line, rfl⟩, _⟩ := declares.tables
  rfl

theorem Declares.arranged (declares : Declares s s') (arranged : Arranged limit s) :
    Arranged limit s' := by
  obtain ⟨more, reads, _⟩ := declares.tables
  have added : Arranged limit { s with globals := s.globals ++ more } :=
    arranged.of_tables rfl rfl rfl rfl rfl rfl ⟨more, rfl⟩ (Nat.le_refl _)
  exact added.of_reads reads declares.load

theorem headerVariables_ok (n : Nat) : ∀ {s s' : Session} {u : Unit},
    headerVariables n s = .ok u s' → s'.errors = #[] → Declares s s' := by
  induction n with
  | zero =>
    intro s s' u ok
    cases ok
  | succ n ih =>
    intro s s' u ok clean
    obtain ⟨name, s₁, named, ok⟩ := of_bind_ok ok
    obtain ⟨value, s₂, valued, ok⟩ := of_bind_ok ok
    rw [get_bind] at ok
    have first := declaredName_reads named
    have symbol := declaredName_mark named
    obtain ⟨second, flat⟩ := headerValue_ok valued
    have spent := second.load
    -- What follows a variable is the same whether its name was new or reported.
    have rest : ∀ {r : Session}, (do if ← accept .comma then headerVariables n) r = .ok u s' →
        r.left = s₂.left → r.errors = #[] ∧ Globals s.left s'.left ∧ s'.load ≤ r.load ∧
          ∃ more, Reads { r with globals := r.globals ++ more } s' ∧ ∀ g ∈ more,
          g.2.value.Flat := by
      intro r ran same
      rcases of_accept_ok ran (by decide) with ⟨r₁, comma, given, ran⟩ | ⟨r₁, comma, missing, ran⟩
      · have later := ih ran clean
        refine ⟨comma.1.emits.errors ▸ later.errors ▸ clean,
          .more symbol second.phrase (same ▸ given) later.phrase,
            Nat.le_trans later.load comma.2, ?_⟩
        obtain ⟨tokens, line, rfl⟩ := comma.1
        obtain ⟨more, ⟨tokens', line', rfl⟩, flat⟩ := later.tables
        exact ⟨more, ⟨tokens', line', rfl⟩, flat⟩
      · cases ran
        refine ⟨comma.1.emits.errors ▸ clean, ?_, comma.2, [], ?_, by simp⟩
        · rw [missing, same]
          exact .last symbol second.phrase
        · simpa using comma.1
    dsimp only at ok
    split at ok
    · obtain ⟨_, s₃, reported, ok⟩ := of_bind_ok ok
      exact absurd (rest ok (report_left reported)).1 (report_errors reported)
    · rw [modify_bind] at ok
      obtain ⟨_, phrase, load, more, reads, others⟩ := rest ok rfl
      have load : s'.load ≤ s₂.load := load
      refine ⟨phrase, by omega, (name.lexeme, ⟨value, false⟩) :: more, ?_,
        List.forall_mem_cons.mpr ⟨flat, others⟩⟩
      rw [List.append_cons]
      obtain ⟨tokens, line, rfl⟩ := first.1.trans second.reads
      obtain ⟨tokens', line', rfl⟩ := reads
      exact ⟨tokens', line', rfl⟩

theorem entry_lt {table : NameTable α} {entry : α} (found : table.entries[place]? = some entry) :
    place < table.length := by
  simpa [NameTable.entries] using (List.getElem?_eq_some_iff.mp found).1

theorem entries_modifyAt (table : NameTable α) (place q : Nat) (f : α → α) :
    (table.modifyAt place f).entries[q]? =
      if q = place then (table.entries[q]?).map f else table.entries[q]? := by
  simp only [NameTable.entries, NameTable.modifyAt, List.getElem?_map, List.getElem?_modify]
  by_cases same : place = q
  · subst same
    cases table[place]? <;> simp
  · have other : ¬q = place := fun h => same h.symm
    cases table[q]? <;> simp [same, other]

theorem length_modifyAt (table : NameTable α) (place : Nat) (f : α → α) :
    (table.modifyAt place f).length = table.length := by
  simp [NameTable.modifyAt]

theorem declareFunction_ok {found : Option Nat} (ok : declareFunction name s = .ok found s') :
    s'.errors = s.errors ∧ ∀ place, found = some place →
      ∃ functions, s' = { s with functions } ∧ s.functions.length ≤ functions.length ∧
        functions.entries[place]? = some (.pending name) ∧
        ∀ q ≠ place, functions.entries[q]? = s.functions.entries[q]? := by
  obtain ⟨place, t, placed, ok⟩ := of_bind_ok ok
  obtain ⟨functions, rfl, longer, others⟩ := functionPlace_table placed
  rw [get_bind] at ok
  generalize entry : functions.entries[place]? = old at ok
  rcases old with _ | ⟨other⟩ | _ | _
  case some.pending =>
    cases ok
    refine ⟨rfl, fun q same => ?_⟩
    obtain rfl := Option.some.inj same
    refine ⟨_, rfl, by simpa [length_modifyAt] using longer, ?_, ?_⟩
    · rw [entries_modifyAt, if_pos rfl, entry, Option.map_some]
    · intro q differs
      rw [entries_modifyAt, if_neg differs]
      exact others q differs
  all_goals
    cases ok
    exact ⟨rfl, by simp⟩

theorem declareFunction_unused (ok : declareFunction name s = .ok (some place) s')
    (entry : s.functions.entries[place]? = some callee) : ∃ name, callee = .pending name := by
  have inside : place < s.functions.length := entry_lt entry
  obtain ⟨q, t, placed, ok⟩ := of_bind_ok ok
  rw [get_bind] at ok
  generalize at_ : t.functions.entries[q]? = old at ok
  rcases old with _ | ⟨_⟩ | _ | _
  case some.pending =>
    cases ok
    rw [functionPlace, get_bind] at placed
    cases found : s.functions.place? (functionKey name) with
    | some i =>
      rw [found] at placed
      cases placed
      rw [entry] at at_
      cases at_
      exact ⟨_, rfl⟩
    | none =>
      rw [found] at placed
      cases placed
      exact absurd inside (Nat.lt_irrefl _)
  all_goals cases ok

structure Fresh (place : Option Nat) (ip : Nat) (x : Scope) : Prop where
  place : x.place = place
  ip : x.ip = ip
  locals : x.locals = []
  labels : x.labels = []
  loops : x.loops = []

theorem start_fresh (name : String) (place : Option Nat) (ip : Nat) :
    Fresh place ip (Scope.start name place ip) :=
  ⟨rfl, rfl, rfl, rfl, rfl⟩

theorem parameter_new {name : Token} (new : x.declares name.lexeme = false) :
    parameter x name = pure { x with parameters := x.parameters ++ [name.lexeme] } := by
  rw [parameter, Scope.addParameter, new]
  rfl

theorem parameter_known {name : Token} (known : x.declares name.lexeme = true) :
    parameter x name = (report (problemAt .variableAlreadyDefined name) >>= fun _ => pure x) := by
  rw [parameter, Scope.addParameter, known]
  rfl

theorem parameters_ok (n : Nat) : ∀ {s s' : Session} {x y : Scope} {place : Option Nat} {ip : Nat},
    parameters n x s = .ok y s' → s'.errors = #[] → Fresh place ip x → Reads s s' ∧
    Fresh place ip y ∧
        y.parameters.length + s'.load ≤ x.parameters.length + s.load ∧
        Parameters s.left s'.left := by
  induction n with
  | zero =>
    intro s s' x y place ip ok
    cases ok
  | succ n ih =>
    intro s s' x y place ip ok clean fresh
    obtain ⟨name, s₁, named, ok⟩ := of_bind_ok ok
    have first := declaredName_reads named
    have symbol := declaredName_mark named
    obtain ⟨z, s₂, added, ok⟩ := of_bind_ok ok
    have rest (fresh : Fresh place ip z) (same : s₂.left = s₁.left) : Reads s₂ s' ∧
        Fresh place ip y ∧
        y.parameters.length + s'.load ≤ z.parameters.length + s₂.load ∧
        Parameters s.left s'.left := by
      rcases of_accept_ok ok (by decide) with ⟨r₁, second, closed, ran⟩ | ⟨r₁, second, missing, ran⟩
      · cases ran
        exact ⟨second.1, fresh, by omega, .last symbol (same ▸ closed)⟩
      · obtain ⟨r₂, third, between, ran⟩ := of_expect_ok ran (by decide)
        rw [missing, same] at between
        obtain ⟨reads, fresh, load, names⟩ := ih ran clean fresh
        exact ⟨(second.1.trans third.1).trans reads, fresh, by omega, .more symbol between names⟩
    cases declared : x.declares name.lexeme with
    | true =>
      rw [parameter_known declared] at added
      obtain ⟨_, r, reported, added⟩ := of_bind_ok added
      cases added
      obtain ⟨reads, -⟩ := rest fresh (report_left reported)
      exact absurd (reads.emits.errors ▸ clean) (report_errors reported)
    | false =>
      rw [parameter_new declared] at added
      cases added
      obtain ⟨reads, fresh, load, names⟩ := rest { fresh with } rfl
      rw [List.length_append, List.length_singleton] at load
      exact ⟨first.1.trans reads, fresh, by omega, names⟩

theorem parameterList_ok {place : Option Nat} {ip : Nat} (ok : parameterList x s = .ok y s')
    (clean : s'.errors = #[]) (fresh : Fresh place ip x) : Reads s s' ∧ Fresh place ip y ∧
      y.parameters.length + s'.load ≤ x.parameters.length + s.load ∧
      ParameterList s.left s'.left := by
  obtain ⟨s₁, first, paren, ok⟩ := of_expect_ok ok (by decide)
  rcases of_accept_ok ok (by decide) with ⟨s₂, second, closed, ok⟩ | ⟨s₂, second, same, ok⟩
  · cases ok
    exact ⟨first.1.trans second.1, fresh, by omega, .none paren closed⟩
  · rw [get_bind] at ok
    obtain ⟨reads, fresh, load, names⟩ := parameters_ok _ ok clean fresh
    rw [same] at names
    exact ⟨(first.1.trans second.1).trans reads, fresh, by omega, .some paren names⟩

theorem Fresh.tracks {place : Option Nat} {ip : Nat} (fresh : Fresh place ip x)
    (scope : s.scope = some x) :
    Tracks s.words [] s [] := by
  have marks : s.marks = ([], []) := by rw [marks_of_scope scope, fresh.labels, fresh.loops]
  refine ⟨by simp [rowWords], ?_, by simp, ?_, by simp [Session.rounds, marks], by simp⟩
  · intro t open_
    rw [marks]
    cases t <;> simp [holes, waiting, labelOf, NameTable.find?]
  · intro name a bound
    rw [marks] at bound
    simp [labelOf, NameTable.find?] at bound

theorem forM_report_ok {d : α → Diagnostic} {u : PUnit} (items : List α) :
    ∀ {s s' : Session}, items.forM (fun a => report (d a)) s = .ok u s' → s'.errors = #[] →
      items = [] ∧ s' = s := by
  induction items with
  | nil =>
    intro s s' ok _
    cases ok
    exact ⟨rfl, rfl⟩
  | cons a items ih =>
    intro s s' ok clean
    obtain ⟨_, t, reported, ok⟩ := of_bind_ok (x := report (d a)) ok
    obtain ⟨_, rfl⟩ := ih ok clean
    exact absurd clean (report_errors reported)

def finished (x : Scope) : Callee → Callee
  | .pending name =>
    .user ⟨name, .ofNat x.ip, .ofNat x.locals.length, .ofNat x.parameters.length⟩
  | callee => callee

theorem offered_finished {table : NameTable Callee} {f : Function} :
    (table.modifyAt place (finished x)).entries[q]? = some (.offered f) ↔
      table.entries[q]? = some (.offered f) := by
  rw [entries_modifyAt]
  split
  · rcases table.entries[q]? with _ | _ | _ | _ <;> simp [finished]
  · rfl

theorem endFunction_ok (ok : endFunction x s = .ok u s') (clean : s'.errors = #[]) :
    x.unboundLabels = [] ∧ s.errors = #[] ∧
      ∀ place, x.place = some place → s' = { s with
        writer := (s.writer.opcode .returnValue).operand 0
        functions := s.functions.modifyAt place (finished x) } := by
  rw [endFunction, bind_ok _ (emit_eq _ s), bind_ok _ (emitOperand_eq 0 _)] at ok
  obtain ⟨_, t, checked, ok⟩ := of_bind_ok ok
  have kept : s'.errors = t.errors := by
    cases place : x.place with
    | none | some q =>
      rw [place] at ok
      cases ok
      rfl
  obtain ⟨bound, rfl⟩ := forM_report_ok _ checked (kept ▸ clean)
  refine ⟨bound, kept ▸ clean, fun place placed => ?_⟩
  rw [placed] at ok
  cases ok
  rfl

theorem endCurrent_eq (scope : s.scope = some x) :
    endCurrent s = endFunction x { s with scope := none } := by
  have taken : takeFunction s = .ok (some x) { s with scope := none } := by
    change EStateM.Result.ok s.scope _ = _
    rw [scope]
  rw [endCurrent, bind_ok _ taken]

theorem endCurrent_ok (ok : endCurrent s = .ok u s') :
    ∃ x, s.scope = some x ∧ endFunction x { s with scope := none } = .ok u s' := by
  cases scope : s.scope with
  | none =>
    have taken : takeFunction s = .ok none { s with scope := none } := by
      change EStateM.Result.ok s.scope _ = _
      rw [scope]
    rw [endCurrent, bind_ok _ taken] at ok
    cases ok
  | some x => exact ⟨x, rfl, endCurrent_eq scope ▸ ok⟩

/-- The stages of a definition that leaves no error behind. -/
structure Defines (place : Nat) (s s₁ s₂ s' : Session) (x y : Scope) : Prop where
  clean : s.errors = #[]
  reads : Reads s s₁
  fresh : Fresh (some place) s.writer.ip x
  load : x.parameters.length + s₁.load ≤ s.load
  list : ParameterList s.left s₁.left
  body : Moves 0 { s₁ with scope := some x } s₂
  scope : s₂.scope = some y
  bound : y.unboundLabels = []
  result : s' = { s₂ with
    scope := none
    writer := (s₂.writer.opcode .returnValue).operand 0
    functions := s₂.functions.modifyAt place (finished y) }

theorem functionDefinition_ok {name : Token} (ok : functionDefinition name s = .ok u s')
    (clean : s'.errors = #[]) : ∃ place r s₁ s₂ x y,
      declareFunction name.lexeme { s with inHeader := false } = .ok (some place) r ∧
        functionBody { s₁ with scope := some x } = .ok () s₂ ∧ Defines place r s₁ s₂ s' x y := by
  rw [functionDefinition, modify_bind] at ok
  obtain ⟨found, r, declared, ok⟩ := of_bind_ok ok
  -- A name that is taken is reported, and the rest is compiled all the same, with no entry.
  have rest : ∀ {t : Session}, (do
      let scope ← parameterList (Scope.start name.lexeme found (← here))
      setScope scope
      let body ← attempt functionBody
      let ending ← attempt endCurrent
      settle body
      settle ending : Compile Unit) t = .ok u s' →
      t.errors = #[] ∧ ∀ place, found = some place → ∃ s₁ s₂ x y,
        functionBody { s₁ with scope := some x } = .ok () s₂ ∧ Defines place t s₁ s₂ s' x y := by
    intro t ran
    rw [bind_ok _ (here_eq t)] at ran
    obtain ⟨x, s₁, listed, ran⟩ := of_bind_ok ran
    rw [setScope, modify_bind] at ran
    obtain ⟨body, s₂, tried, ran⟩ := of_bind_ok ran
    obtain ⟨ending, s₄, ended, closing⟩ := of_bind_ok ran
    obtain ⟨_, s₅, settled, last⟩ := of_bind_ok closing
    obtain ⟨rfl, rfl⟩ := settle_ok settled
    obtain ⟨rfl, rfl⟩ := settle_ok last
    obtain ⟨y, scope, ended⟩ := endCurrent_ok (attempt_ok ended)
    obtain ⟨bound, before, result⟩ := endFunction_ok ended clean
    have body := (functionBody_shapes _ _ _ (attempt_ok tried) (.of_clean before)).toMoves
    obtain ⟨reads, fresh, load, list⟩ := parameterList_ok listed body.clean (start_fresh _ _ _)
    have clean : t.errors = #[] := reads.emits.errors ▸ body.clean
    refine ⟨clean, fun place same => ⟨s₁, s₂, x, y, ?_⟩⟩
    subst same
    have grown := body.grows.scope
    rw [scope] at grown
    obtain ⟨grown⟩ := grown
    exact ⟨attempt_ok tried, clean, reads, fresh, by
      simpa [Scope.start] using load, list, body, scope, bound,
        result place (grown.place.trans fresh.place)⟩
  cases found with
  | none =>
    simp only [Option.isNone_none, ↓reduceIte] at ok
    obtain ⟨_, t, reported, ok⟩ := of_bind_ok ok
    exact absurd (rest ok).1 (report_errors reported)
  | some place =>
    simp only [Option.isNone_some, Bool.false_eq_true, ↓reduceIte] at ok
    obtain ⟨s₁, s₂, x, y, stages⟩ := (rest ok).2 place rfl
    exact ⟨place, r, s₁, s₂, x, y, declared, stages⟩

theorem functionDefinition_clean {name : Token} (ok : functionDefinition name s = .ok u s')
    (clean : s'.errors = #[]) : s.errors = #[] := by
  obtain ⟨_, _, _, _, _, _, declared, _, defines⟩ := functionDefinition_ok ok clean
  exact (declareFunction_ok declared).1.symm.trans defines.clean

theorem Tracks.closed {base : List UInt32} (tracks : Tracks base [] s row)
    (scope : s.scope = some y) (loops : y.loops = []) (bound : y.unboundLabels = []) :
    ∀ x ∈ row, ∀ t, x.target? = some t → ∃ a ∈ bounds base.length row, t = .ip a := by
  have marks : s.marks = (y.labels, []) := by rw [marks_of_scope scope, loops]
  have none_ : ∀ t, t.isOpen = true → waiting s.marks [] t = [] := by
    intro t open_
    rw [marks]
    cases t with
    | label name =>
      have labels := tracks.labels name
      rw [marks] at labels
      rw [waiting]
      cases found : y.labels.find? name with
      | none => simp [labelOf, found]
      | some l =>
        have member := NameTable.find?_mem found
        cases placed : l.ip with
        | some a => exact (labels a (by simp [labelOf, found, placed])).2
        | none =>
          have unbound : (name, l.firstUse) ∈ y.unboundLabels := by
            simp only [Scope.unboundLabels, List.mem_map, List.mem_filter]
            exact ⟨(name, l), ⟨member, by simp [placed]⟩, rfl⟩
          rw [bound] at unbound
          simp at unbound
    | _ => simp [waiting]
  intro x member t aims
  cases open_ : t.isOpen with
  | true =>
    have holes := (tracks.holes t open_).trans (none_ t open_)
    exact absurd aims (holes_eq_nil_iff.mp holes x member)
  | false =>
    cases t with
    | ip a => exact ⟨a, tracks.targets x member a aims, rfl⟩
    | _ => simp [Target.isOpen] at open_

theorem Grows.entry_old (grows : Grows s s') (entry : s'.functions.entries[place]? = some callee) :
    s.functions.entries[place]? = some callee ∨ ∃ name, callee = .pending name := by
  obtain ⟨more, functions, pending⟩ := grows.functions
  rw [functions, NameTable.entries, List.map_append, List.getElem?_append] at entry
  split at entry
  · exact Or.inl entry
  · rw [List.getElem?_map, Option.map_eq_some_iff] at entry
    obtain ⟨new, found, rfl⟩ := entry
    exact Or.inr (pending new (List.mem_of_getElem? found))

theorem Defines.users (defines : Defines place s s₁ s₂ s' x y) (other : q ≠ place) :
    s'.functions.entries[q]? = some (.user f) ↔ s.functions.entries[q]? = some (.user f) := by
  have grows := defines.body.grows
  obtain ⟨tokens, line, rfl⟩ := defines.reads
  obtain rfl := defines.result
  rw [entries_modifyAt, if_neg other]
  constructor
  · intro entry
    rcases grows.entry_old entry with old | ⟨name, pending⟩
    · exact old
    · cases pending
  · intro entry
    have inside : q < s.functions.length := entry_lt entry
    exact (grows.entries_of_lt inside).trans entry

theorem finished_words (s : Session) (row : List Statement) (base : List UInt32)
    (words : s.words = base ++ rowWords Target.word row) :
    ((s.writer.opcode .returnValue).operand 0).entries.toList.map (·.word) =
      base ++ rowWords Target.word (row ++ [Statement.final]) := by
  rw [open_jump_words, words, rowWords_append, List.append_assoc]
  rfl

theorem Defines.ip (defines : Defines place r s₁ s₂ s' x y) : y.ip = r.writer.ip := by
  have grown := defines.body.grows.scope
  rw [defines.scope] at grown
  obtain ⟨grown⟩ := grown
  rw [grown.ip, defines.fresh.ip]

theorem Defines.entry (defines : Defines place r s₁ s₂ s' x y)
    (pending : r.functions.entries[place]? = some (.pending name)) : s'.functions.entries[place]? =
      some (.user ⟨name, .ofNat y.ip, .ofNat y.locals.length, .ofNat y.parameters.length⟩) := by
  have grows := defines.body.grows
  have inside : place < r.functions.length := entry_lt pending
  obtain ⟨tokens, line, rfl⟩ := defines.reads
  have kept : s₂.functions.entries[place]? = some (.pending name) :=
    (grows.entries_of_lt inside).trans pending
  rw [defines.result, entries_modifyAt, if_pos rfl, kept]
  rfl

theorem Defines.loops (defines : Defines place r s₁ s₂ s' x y) : y.loops = [] := by
  have rounds := defines.body.rounds
  rw [Session.rounds, Session.rounds, marks_of_scope defines.scope,
    marks_of_scope (x := x) rfl, defines.fresh.loops] at rounds
  simpa using rounds

theorem Defines.coded (name : String) (defines : Defines place r s₁ s₂ s' x y)
    (outside : r.scope = none) (ahead : r.tokens.ahead ≤ limit) (front : prelude.ip ≤ r.writer.ip)
    (tracks : Tracks s₁.words [] s₂ row) :
    s'.words = r.words ++ rowWords Target.word (row ++ [Statement.final]) ∧
    s'.tokens.ahead ≤ limit ∧
      Coded limit s' ⟨name, .ofNat y.ip, .ofNat y.locals.length, .ofNat y.parameters.length⟩
        ⟨y.ip, y.parameters.length, y.locals.length, row⟩ := by
  have opened : s₁.scope = none ∧ s₁.words = r.words := by
    obtain ⟨tokens, line, rfl⟩ := defines.reads
    exact ⟨outside, rfl⟩
  have targets := tracks.closed defines.scope defines.loops defines.bound
  have start : s₁.words.length = y.ip := by
    rw [defines.ip, ← words_length, opened.2]
  have words : s'.words = r.words ++ rowWords Target.word (row ++ [Statement.final]) := by
    rw [defines.result, ← opened.2]
    exact finished_words s₂ row _ tracks.words
  have load : y.parameters.length + y.locals.length + s₂.tokens.ahead ≤ limit := by
    have body := defines.body.load
    have list := defines.load
    have none_ : x.locals.length = 0 := by rw [defines.fresh.locals, List.length_nil]
    simp only [Session.load, defines.scope, opened.1, outside] at body list
    simp only [Option.map_some, Option.getD_some, Option.map_none, Option.getD_none] at body list
    omega
  refine ⟨words, ?_, rfl, rfl, rfl, ?_, ?_, ?_, start ▸ targets, ?_⟩
  · rw [defines.result]
    exact Nat.le_trans (Nat.le_add_left _ _) load
  · exact Nat.le_trans (Nat.le_add_right _ _) load
  · rw [defines.ip]
    exact front
  · refine ⟨r.words, [], ?_, ?_⟩
    · rw [writer_words, words, List.append_nil]
    · rw [words_length, defines.ip]
  · intro z member
    refine ((tracks.valid z member).mono (references_within_frame defines.scope)).mono ?_
    rw [defines.result]
    refine frame_within ?_ ?_ ?_ _ _
    · exact Nat.le_refl _
    · exact ⟨[], (List.append_nil _).symm⟩
    · exact fun _ _ admits => admits.mono (Nat.le_of_eq (length_modifyAt _ _ _).symm)
        (fun _ => offered_finished) fun _ => id

theorem Defines.tracked (defines : Defines place r s₁ s₂ s' x y)
    (ran : functionBody { s₁ with scope := some x } = .ok u s₂) (clean : s'.errors = #[])
    (terminated : s₁.unterminated = false) :
    ∃ row, Tracks s₁.words [] s₂ row ∧ Fills s₁.literals s₂.literals (rowLiterals row) := by
  have clean : s₂.errors = #[] := by
    rw [defines.result] at clean
    exact clean
  have fresh : Traces s₁.words [] { s₁ with scope := some x } [] :=
    (defines.fresh.tracks (s := { s₁ with scope := some x }) rfl :)
  obtain ⟨row, labels, traces, _, fills, _⟩ :=
    (functionBody_shapes _ _ _ ran (.of_clean clean)).traces terminated fresh
  exact ⟨_, traces, (rowLiterals_retarget _ row).symm ▸ fills⟩

theorem functionDefinition_arranged {name : Token} (ok : functionDefinition name s = .ok u s')
    (clean : s'.errors = #[]) (arranged : Arranged limit s) : Arranged limit s' := by
  obtain ⟨place, r, s₁, s₂, x, y, declared, ran, defines⟩ := functionDefinition_ok ok clean
  obtain ⟨errors, placed⟩ := declareFunction_ok declared
  obtain ⟨functions, rfl, longer, pending, others⟩ := placed place rfl
  obtain ⟨more, front⟩ := arranged.front
  have behind : prelude.ip ≤ s.writer.ip := by
    rw [← words_length, front, List.length_append]
    simp [CodeWriter.words, CodeWriter.ip]
  have terminated : s₁.unterminated = false :=
    defines.reads.emits.unterminated.trans arranged.terminated
  obtain ⟨row, tracks, fills⟩ := defines.tracked ran clean terminated
  obtain ⟨words, ahead, coded⟩ :=
    defines.coded name.lexeme arranged.outside arranged.ahead behind tracks
  have table : s₁.functions = functions ∧ s₁.calls = s.calls ∧ s₁.literals = s.literals ∧
      s₁.globals = s.globals := by
    obtain ⟨tokens, line, rfl⟩ := defines.reads
    exact ⟨rfl, rfl, rfl, rfl⟩
  have grows : Grows { s₁ with scope := some x } s₂ := defines.body.grows
  have result : s'.functions = s₂.functions.modifyAt place (finished y) ∧ s'.calls = s₂.calls := by
    rw [defines.result]
    exact ⟨rfl, rfl⟩
  -- Every other entry is an old one, or one that a call in the body has made and still waits for.
  have elsewhere : ∀ q callee, q ≠ place → s'.functions.entries[q]? = some callee →
      s.functions.entries[q]? = some callee ∨
        ∃ name, callee = .pending name ∧ ∃ c ∈ s₂.calls.toList, c.place = q := by
    intro q callee other entry
    rw [result.1, entries_modifyAt, if_neg other] at entry
    rcases grows.entry_old entry with old | ⟨pending, rfl⟩
    · exact Or.inl (others q other ▸ table.1 ▸ old)
    · rcases defines.body.called q pending entry with old | called
      · exact Or.inl (others q other ▸ table.1 ▸ old)
      · exact Or.inr ⟨pending, rfl, called⟩
  have at_place := defines.entry pending
  have literals : s.literals.size ≤ s'.literals.size := by
    rw [defines.result, ← table.2.2.1]
    exact grows.literals_le
  have globals : ∃ more, s'.globals = s.globals ++ more := by
    rw [defines.result, ← table.2.2.2]
    exact ⟨[], grows.globals.trans (List.append_nil _).symm⟩
  have functions_le : s.functions.length ≤ s'.functions.length := by
    rw [result.1, length_modifyAt]
    exact Nat.le_trans longer (table.1 ▸ grows.functions_le)
  have calls : ∀ c ∈ s.calls.toList, c ∈ s'.calls.toList := by
    intro c noted
    obtain ⟨more, calls⟩ := grows.calls
    rw [result.2, calls]
    exact List.mem_append_left _ (table.2.1 ▸ noted)
  have offered : ∀ (q : Nat) (f : Function), s'.functions.entries[q]? = some (.offered f) ↔
      s.functions.entries[q]? = some (.offered f) := by
    refine fun q f => ⟨fun entry => ?_, fun entry => ?_⟩
    · have other : q ≠ place := by
        rintro rfl
        rw [at_place] at entry
        cases entry
      rcases elsewhere q _ other entry with old | ⟨_, pending, _⟩
      · exact old
      · cases pending
    have other : q ≠ place := by
      rintro rfl
      obtain ⟨_, pending⟩ := declareFunction_unused declared entry
      cases pending
    have kept : s₁.functions.entries[q]? = some (.offered f) := by
      rw [table.1, others q other, entry]
    rw [result.1]
    exact offered_finished.mpr ((grows.entries_of_lt (entry_lt kept)).trans kept)
  refine ⟨?_, ?_, ⟨more ++ rowWords Target.word (row ++ [Statement.final]), ?_⟩, ?_, ?_, ?_, ahead⟩
  · rw [defines.result]
  · rw [defines.result]
    exact defines.body.terminated.trans terminated
  · rw [words, ← List.append_assoc, ← front]
    rfl
  · obtain ⟨bs, paved⟩ := arranged.paved
    refine ⟨_, paved.define (fun coded => coded.mono ⟨_, words⟩ literals globals
        fun q _ admits => admits.mono functions_le (offered q) calls)
      (defines.ip.trans (words_length s).symm) ?_ (fun g entry => ?_) at_place coded
      (fun q other g => ?_) ?_⟩
    · rw [words, List.length_append, rowWords_length, Body.behind, defines.ip, words_length]
    · obtain ⟨_, pending⟩ := declareFunction_unused declared entry
      cases pending
    · exact (defines.users other).trans (iff_of_eq (by rw [others q other]))
    · rw [defines.result, ← table.2.2.1]
      exact fills
  · intro q pending entry
    by_cases same : q = place
    · subst same
      rw [at_place] at entry
      cases entry
    · rw [result.2]
      rcases elsewhere q _ same entry with old | ⟨_, _, called⟩
      · obtain ⟨c, noted, at_⟩ := arranged.called q pending old
        exact ⟨c, result.2 ▸ calls c noted, at_⟩
      · exact called
  · exact fun q f entry => arranged.offered q f ((offered q f).mp entry)

structure Opens (tok : Token) (s s' : Session) : Prop where
  reads : Reads s s'
  load : s'.load ≤ s.load
  breaks : Breaks s.left (tok :: s'.left)

inductive Items : Session → Session → Prop where
  | nothing {s s' : Session} : s'.errors = #[] → Reads s s' → s'.load ≤ s.load → Breaks s.left [] →
      Items s s'
  | function {s r t s' : Session} {tok : Token} {u : Unit} : Opens tok s r → tok.kind = .symbol →
      functionDefinition tok r = .ok u t → Items t s' → Items s s'
  | globals {s r t s' : Session} {tok : Token} : Opens tok s r → tok.kind = .keyword .var →
      r.inHeader = true → Declares r t → Items t s' → Items s s'

theorem Items.clean (items : Items s s') : s.errors = #[] := by
  induction items with
  | nothing clean reads _ _ => exact reads.emits.errors ▸ clean
  | function opens _ ran _ clean =>
    exact opens.reads.emits.errors.symm.trans (functionDefinition_clean ran clean)
  | globals opens _ _ declares _ clean =>
    exact opens.reads.emits.errors.symm.trans (declares.errors.symm.trans clean)

theorem Items.arranged (items : Items s s') (arranged : Arranged limit s) : Arranged limit s' := by
  induction items with
  | nothing _ reads load _ => exact arranged.of_reads reads load
  | function opens _ ran rest ih =>
    exact ih (functionDefinition_arranged ran rest.clean (arranged.of_reads opens.reads opens.load))
  | globals opens _ _ declares _ ih =>
    exact ih (declares.arranged (arranged.of_reads opens.reads opens.load))

theorem topLevel_items (n : Nat) : ∀ {s s' : Session} {u : Unit},
    topLevel n s = .ok u s' → s'.errors = #[] → Items s s' := by
  induction n with
  | zero =>
    intro s s' u ok
    cases ok
  | succ n ih =>
    intro s s' u ok clean
    obtain ⟨_, s₁, flushed, ok⟩ := of_bind_ok ok
    obtain ⟨tok, s₂, taken, ok⟩ := of_bind_ok ok
    have token := nextPastBreaks_reads taken
    have left := flush_left flushed
    have reading : s₂.errors = #[] → Reads s s₂ ∧ s₂.load ≤ s.load := by
      intro clean
      obtain ⟨reads, load, _⟩ := flush_ok flushed (token.1.emits.errors ▸ clean)
      exact ⟨reads.trans token.1, by omega⟩
    split at ok
    · rename_i last
      cases ok
      obtain ⟨reads, load⟩ := reading clean
      exact .nothing clean reads load (left ▸ nextPastBreaks_end taken last)
    · rename_i solid
      obtain ⟨_, s₃, ran, ok⟩ := of_bind_ok ok
      have rest := ih ok clean
      have ran := recover_ok ran rest.clean
      have breaks : Breaks s.left (tok :: s₂.left) := left ▸ nextPastBreaks_left taken solid
      rw [topLevelItem, get_bind] at ran
      generalize kind : tok.kind = found at ran
      cases found with
      | symbol =>
        obtain ⟨ahead, r, peeked, ran⟩ := of_bind_ok ran
        have peek := peekKind_reads peeked
        split at ran
        · obtain ⟨reads, load⟩ :=
            reading (peek.1.emits.errors.symm.trans (functionDefinition_clean ran rest.clean))
          have breaks : Breaks s.left (tok :: r.left) := (peekKind_left peeked).1 ▸ breaks
          exact .function ⟨reads.trans peek.1, Nat.le_trans peek.2 load, breaks⟩ kind ran rest
        · cases ran
      | keyword k =>
        cases k with
        | var =>
          dsimp only at ran
          split at ran
          · rename_i header
            have declares := headerVariables_ok _ ran rest.clean
            obtain ⟨reads, load⟩ := reading (declares.errors.symm.trans rest.clean)
            exact .globals ⟨reads, load, breaks⟩ kind header declares rest
          · cases ran
        | _ => cases ran
      | _ => cases ran

structure Resolved (s : Session) (call : CallSite) : Prop where
  defined : ∀ name, s.functions.entries[call.place]? ≠ some (.pending name)
  counted : ∀ f, s.functions.entries[call.place]? = some (.user f) →
    call.arguments = f.parameters.toNat

theorem resolveCall_ok {call : CallSite} {missing missing' : List Nat}
    (ok : resolveCall missing call s = .ok missing' s') (clean : s'.errors = #[]) :
    missing' = missing ∧ s' = s ∧ (call.place ∉ missing → Resolved s call) := by
  rw [resolveCall, get_bind] at ok
  generalize entry : s.functions.entries[call.place]? = found at ok
  rcases found with _ | ⟨name⟩ | ⟨f⟩ | f
  · cases ok
    exact ⟨rfl, rfl, fun _ => ⟨by simp [entry], by simp [entry]⟩⟩
  · dsimp only at ok
    split at ok
    · rename_i known
      cases ok
      exact ⟨rfl, rfl, fun new => absurd (List.contains_iff_mem.mp known) new⟩
    · obtain ⟨_, t, reported, ok⟩ := of_bind_ok ok
      cases ok
      exact absurd clean (report_errors reported)
  · cases violated : (Arity.exactly f.parameters.toNat).violation? call.arguments with
    | none =>
      simp only [violated] at ok
      cases ok
      refine ⟨rfl, rfl, fun _ => ⟨by simp [entry], fun g same => ?_⟩⟩
      rw [entry] at same
      cases same
      exact Arity.exactly_admits_iff.mp ((Arity.violation?_eq_none_iff _ _).mp violated)
    | some v =>
      simp only [violated] at ok
      obtain ⟨_, t, reported, ok⟩ := of_bind_ok ok
      cases ok
      exact absurd clean (report_errors reported)
  · cases ok
    exact ⟨rfl, rfl, fun _ => ⟨by simp [entry], by simp [entry]⟩⟩

theorem foldlM_resolveCall_ok (calls : List CallSite) :
    ∀ {s s' : Session} {missing missing' : List Nat},
      calls.foldlM resolveCall missing s = .ok missing' s' → s'.errors = #[] →
        s' = s ∧ ∀ c ∈ calls, c.place ∉ missing → Resolved s c := by
  induction calls with
  | nil =>
    intro s s' missing missing' ok _
    cases ok
    exact ⟨rfl, by simp⟩
  | cons c calls ih =>
    intro s s' missing missing' ok clean
    rw [List.foldlM_cons] at ok
    obtain ⟨found, t, first, ok⟩ := of_bind_ok ok
    obtain ⟨rfl, rest⟩ := ih ok clean
    obtain ⟨rfl, rfl, resolved⟩ := resolveCall_ok first clean
    exact ⟨rfl, List.forall_mem_cons.mpr ⟨resolved, rest⟩⟩

theorem resolveCalls_ok (ok : resolveCalls s = .ok u s') (clean : s'.errors = #[]) :
    s' = s ∧ ∀ c ∈ s.calls.toList, Resolved s c := by
  rw [resolveCalls, get_bind] at ok
  obtain ⟨missing, ok⟩ := of_discard_ok ok
  obtain ⟨same, resolved⟩ := foldlM_resolveCall_ok _ ok clean
  exact ⟨same, fun c noted => resolved c noted (by simp)⟩

theorem resolveMain_ok (ok : resolveMain s = .ok u s') (clean : s'.errors = #[]) :
    ∃ place, (∃ f, s.functions.entries[place]? = some (.user f)) ∧
    s' = s.patched mainOperand place := by
  rw [resolveMain, get_bind] at ok
  generalize placed : s.functions.place? "Main" = at_ at ok
  generalize found : s.functions.find? "Main" = entry at ok
  have reported : ∀ {d : Diagnostic}, report d s = .ok u s' → False :=
    fun reported => report_errors reported clean
  rcases at_ with _ | place
  · exact (reported ok).elim
  rcases entry with _ | _ | _ | _
  case some.some.user f =>
    obtain ⟨_, rfl⟩ := EStateM.Result.ok.inj ((patchAddress_eq _ _ _).symm.trans ok)
    refine ⟨place, ⟨f, ?_⟩, rfl⟩
    have inside : place < s.functions.entries.length := by
      simpa [NameTable.entries] using place?_lt placed
    have entry := List.getElem?_eq_getElem inside
    rw [entry, ← find?_of_place? placed entry]
    exact found
  all_goals exact (reported ok).elim

theorem sourceRule_items (ok : sourceRule s = .ok u s') (clean : s'.errors = #[]) :
    ∃ t : Session, Items s t ∧ t.errors = #[] ∧ (∀ c ∈ t.calls.toList, Resolved t c) ∧
      ∃ place, (∃ f, t.functions.entries[place]? = some (.user f)) ∧
        Reads (t.patched mainOperand place) s' := by
  rw [sourceRule, get_bind] at ok
  obtain ⟨_, s₁, items, ok⟩ := of_bind_ok ok
  obtain ⟨_, s₂, calls, ok⟩ := of_bind_ok ok
  obtain ⟨_, s₃, entry, flushed⟩ := of_bind_ok ok
  obtain ⟨reads, _, clean⟩ := flush_ok flushed clean
  obtain ⟨place, inside, rfl⟩ := resolveMain_ok entry clean
  obtain ⟨rfl, resolved⟩ := resolveCalls_ok calls clean
  exact ⟨s₂, topLevel_items _ items clean, clean, resolved, place, inside, reads⟩

theorem sourceRule_ok (ok : sourceRule s = .ok u s') (clean : s'.errors = #[])
    (arranged : Arranged limit s) :
    ∃ t : Session, Arranged limit t ∧
      (∀ (place : Nat) (name : String), t.functions.entries[place]? ≠ some (.pending name)) ∧
      (∀ c ∈ t.calls.toList, Resolved t c) ∧ ∃ place,
      (∃ f, t.functions.entries[place]? = some (.user f)) ∧
        Reads (t.patched mainOperand place) s' := by
  obtain ⟨t, items, _, resolved, entry⟩ := sourceRule_items ok clean
  have arranged := items.arranged arranged
  refine ⟨t, arranged, ?_, resolved, entry⟩
  intro q name pending
  obtain ⟨c, noted, rfl⟩ := arranged.called q name pending
  exact (resolved c noted).defined name pending

theorem start_arranged {registry : Registry}
    (proper : ∀ entry ∈ registry.functions, Registry.Proper entry) (maxErrors : Nat)
    (source : String) :
    Arranged source.length (Session.start registry maxErrors source) := by
  have entries : ∀ (place : Nat) (callee : Callee),
      (Session.start registry maxErrors source).functions.entries[place]? = some callee →
        ∃ entry ∈ registry.functions, callee = .offered entry.2 := by
    intro place callee entry
    simp only [Session.start, NameTable.entries, List.map_map, List.getElem?_map,
      Option.map_eq_some_iff] at entry
    obtain ⟨named, found, rfl⟩ := entry
    exact ⟨named, List.mem_of_getElem? found, rfl⟩
  refine ⟨rfl, rfl, ⟨[], ?_⟩, ⟨[], ?_, by simp, ?_, .refl _ _⟩, ?_, ?_, ?_⟩
  · rw [List.append_nil]
    exact (writer_words _).symm
  · exact (words_length (Session.start registry maxErrors source)).symm
  · intro place f entry
    obtain ⟨_, _, other⟩ := entries place _ entry
    cases other
  · intro place name entry
    obtain ⟨_, _, other⟩ := entries place _ entry
    cases other
  · intro place f entry g
    obtain ⟨named, member, same⟩ := entries place _ entry
    cases same
    exact (proper named member).2 g
  · simp [Session.start, TokenStream.ofSource, TokenStream.ahead, String.length_toList]

theorem patched_prelude {more : List UInt32} (front : t.words = prelude.words.toList ++ more) :
    (t.patched mainOperand place).words =
      rowWords Target.word ([.plain (.call place [])] ++ [Statement.final]) ++ more := by
  have words : prelude.words.toList =
      [Opcode.callStatement.word, 0, 0, Opcode.returnValue.word, 0] := by
    simp [prelude, CodeWriter.words, CodeWriter.opcode, CodeWriter.operand, CodeWriter.empty]
  rw [patched_words, front, words]
  simp [rowWords, Statement.words, Statement.final, Plain.words, Plain.front, Plain.parts,
    partsWords, termsWords, mainOperand]

theorem patched_holds {ip : Nat} {ws : List UInt32} (behind : prelude.ip ≤ ip)
    (holds : Holds t.writer.words ip ws) :
    Holds (t.patched mainOperand place).writer.words ip ws := by
  obtain ⟨before, after, split, start⟩ := holds
  rw [writer_words] at split
  refine ⟨before.set mainOperand (.ofNat place), after, ?_, ?_⟩
  · rw [writer_words, patched_words, split, List.set_append_left]
    exact start ▸ Nat.lt_of_lt_of_le (by decide) behind
  · rw [List.length_set, start]

theorem toNat_word {n : Nat} (small : n < 2 ^ 32) : (UInt32.ofNat n).toNat = n :=
  UInt32.toNat_ofNat_of_lt' small

theorem frame_within_references (literals : s.literals.size = p.literals.size)
    (globals : s.globals.length = p.globals.size)
    (functions : s.functions.length = p.functions.size)
    (small : p.globals.size < 2 ^ 28 ∧ b.locals < 2 ^ 28 ∧ b.parameters < 2 ^ 28) :
    (s.frame b.parameters b.locals).Within (b.references p) := by
  have slots : ∀ kind, Session.frame.slots s b.parameters b.locals kind = b.slots p kind ∧
      b.slots p kind < 2 ^ 28 := by
    intro kind
    cases kind with
    | globals => exact ⟨globals, small.1⟩
    | locals => exact ⟨rfl, small.2.1⟩
    | parameters => exact ⟨rfl, small.2.2⟩
  have has : ∀ a, (s.frame b.parameters b.locals).slot a → b.HasSlot p a := by
    rintro a ⟨i, bound, same⟩
    obtain ⟨count, few⟩ := slots a.scope
    have index : a.index.toNat = i := by
      rw [same]
      exact toNat_word (by omega)
    exact ⟨by omega, by omega⟩
  exact ⟨fun _ inside => Nat.lt_of_lt_of_eq inside literals, has, fun a target => has a target.1,
    fun _ _ admits => Nat.lt_of_lt_of_eq admits.1 functions⟩

/-- The program consists of the tables of the session, with the function to start with filled in. -/
structure Makes (t : Session) (place : Nat) (p : Program) : Prop where
  words : p.words = (t.patched mainOperand place).writer.words
  functions : p.functions = (t.functions.entries.map Callee.toFunction).toArray
  globals : p.globals = (t.globals.entries.map Global.value).toArray
  literals : p.literals = t.literals

theorem Reads.makes (reads : Reads (t.patched mainOperand place) s) (lines : Bool) :
    Makes t place (s.program lines) := by
  obtain ⟨tokens, line, rfl⟩ := reads
  exact ⟨rfl, rfl, rfl, rfl⟩

namespace Makes

variable {place : Nat} {p : Program}

theorem globals_size (makes : Makes t place p) : t.globals.length = p.globals.size := by
  simp [makes.globals, NameTable.entries]

theorem functions_size (makes : Makes t place p) : t.functions.length = p.functions.size := by
  simp [makes.functions, NameTable.entries]

end Makes

theorem Coded.sound (coded : Coded limit t f b) (makes : Makes t place p) (short : limit < 2 ^ 32)
    (size : p.words.size < 2 ^ 32) (few : p.globals.size < 2 ^ 28)
    (slots : f.parameters.toNat < 2 ^ 28 ∧ f.locals.toNat < 2 ^ 28) :
    b.start = f.ip.toNat ∧ b.parameters = f.parameters.toNat ∧ b.locals = f.locals.toNat ∧
    b.Sound p := by
  have placed : Holds p.words b.start (rowWords Target.word (b.row ++ [Statement.final])) :=
    makes.words ▸ patched_holds coded.behind coded.placed
  have inside := placed.le_size
  have variables_ := coded.few
  have start : b.start = f.ip.toNat := by
    rw [coded.start]
    exact (toNat_word (by omega)).symm
  have parameters : b.parameters = f.parameters.toNat := by
    rw [coded.parameters]
    exact (toNat_word (by omega)).symm
  have locals : b.locals = f.locals.toNat := by
    rw [coded.locals]
    exact (toNat_word (by omega)).symm
  refine ⟨start, parameters, locals, placed, coded.targets, fun x member => ?_⟩
  exact (coded.valid x member).mono (frame_within_references (congrArg _ makes.literals.symm)
    makes.globals_size makes.functions_size ⟨few, by omega, by omega⟩)

def entryBody (place : Nat) : Body := ⟨0, 0, 0, [.plain (.call place [])]⟩

theorem entry_sound (arranged : Arranged limit t) (makes : Makes t place p)
    (inside : place < t.functions.length) : (entryBody place).Sound p := by
  obtain ⟨more, front⟩ := arranged.front
  refine ⟨⟨[], more, ?_, rfl⟩, by simp [entryBody, Statement.target?], ?_⟩
  · rw [makes.words, writer_words, patched_prelude front, List.nil_append]
    rfl
  · simp only [entryBody, List.mem_singleton, forall_eq]
    exact ⟨Nat.lt_of_lt_of_eq inside makes.functions_size, by simp [Plain.parts, partsValid]⟩

end Compile

def Function.FewSlots : Function → Prop
  | .user f => f.parameters.toNat < 2 ^ 28 ∧ f.locals.toNat < 2 ^ 28
  | _ => True

instance : (f : Function) → Decidable f.FewSlots
  | .user _ => inferInstanceAs (Decidable (_ ∧ _))
  | .host _ _ => .isTrue trivial
  | .native _ => .isTrue trivial

/-- Fewer than `2 ^ 28` words, entries of each table and variables of each kind. -/
structure Program.Small (p : Program) : Prop where
  words : p.words.size < 2 ^ 28
  functions : p.functions.size < 2 ^ 28
  globals : p.globals.size < 2 ^ 28
  literals : p.literals.size < 2 ^ 28
  slots : ∀ f ∈ p.functions, f.FewSlots

instance (p : Program) : Decidable p.Small :=
  decidable_of_iff (p.words.size < 2 ^ 28 ∧ p.functions.size < 2 ^ 28 ∧ p.globals.size < 2 ^ 28 ∧
      p.literals.size < 2 ^ 28 ∧ ∀ f ∈ p.functions, f.FewSlots)
    ⟨fun ⟨w, f, g, l, s⟩ => ⟨w, f, g, l, s⟩, fun ⟨w, f, g, l, s⟩ => ⟨w, f, g, l, s⟩⟩

theorem Options.registry_proper {host : Registry} (built : Registry.Built host)
    (options : Options) :
    ∀ entry ∈ (options.registry host).functions, Registry.Proper entry := by
  intro entry member
  unfold Options.registry at member
  dsimp only at member
  split at member
  · rcases Registry.addBuiltins_mem member with old | proper
    · exact Registry.built_proper built old
    · exact proper
  · exact Registry.built_proper built member

namespace Compile

variable {place : Nat} {p : Program} {f : UserFunction}

theorem toFunction_user {callee : Callee} (same : callee.toFunction = .user f) :
    callee = .user f ∨ (∃ name, callee = .pending name) ∨ callee = .offered (.user f) := by
  cases callee with
  | pending name => exact Or.inr (Or.inl ⟨name, rfl⟩)
  | user g => exact Or.inl (by rw [Callee.toFunction, Function.user.injEq] at same; rw [same])
  | offered g => exact Or.inr (Or.inr (by rw [Callee.toFunction] at same; rw [same]))

theorem Makes.user {q : Nat} (makes : Makes t place p) (arranged : Arranged limit t)
    (resolved : ∀ (q : Nat) (name : String), t.functions.entries[q]? ≠ some (.pending name)) :
    p.functions[q]? = some (.user f) ↔ t.functions.entries[q]? = some (.user f) := by
  rw [makes.functions, List.getElem?_toArray, List.getElem?_map, Option.map_eq_some_iff]
  constructor
  · rintro ⟨callee, at_, same⟩
    rcases toFunction_user same with rfl | ⟨name, rfl⟩ | rfl
    · exact at_
    · exact absurd at_ (resolved q name)
    · exact absurd rfl (arranged.offered q _ at_ f)
  · intro at_
    exact ⟨_, at_, rfl⟩

theorem Arranged.sound (arranged : Arranged limit t)
    (resolved : ∀ (q : Nat) (name : String), t.functions.entries[q]? ≠ some (.pending name))
    (inside : place < t.functions.length) (makes : Makes t place p) (short : limit < 2 ^ 32)
    (small : p.Small) :
    p.Sound := by
  have size := small.words
  refine ⟨by omega, Nat.le_of_lt (Nat.lt_trans small.literals (by decide)),
    Nat.le_of_lt (Nat.lt_trans small.functions (by decide)),
    ⟨_, rfl, ⟨rfl, rfl⟩, entry_sound arranged makes inside⟩, ?_⟩
  intro q f entry
  obtain ⟨b, coded⟩ := arranged.coded ((makes.user arranged resolved).mp entry)
  exact ⟨b, coded.sound makes short (by omega) small.globals
    (small.slots _ (Array.mem_of_getElem? entry))⟩

theorem Arranged.paves {bs : List Body} (arranged : Arranged limit t)
    (resolved : ∀ (q : Nat) (name : String), t.functions.entries[q]? ≠ some (.pending name))
    (inside : place < t.functions.length) (makes : Makes t place p) (short : limit < 2 ^ 32)
    (small : p.Small) (paved : Paved limit t bs) :
    Body.Paves 0 (entryBody place :: bs) p.words.size ∧ (∀ b ∈ entryBody place :: bs, b.Sound p) ∧
      ∀ f, .user f ∈ p.functions → ∃ b ∈ bs, b.start = f.ip.toNat := by
  have size := small.words
  have sound : ∀ {f b}, .user f ∈ p.functions → Coded limit t f b →
      b.start = f.ip.toNat ∧ b.Sound p := by
    intro f b member coded
    obtain ⟨start, -, -, sound⟩ :=
      coded.sound makes short (by omega) small.globals (small.slots _ member)
    exact ⟨start, sound⟩
  refine ⟨⟨rfl, ?_⟩, List.forall_mem_cons.mpr ⟨entry_sound arranged makes inside, ?_⟩, ?_⟩
  · have words : p.words.size = t.words.length := by
      rw [makes.words, ← Array.length_toList, writer_words, patched_words, List.length_set]
    rw [words]
    exact paved.paves
  · intro b member
    obtain ⟨q, f, entry, coded⟩ := paved.defined b member
    exact (sound (Array.mem_of_getElem? ((makes.user arranged resolved).mpr entry)) coded).2
  · intro f member
    obtain ⟨q, entry⟩ := Array.mem_iff_getElem?.mp member
    obtain ⟨b, listed, coded⟩ := paved.coded q f ((makes.user arranged resolved).mp entry)
    exact ⟨b, listed, (sound member coded).1⟩

end Compile

end Scriptlet
