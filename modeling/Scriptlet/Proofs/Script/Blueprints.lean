import Scriptlet.Proofs.Script.Definitions

/-!
Whole sources compile if the bodies of their functions do. Definition after definition, every
function gets its place and its code, and what comes later leaves both as they are. In the end every
call finds its function, and where the entry of a function points to, there is the code of its body.
What the bodies consist of does not matter here.
-/
namespace Scriptlet.Compile

open Actions Code Script

variable {s s' t : Session} {g : Signature} {base : NameTable Callee} {budget limit : Nat}
  {rest : List Lexeme} {y : Scope} {place : Nat} {row : List Statement} {b : Blueprint}
  {start : Nat}

def Session.namingIn (s : Session) (y : Scope) : Naming where
  slot x a := y.resolve? x = some a
  place f i := s.functions.place? f = some i
  literal i v := s.literals[i]? = some v

theorem naming_of_scope (scope : s.scope = some y) : s.naming = s.namingIn y := by
  simp only [Session.naming, Session.namingIn, scope, Option.bind_some]

/-- The source of a function, and what its code has to be. The body goes up to its closing brace. -/
structure Blueprint where
  name : String
  parameters : List String
  body : List Lexeme
  code : Naming → Nat → List Statement → Prop

def Blueprint.lexemes (b : Blueprint) : List Lexeme :=
  .name b.name :: .leftParen :: (parameterLexemes b.parameters ++
    .leftBrace :: .lineBreak :: (b.body ++ [.lineBreak]))

def Offering (base functions : NameTable Callee) : Prop :=
  ∀ f i h, base.place? f = some i → base.entries[i]? = some (.offered h) →
    functions.place? f = some i ∧ functions.entries[i]? = some (.offered h)

structure Bodywork (g : Signature) (budget : Nat) (code : Naming → Nat → List Statement → Prop)
    (s s' : Session) (rest : List Lexeme) (x y : Scope) (row : List Statement) : Prop where
  ahead : Ahead rest s'.tokens
  ready : Ready g budget s'
  scope : s'.scope = some y
  bound : y.unboundLabels = []
  grown : Scope.Grows x y
  tracks : Tracks s.words [] s' row
  code : code (s'.namingIn y) s.writer.ip row

structure Upcoming (g : Signature) (base : NameTable Callee) (budget : Nat) (b : Blueprint) :
    Prop where
  parameters : ∀ x ∈ b.parameters, Token.isMain x = false
  distinct : b.parameters.Nodup
  known : g.functions.lookup b.name = some b.parameters.length
  small : b.lexemes.length ≤ budget
  mono : ∀ r r' start row, r.Within r' → b.code r start row → b.code r' start row
  body : ∀ (s : Session) (x : Scope) (place : Nat) (rest : List Lexeme), Ready g budget s →
    Offering base s.functions → Fresh (some place) s.writer.ip x → x.parameters = b.parameters →
    Ahead (.leftBrace :: .lineBreak :: (b.body ++ rest)) s.tokens →
    ∃ s' y row, functionBody { s with scope := some x } = .ok () s' ∧
      Bodywork g budget b.code s s' rest x y row

structure Keeping (s s' : Session) : Prop where
  words : ∃ more, s'.words = s.words ++ more
  places : ∀ f i, s.functions.place? f = some i → s'.functions.place? f = some i
  literals : ∀ (i : Nat) v, s.literals[i]? = some v → s'.literals[i]? = some v

structure Installed (limit : Nat) (s : Session) (b : Blueprint) (place start : Nat) (y : Scope)
    (row : List Statement) : Prop where
  placed : s.functions.place? b.name = some place
  entry : s.functions.entries[place]? = some (.user
    ⟨b.name, .ofNat start, .ofNat y.locals.length, .ofNat b.parameters.length⟩)
  parameters : y.parameters = b.parameters
  few : b.parameters.length + y.locals.length ≤ limit
  behind : prelude.ip ≤ start
  holds : Holds s.writer.words start (rowWords Target.word (row ++ [Statement.final]))
  code : b.code (s.namingIn y) start row

theorem Installed.mono (upcoming : Upcoming g base budget b)
    (installed : Installed limit s b place start y row) (keeping : Keeping s s')
    (entry : ∀ f, s.functions.entries[place]? = some (.user f) →
      s'.functions.entries[place]? = some (.user f)) : Installed limit s' b place start y row := by
  have within : (s.namingIn y).Within (s'.namingIn y) :=
    ⟨fun _ _ => id, keeping.places, keeping.literals⟩
  refine { installed with
    placed := keeping.places _ _ installed.placed
    entry := entry _ installed.entry
    holds := ?_
    code := upcoming.mono _ _ _ _ within installed.code }
  obtain ⟨more, words⟩ := keeping.words
  obtain ⟨before, after, split, at_⟩ := installed.holds
  refine ⟨before, after ++ more, ?_, at_⟩
  rw [writer_words] at split ⊢
  simp [words, split]

structure Between (g : Signature) (base : NameTable Callee) (budget limit : Nat) (s : Session) :
    Prop extends Ready g budget s where
  offering : Offering base s.functions
  outside : s.scope = none
  front : ∃ more, s.words = prelude.words.toList ++ more
  ahead : s.tokens.ahead ≤ limit

theorem Between.behind (between : Between g base budget limit s) : prelude.ip ≤ s.writer.ip := by
  obtain ⟨more, front⟩ := between.front
  rw [← words_length, front, List.length_append]
  simp [CodeWriter.words, CodeWriter.ip]

theorem Between.of_reads (between : Between g base budget limit s) (reads : Reads s s')
    (load : s'.load ≤ s.load) : Between g base budget limit s' := by
  obtain ⟨tokens, line, rfl⟩ := reads
  refine ⟨between.toReady.of_tables rfl rfl rfl rfl rfl, between.offering, between.outside,
    between.front, ?_⟩
  have shorter : tokens.ahead ≤ s.tokens.ahead := by
    simpa [Session.load, between.outside] using load
  exact Nat.le_trans shorter between.ahead

section Defines

variable {place : Nat} {s₁ s₂ : Session} {x y : Scope} {row : List Statement}

theorem Defines.keeping (defines : Defines place s s₁ s₂ s' x y)
    (tracks : Tracks s₁.words [] s₂ row) :
    Keeping s s' := by
  have grows := defines.body.grows
  obtain ⟨tokens, line, rfl⟩ := defines.reads
  obtain rfl := defines.result
  refine ⟨⟨_, finished_words s₂ row _ tracks.words⟩, fun f i found => ?_, fun i v found => ?_⟩
  · obtain ⟨more, functions, _⟩ := grows.functions
    refine (place?_modifyAt _ _ _ _).trans ?_
    rw [functions]
    exact place?_append found
  · exact grows.literal_of found

theorem Defines.kept {q : Nat} {c : Callee} (defines : Defines place s s₁ s₂ s' x y)
    (other : q ≠ place) (entry : s.functions.entries[q]? = some c) :
    s'.functions.entries[q]? = some c := by
  have grows := defines.body.grows
  obtain ⟨tokens, line, rfl⟩ := defines.reads
  obtain rfl := defines.result
  rw [entries_modifyAt, if_neg other]
  exact (grows.entries_of_lt (entry_lt entry)).trans entry

theorem Offering.of_defines {name : String} (offering : Offering base s.functions)
    (pending : s.functions.entries[place]? = some (.pending name))
    (defines : Defines place s s₁ s₂ s' x y) (tracks : Tracks s₁.words [] s₂ row) :
    Offering base s'.functions := by
  intro f i h based entry
  obtain ⟨placed, offered⟩ := offering f i h based entry
  refine ⟨(defines.keeping tracks).places f i placed, defines.kept ?_ offered⟩
  rintro rfl
  cases pending.symm.trans offered

end Defines

theorem Offering.of_declared {functions functions' : NameTable Callee} {name : String}
    (offering : Offering base functions)
    (places : ∀ f i, functions.place? f = some i → functions'.place? f = some i)
    (placed : functions'.place? name = some place)
    (others : ∀ q ≠ place, functions'.entries[q]? = functions.entries[q]?)
    (own : ∀ i h, functions.place? name = some i → functions.entries[i]? ≠ some (.offered h)) :
    Offering base functions' := by
  intro f i h based entry
  obtain ⟨at_, offered⟩ := offering f i h based entry
  refine ⟨places f i at_, (others i ?_).trans offered⟩
  rintro rfl
  obtain rfl := place?_inj (places f i at_) placed
  exact own i h at_ offered

theorem functionDefinition_installs {tok : Token} (same : tok.lexeme = b.name)
    (upcoming : Upcoming g base budget b)
    (new : ∀ i h, s.functions.place? b.name = some i → s.functions.entries[i]? ≠ some (.user h))
    (between : Between g base budget limit s)
    (ahead : Ahead (.leftParen :: (parameterLexemes b.parameters ++
      .leftBrace :: .lineBreak :: (b.body ++ rest))) s.tokens) :
    ∃ s' place start y row, functionDefinition tok s = .ok () s' ∧ Ahead rest s'.tokens ∧
      Between g base budget limit s' ∧ Keeping s s' ∧
      (∀ q ≠ place, ∀ f, s'.functions.entries[q]? = some (.user f) ↔
        s.functions.entries[q]? = some (.user f)) ∧ Installed limit s' b place start y row := by
  have known := upcoming.known
  have small := upcoming.small
  simp only [Blueprint.lexemes, List.length_cons, List.length_append] at small
  obtain ⟨place, functions, declared, ready, placed, places⟩ :=
    declareFunction_takes (s := { s with inHeader := false })
      (between.toReady.of_tables rfl rfl rfl rfl rfl) known new
  obtain ⟨_, taken⟩ := declareFunction_ok declared
  obtain ⟨_, table, _, pending, others⟩ := taken place rfl
  obtain rfl : functions = _ := congrArg Session.functions table
  have offering : Offering base functions := between.offering.of_declared places placed others
    fun i h => between.own b.name _ i h known
  obtain ⟨s₁, listed, behind, reads⟩ := parameterList_lists
    (x := Scope.start tok.lexeme (some place) s.writer.ip) rfl rfl upcoming.parameters
    upcoming.distinct (by omega) ready ahead
  generalize made : Scope.mk _ _ _ b.parameters _ _ _ = x at listed
  have given : x.parameters = b.parameters := by rw [← made]
  obtain ⟨_, fresh, load, list⟩ := parameterList_ok listed (reads.emits.errors.trans ready.clean)
    (start_fresh _ _ _)
  have opened : Fresh (some place) s₁.writer.ip x ∧ s₁.functions = functions := by
    obtain ⟨tokens, line, rfl⟩ := reads
    exact ⟨fresh, rfl⟩
  obtain ⟨s₂, y, row, ran, work⟩ := upcoming.body s₁ x place rest (ready.of_reads reads)
    (opened.2 ▸ offering) opened.1 given behind
  have defines : Defines place _ s₁ s₂ _ _ y := ⟨ready.clean, reads, fresh,
    by simpa [Scope.start] using load, list,
    (functionBody_shapes _ _ _ ran (.of_clean work.ready.clean)).toMoves, work.scope,
      work.bound, rfl⟩
  obtain ⟨words, ahead, coded⟩ :=
    defines.coded b.name between.outside between.ahead between.behind work.tracks
  have keeping := defines.keeping work.tracks
  have parameters : y.parameters = b.parameters := work.grown.parameters.trans given
  have start : y.ip = s₁.writer.ip := work.grown.ip.trans opened.1.ip
  -- Finishing the entry changes none that the host offered.
  have ready' : Ready g budget { s₂ with
      scope := none
      writer := (s₂.writer.opcode .returnValue).operand 0
      functions := s₂.functions.modifyAt place (finished y) } := by
    refine (work.ready.modifyAt place (finished y) ?_).of_tables rfl rfl rfl rfl rfl
    intro c h offered
    cases c with
    | offered h' => exact ⟨h', rfl⟩
    | pending | user => cases offered
  rw [← same] at declared
  refine ⟨_, place, y.ip, y, row, functionDefinition_eq declared listed ran work.scope work.bound
    (work.grown.place.trans fresh.place), work.ahead,
    ⟨ready', offering.of_defines pending defines work.tracks, rfl, ?_, ahead⟩, ?_, ?_, ?_⟩
  · obtain ⟨more, front⟩ := between.front
    refine ⟨more ++ rowWords Target.word (row ++ [Statement.final]), words.trans ?_⟩
    rw [← List.append_assoc, ← front]
    rfl
  · exact ⟨keeping.words, fun f i found => keeping.places f i (places f i found), keeping.literals⟩
  · intro q other f
    rw [defines.users other]
    exact iff_of_eq (congrArg (· = _) (others q other))
  · refine ⟨keeping.places _ _ placed, parameters ▸ defines.entry pending, parameters,
      parameters ▸ coded.few, coded.behind, coded.placed, ?_⟩
    rw [start]
    refine upcoming.mono (s₂.namingIn y) _ _ _ ?_ work.code
    exact ⟨fun _ _ => id, fun _ _ found => (place?_modifyAt _ _ _ _).trans found, fun _ _ => id⟩

/-- Some of the functions of a source have been compiled, and nothing else. -/
structure Defined (g : Signature) (base : NameTable Callee) (room limit : Nat)
    (done : List Blueprint) (s : Session) : Prop extends Between g base room limit s where
  users : ∀ i f, s.functions.entries[i]? = some (.user f) →
    ∃ b ∈ done, s.functions.place? b.name = some i
  upcoming : ∀ b ∈ done, Upcoming g base room b
  installed : ∀ b ∈ done, ∃ place start y row, Installed limit s b place start y row

section Defined

variable {done : List Blueprint} {b : Blueprint} {tok : Token}

theorem Defined.of_reads (defined : Defined g base budget limit done s)
    (reads : Reads s s') (load : s'.load ≤ s.load) : Defined g base budget limit done s' := by
  refine ⟨defined.toBetween.of_reads reads load, ?_, defined.upcoming, ?_⟩
  · obtain ⟨tokens, line, rfl⟩ := reads
    exact defined.users
  · intro b member
    obtain ⟨place, start, y, row, installed⟩ := defined.installed b member
    obtain ⟨tokens, line, rfl⟩ := reads
    exact ⟨place, start, y, row, installed.mono (defined.upcoming b member)
      ⟨⟨[], (List.append_nil _).symm⟩, fun _ _ => id, fun _ _ => id⟩ fun _ => id⟩

theorem Defined.unused (defined : Defined g base budget limit done s)
    (new : ∀ e ∈ done, e.name ≠ b.name) (i : Nat) (f : UserFunction)
    (placed : s.functions.place? b.name = some i) : s.functions.entries[i]? ≠ some (.user f) := by
  intro entry
  obtain ⟨e, member, at_⟩ := defined.users i f entry
  exact new e member (place?_inj at_ placed)

theorem functionDefinition_defined (same : tok.lexeme = b.name)
    (upcoming : Upcoming g base budget b) (new : ∀ e ∈ done, e.name ≠ b.name)
    (defined : Defined g base budget limit done s)
    (ahead : Ahead (.leftParen :: (parameterLexemes b.parameters ++
      .leftBrace :: .lineBreak :: (b.body ++ rest))) s.tokens) :
    ∃ s', functionDefinition tok s = .ok () s' ∧ Ahead rest s'.tokens ∧
      Defined g base budget limit (done ++ [b]) s' := by
  obtain ⟨s', place, start, y, row, ran, ahead, between, keeping, users, installed⟩ :=
    functionDefinition_installs same upcoming (defined.unused new) defined.toBetween ahead
  refine ⟨s', ran, ahead, between, ?_, ?_, ?_⟩
  · intro i f entry
    by_cases here : i = place
    · subst here
      exact ⟨b, by simp, installed.placed⟩
    · obtain ⟨e, member, at_⟩ := defined.users i f ((users i here f).mp entry)
      exact ⟨e, List.mem_append_left _ member, keeping.places _ _ at_⟩
  · intro e member
    rcases List.mem_append.mp member with old | last
    · exact defined.upcoming e old
    · exact List.mem_singleton.mp last ▸ upcoming
  · intro e member
    rcases List.mem_append.mp member with old | last
    · obtain ⟨place', start', y', row', installed'⟩ := defined.installed e old
      have apart : place' ≠ place := by
        rintro rfl
        exact new e old (place?_inj (keeping.places _ _ installed'.placed) installed.placed)
      exact ⟨place', start', y', row', installed'.mono (defined.upcoming e old) keeping
        fun f => (users place' apart f).mpr⟩
    · rw [List.mem_singleton.mp last]
      exact ⟨place, start, y, row, installed⟩

theorem topLevelItem_defined (read : (Lexeme.name b.name).Matches tok)
    (upcoming : Upcoming g base budget b) (new : ∀ e ∈ done, e.name ≠ b.name)
    (defined : Defined g base budget limit done s)
    (ahead : Ahead (.leftParen :: (parameterLexemes b.parameters ++
      .leftBrace :: .lineBreak :: (b.body ++ rest))) s.tokens) :
    ∃ s', topLevelItem tok s = .ok () s' ∧ Ahead rest s'.tokens ∧
      Defined g base budget limit (done ++ [b]) s' := by
  have kind : tok.kind = .symbol := read.1
  have same : tok.lexeme = b.name := read.2 (by simp [Lexeme.name])
  obtain ⟨s₁, peeked, ahead⟩ := peekKind_sees ahead
  obtain ⟨reads, load⟩ := peekKind_reads peeked
  obtain ⟨s', ran, ahead, defined⟩ := functionDefinition_defined same upcoming new
    (defined.of_reads reads load) ahead
  refine ⟨s', ?_, ahead, defined⟩
  rw [topLevelItem, get_bind, kind]
  simp only
  rw [bind_ok _ peeked]
  exact ran

theorem topLevel_defined (bs : List Blueprint) : ∀ (n : Nat) (done : List Blueprint) (s : Session),
    (∀ b ∈ bs, Upcoming g base budget b) → ((done ++ bs).map (·.name)).Nodup → bs.length < n →
    Defined g base budget limit done s → Past (bs.flatMap Blueprint.lexemes) s.tokens →
    ∃ s', topLevel n s = .ok () s' ∧ s'.tokens.errors = #[] ∧
      Defined g base budget limit (done ++ bs) s' := by
  induction bs with
  | nil =>
    intro n done s _ _ enough defined past
    obtain ⟨n, rfl⟩ := Nat.exists_eq_add_one_of_ne_zero (Nat.ne_of_gt enough)
    obtain ⟨last, errors⟩ := past.end_
    obtain ⟨reads, load⟩ := nextPastBreaks_reads (s := s) rfl
    refine ⟨_, ?_, errors, by simpa using defined.of_reads reads (by omega)⟩
    rw [topLevel, bind_ok _ (flush_none past.errors), bind_ok (x := nextPastBreaks) _ rfl,
      if_pos last]
    rfl
  | cons b bs ih =>
    intro n done s upcoming distinct enough defined past
    obtain ⟨n, rfl⟩ := Nat.exists_eq_add_one_of_ne_zero (Nat.ne_of_gt (Nat.zero_lt_of_lt enough))
    rw [List.flatMap_cons, Blueprint.lexemes] at past
    simp only [List.cons_append, List.append_assoc, List.nil_append] at past
    have errors := past.errors
    obtain ⟨tok, s₁, taken, read, ahead⟩ := nextPastBreaks_sees (by simp [Lexeme.name]) past
    obtain ⟨reads, load⟩ := nextPastBreaks_reads taken
    have new : ∀ e ∈ done, e.name ≠ b.name := by
      intro e member same
      simp only [List.map_append, List.map_cons] at distinct
      exact (List.nodup_append.mp distinct).2.2 _ (List.mem_map_of_mem member) _ (by simp) same
    obtain ⟨s₂, ran, ahead, defined⟩ := topLevelItem_defined read (upcoming b (by simp)) new
      (defined.of_reads reads (by omega)) ahead
    obtain ⟨s', rest, errors', defined⟩ := ih n (done ++ [b]) s₂
      (fun e member => upcoming e (by simp [member])) (by simpa using distinct)
      (by simpa using enough) defined (Or.inr ahead)
    refine ⟨s', ?_, errors', by simpa using defined⟩
    have kind : ¬tok.kind = .endOfFile := by rw [read.1]; simp [Lexeme.name]
    rw [topLevel, bind_ok _ (flush_none errors), bind_ok _ taken, if_neg kind,
      bind_ok _ (recover_of_ok ran), rest]

end Defined

section Resolve

variable {bs : List Blueprint}

theorem resolveCall_defined {missing : List Nat} {c : CallSite} (short : limit < 2 ^ 32)
    (listed : ∀ f n, g.functions.lookup f = some n → ∃ b ∈ bs, b.name = f ∧ b.parameters.length = n)
    (defined : Defined g base budget limit bs s) (noted : c ∈ s.calls.toList) :
    resolveCall missing c s = .ok missing s := by
  obtain ⟨f, known, placed⟩ := defined.calls c noted
  obtain ⟨b, member, rfl, count⟩ := listed f _ known
  obtain ⟨place, start, y, row, installed⟩ := defined.installed b member
  obtain rfl := Option.some.inj (placed.symm.trans installed.placed)
  have few := installed.few
  have fits : (Arity.exactly (UInt32.ofNat b.parameters.length).toNat).violation?
      c.arguments = none := by
    rw [toNat_word (by omega), count]
    simp [Arity.exactly, Arity.violation?]
  rw [resolveCall, get_bind, installed.entry]
  simp only [fits]
  rfl

theorem resolveCalls_defined (short : limit < 2 ^ 32)
    (listed : ∀ f n, g.functions.lookup f = some n → ∃ b ∈ bs, b.name = f ∧ b.parameters.length = n)
    (defined : Defined g base budget limit bs s) : resolveCalls s = .ok () s := by
  have all : ∀ calls : List CallSite, (∀ c ∈ calls, c ∈ s.calls.toList) →
      calls.foldlM resolveCall [] s = .ok [] s := by
    intro calls noted
    induction calls with
    | nil => rfl
    | cons c calls ih =>
      rw [List.foldlM_cons,
        bind_ok _ (resolveCall_defined short listed defined (noted c (by simp)))]
      exact ih fun e member => noted e (by simp [member])
  rw [resolveCalls, get_bind]
  exact discard_ok (all _ fun _ => id)

theorem resolveMain_defined {b : Blueprint} {start : Nat} {y : Scope} (entry : b.name = "Main")
    (installed : Installed limit s b place start y row) :
    resolveMain s = .ok () (s.patched mainOperand place) := by
  have placed := installed.placed
  rw [entry] at placed
  rw [resolveMain, get_bind, placed, find?_of_place? placed installed.entry]
  exact patchAddress_eq _ _ _

end Resolve

def blueprintText (bs : List Blueprint) : String :=
  String.ofList (spell (bs.flatMap Blueprint.lexemes))

theorem length_le_spell (ls : List Lexeme) : ls.length ≤ (spell ls).length := by
  induction ls with
  | nil => simp
  | cons l ls ih =>
    rw [spell, List.flatMap_cons, List.length_append, List.length_append, List.length_cons]
    have tail : (ls.flatMap fun l => l.text.toList ++ [' ']).length = (spell ls).length := rfl
    simp only [List.length_singleton]
    omega

theorem length_lexemes_le (bs : List Blueprint) :
    (bs.flatMap Blueprint.lexemes).length ≤ (blueprintText bs).length := by
  rw [← String.length_toList, blueprintText, String.toList_ofList]
  exact length_le_spell _

theorem blueprint_length_le {bs : List Blueprint} (member : b ∈ bs) :
    b.lexemes.length ≤ (blueprintText bs).length := by
  refine Nat.le_trans ?_ (length_lexemes_le bs)
  rw [List.flatMap_def]
  exact (List.sublist_flatten_of_mem (List.mem_map_of_mem member)).length_le

theorem blueprints_length_le (bs : List Blueprint) : bs.length ≤ (blueprintText bs).length := by
  refine Nat.le_trans ?_ (length_lexemes_le bs)
  induction bs with
  | nil => simp
  | cons b bs ih =>
    rw [List.flatMap_cons, List.length_append, Blueprint.lexemes]
    simp only [List.length_cons]
    omega

def offeredBy (registry : Registry) : NameTable Callee :=
  registry.functions.map fun (name, f) => (name, .offered f)

/-- Functions that make up a source. -/
structure Planned (g : Signature) (registry : Registry) (bs : List Blueprint) : Prop where
  registered : g.registered = registry.functions.map (·.1) ++ registry.constants.map (·.1)
  own : ∀ f n, g.functions.lookup f = some n →
    (f == "Main" || !Token.isMain f) = true ∧ f ∉ registry.functions.map (·.1)
  listed : ∀ f n, g.functions.lookup f = some n → ∃ b ∈ bs, b.name = f ∧ b.parameters.length = n
  upcoming : ∀ b ∈ bs, ∀ budget, b.lexemes.length ≤ budget →
    Upcoming g (offeredBy registry) budget b
  distinct : (bs.map (·.name)).Nodup
  entry : ∃ b ∈ bs, b.name = "Main"
  legible : ∀ b ∈ bs, ∀ l ∈ b.lexemes, l.Legible

variable {registry : Registry} {bs : List Blueprint}

theorem start_ready (sourced : Planned g registry bs) (maxErrors : Nat) (source : String) :
    Ready g (source.length + 2) (Session.start registry maxErrors source) := by
  have keys : ((Session.start registry maxErrors source).functions).map (·.1) =
      registry.functions.map (·.1) := by
    simp [Session.start]
  refine ⟨?_, ?_, ?_, ?_, by simp [Session.start], rfl, rfl⟩
  · intro f n known
    have spelled := (sourced.own f n known).1
    rw [functionKey]
    split
    · rename_i main
      simp only [main, Bool.not_true, Bool.or_false, beq_iff_eq] at spelled
      exact spelled.symm
    · rfl
  · intro x var
    refine place?_none_of_names ?_
    rintro entry member rfl
    simp only [Signature.isVariable, Bool.and_eq_true, Bool.not_eq_true', List.contains_eq_mem,
      decide_eq_false_iff_not, sourced.registered] at var
    refine var.2 (List.mem_append_right _ ?_)
    obtain ⟨constant, there, rfl⟩ := List.mem_map.mp member
    exact List.mem_map_of_mem there
  · intro entry member
    rw [sourced.registered]
    exact Or.inl (List.mem_append_left _ (keys ▸ List.mem_map_of_mem member))
  · intro f n i h known placed
    have absent : (Session.start registry maxErrors source).functions.place? f = none := by
      refine place?_none_of_names ?_
      rintro entry member rfl
      exact (sourced.own _ n known).2 (keys ▸ List.mem_map_of_mem member)
    rw [absent] at placed
    cases placed

theorem start_defined (sourced : Planned g registry bs) (maxErrors : Nat) (source : String) :
    Defined g (offeredBy registry) (source.length + 2) source.length []
      (Session.start registry maxErrors source) := by
  refine ⟨⟨start_ready sourced maxErrors source, fun _ _ _ placed entry => ⟨placed, entry⟩, rfl,
    ⟨[], ?_⟩, ?_⟩, ?_, by simp, by simp⟩
  · rw [List.append_nil]
    exact (writer_words _).symm
  · simp [Session.start, TokenStream.ofSource, TokenStream.ahead, String.length_toList]
  · intro i f entry
    simp only [Session.start, NameTable.entries, List.map_map, List.getElem?_map,
      Option.map_eq_some_iff] at entry
    obtain ⟨_, _, other⟩ := entry
    cases other

def programNaming (p : Program) (places : String → Option Nat) (y : Scope) : Naming where
  slot x a := y.resolve? x = some a
  place f i := places f = some i
  literal i v := p.literals[i]? = some v

structure Built (limit : Nat) (p : Program) (places : String → Option Nat) (b : Blueprint)
    (place start : Nat) (y : Scope) (row : List Statement) : Prop where
  placed : places b.name = some place
  entry : p.functions[place]? = some (.user
    ⟨b.name, .ofNat start, .ofNat y.locals.length, .ofNat b.parameters.length⟩)
  parameters : y.parameters = b.parameters
  few : b.parameters.length + y.locals.length ≤ limit
  holds : Holds p.words start (rowWords Target.word (row ++ [Statement.final]))
  code : b.code (programNaming p places y) start row

theorem program_function {i : Nat} {c : Callee} (lines : Bool)
    (entry : s.functions.entries[i]? = some c) :
    (s.program lines).functions[i]? = some c.toFunction := by
  change (s.functions.entries.map Callee.toFunction).toArray[i]? = _
  rw [List.getElem?_toArray, List.getElem?_map, entry, Option.map_some]

theorem Installed.built (entry : Nat) (lines : Bool)
    (installed : Installed limit s b place start y row) :
    Built limit ((s.patched mainOperand entry).program lines) s.functions.place? b place start
      y row where
  placed := installed.placed
  entry := program_function (s := s.patched mainOperand entry) lines installed.entry
  parameters := installed.parameters
  few := installed.few
  holds := patched_holds installed.behind installed.holds
  code := installed.code

/-- The source compiles, and the program has every function of the source and of the registry. -/
theorem compile_blueprints {host : Registry} {options : Options}
    (sourced : Planned g (options.registry host) bs) (short : (blueprintText bs).length < 2 ^ 32) :
    ∃ p places, compile host options (blueprintText bs) = .ok p ∧
    (∃ i more, places "Main" = some i ∧
        p.words.toList = rowWords Target.word ([.plain (.call i [])] ++ [Statement.final]) ++
          more) ∧
      (∀ b ∈ bs, ∃ place start y row, Built (blueprintText bs).length p places b place
        start y row) ∧
      ∀ f i h, (offeredBy (options.registry host)).place? f = some i →
        (offeredBy (options.registry host)).entries[i]? = some (.offered h) →
        places f = some i ∧ p.functions[i]? = some h := by
  have upcoming : ∀ b ∈ bs, Upcoming g (offeredBy (options.registry host))
      ((blueprintText bs).length + 2) b := by
    intro b member
    have := blueprint_length_le member
    exact sourced.upcoming b member _ (by omega)
  have ahead : Ahead (bs.flatMap Blueprint.lexemes) (.ofSource (blueprintText bs)) := by
    have legible : ∀ l ∈ bs.flatMap Blueprint.lexemes, l.Legible := by
      intro l member
      obtain ⟨b, there, inside⟩ := List.mem_flatMap.mp member
      exact sourced.legible b there l inside
    rw [TokenStream.ofSource, blueprintText, String.toList_ofList]
    exact (spell_ahead legible 1).1
  obtain ⟨t, items, errors, defined⟩ := topLevel_defined bs ((blueprintText bs).length + 2) []
    (Session.start (options.registry host) options.maxErrors (blueprintText bs)) upcoming
    sourced.distinct (by have := blueprints_length_le bs; omega)
    (start_defined sourced options.maxErrors (blueprintText bs)) (Or.inl ahead)
  obtain ⟨b, member, main⟩ := sourced.entry
  obtain ⟨place, start, y, row, installed⟩ := defined.installed b member
  have source : sourceRule (Session.start (options.registry host) options.maxErrors
      (blueprintText bs)) = .ok () (t.patched mainOperand place) := by
    rw [sourceRule, get_bind]
    refine (bind_ok _ items).trans ?_
    rw [bind_ok _ (resolveCalls_defined short sourced.listed defined),
      bind_ok _ (resolveMain_defined main installed)]
    exact flush_none errors
  have clean : (t.patched mainOperand place).errors = #[] := defined.clean
  refine ⟨(t.patched mainOperand place).program options.lineNumbers, t.functions.place?, ?_,
    ?_, ?_, ?_⟩
  · rw [compile, finalSession, source]
    simp [clean]
  · obtain ⟨more, front⟩ := defined.front
    exact ⟨place, more, main ▸ installed.placed, (writer_words _).trans (patched_prelude front)⟩
  · intro e there
    obtain ⟨place', start', y', row', installed'⟩ := defined.installed e there
    exact ⟨place', start', y', row', installed'.built place options.lineNumbers⟩
  · intro f i h placed entry
    obtain ⟨there, offered⟩ := defined.offering f i h placed entry
    exact ⟨there, program_function (s := t.patched mainOperand place) options.lineNumbers offered⟩

end Scriptlet.Compile
