import Scriptlet.Proofs.Compile.Soundness

/-!
Where the jumps of a compiled program go. At the end of a function all its labels are bound, so the
words that were written are those of its row with every label replaced by its address; and no
operand is open, so every jump goes to the start of a statement of the same function, or to the
return that ends it. The code of a whole source is the call of the entry function and then one
function behind the other.
-/
namespace Scriptlet.Compile

open Actions Code Script Grammar

variable {s s' t : Session} {labels : Bindings} {os : List Outline} {pool : Array Value} {u : Unit}
  {y : Scope} {place : Nat}

theorem lookup_label (distinct : (labels.map (·.1)).Nodup) (name : String) (a : Nat) :
    labels.lookup name = some a ↔ (name, a) ∈ labels := by
  induction labels with
  | nil => simp
  | cons first labels ih =>
    obtain ⟨other, b⟩ := first
    rw [List.map_cons, List.nodup_cons] at distinct
    obtain ⟨new, distinct⟩ := distinct
    rw [List.lookup_cons, List.mem_cons, Prod.mk.injEq]
    by_cases same : name = other
    · subst same
      have apart : (name, a) ∉ labels := fun member => new (List.mem_map.mpr ⟨_, member, rfl⟩)
      simp [apart, eq_comm]
    · have differs : (name == other) = false := beq_eq_false_iff_ne.mpr same
      simp [differs, same, ih distinct]

theorem Binds.settled_eq (binds : Binds s s' labels) (none_ : s.marks.1 = []) :
    settled s'.marks.1 = labels.settle := by
  have bound : ∀ name, (labelOf s'.marks.1 name).ip = labels.lookup name := by
    intro name
    apply Option.ext
    intro a
    rw [binds.bound, lookup_label binds.distinct, none_]
    simp [labelOf, NameTable.find?]
  funext t
  cases t with
  | label name => rw [settled, Bindings.settle, bound]
  | _ => rfl

theorem Traces.closed {base : List UInt32} {row : List Statement} (traces : Traces base [] s row)
    (scope : s.scope = some y) (loops : y.loops = [])
    (bound : y.unboundLabels = []) (settles : settled s.marks.1 = labels.settle)
    (distinct : (labels.map (·.1)).Nodup) (name : String) :
    Outline.Closed ⟨name, base.length, row, labels⟩ := by
  refine ⟨distinct, fun x member t aims => ?_⟩
  have aims' : (x.retarget (settled s.marks.1)).target? = some (settled s.marks.1 t) := by
    rw [Statement.retarget_target?, aims, Option.map_some]
  obtain ⟨a, known, reaches⟩ :=
    Tracks.closed traces scope loops bound _ (List.mem_map_of_mem member) _ aims'
  obtain ⟨before, after, split, rfl⟩ := mem_bounds_iff.mp known
  obtain ⟨front, behind, rfl, rfl, _⟩ := List.map_eq_append_iff.mp split
  rw [settles, rowSize_retarget] at reaches
  -- A jump to the end of the body goes to the return behind it.
  cases behind with
  | nil => exact ⟨front, Statement.final, [], by simp [Outline.code], reaches⟩
  | cons y behind => exact ⟨front, y, behind ++ [Statement.final], by simp [Outline.code], reaches⟩

def Described (pool : Array Value) (o : Outline) (ts us : List Token) : Prop :=
  ∃ ws xs ys, ParameterList ts ws ∧ Breaks ws xs ∧ Mark .leftBrace xs ys ∧
    ConveysAll pool none o.start ys us o.row o.labels

theorem Defines.outlined {s₁ s₂ : Session} {x : Scope} (name : String)
    (defines : Defines place s s₁ s₂ s' x y)
    (ran : functionBody { s₁ with scope := some x } = .ok () s₂) (ending : Ending pool s')
    (terminated : s.unterminated = false) :
    ∃ o : Outline, o.name = name ∧ o.start = s.writer.ip ∧ o.Closed ∧
      Described pool o s.left s'.left ∧ s'.words = s.words ++ o.words ∧
      s'.unterminated = false := by
  have ended := defines.result
  have opened : s₁.words = s.words ∧ s₁.unterminated = s.unterminated := by
    obtain ⟨tokens, line, rfl⟩ := defines.reads
    exact ⟨rfl, rfl⟩
  have ending₂ : Ending pool s₂ := by
    rw [ended] at ending
    exact ⟨ending.clean, ending.kept⟩
  have left : s'.left = s₂.left := by
    rw [ended]
    rfl
  have fresh : Traces s₁.words [] { s₁ with scope := some x } [] :=
    (defines.fresh.tracks (s := { s₁ with scope := some x }) rfl :)
  have labels₁ : ({ s₁ with scope := some x } : Session).marks.1 = [] := defines.fresh.labels
  have exits₁ : ({ s₁ with scope := some x } : Session).exits = none := by
    simp [Session.exits, Session.rounds, Session.marks, defines.fresh.loops]
  have terminated₁ : s₁.unterminated = false := opened.2.trans terminated
  have body := functionBody_shapes _ _ _ ran ending₂
  obtain ⟨row, labels, traces, binds, _, xs, ys, breaks, brace, code⟩ :=
    body.traces terminated₁ fresh
  have settles := binds.settled_eq labels₁
  have start : s₁.words.length = s.writer.ip := by rw [opened.1, words_length]
  have closed := traces.closed defines.scope defines.loops defines.bound settles binds.distinct name
  refine ⟨_, rfl, start, closed, ⟨_, xs, ys, defines.list, breaks, brace, ?_⟩, ?_, ?_⟩
  · rw [exits₁] at code
    rw [left, words_length]
    exact code
  · have written := finished_words s₂ _ _ traces.words
    rw [ended, ← opened.1, Outline.words, ← settles, ← rowWords_retarget, Outline.code,
      List.map_append]
    exact written
  · rw [ended]
    exact body.terminated.trans terminated₁

def Entered (s : Session) (o : Outline) : Prop :=
  ∃ f, .user f ∈ s.functions.entries ∧ f.name = o.name ∧ f.ip = .ofNat o.start

/-- The functions that were added to the program. -/
structure Outlined (s s' : Session) (os : List Outline) : Prop where
  terminated : s.unterminated = false → s'.unterminated = false
  words : s'.words = s.words ++ os.flatMap Outline.words
  closed : ∀ o ∈ os, o.Closed
  entered : ∀ o ∈ os, Entered s' o
  users : ∀ f, .user f ∈ s.functions.entries → .user f ∈ s'.functions.entries
  literals : ∀ (i : Nat) v, s.literals[i]? = some v → s'.literals[i]? = some v

theorem Outlined.none (words : s'.words = s.words) (functions : s'.functions = s.functions)
    (literals : s'.literals = s.literals) (terminated : s'.unterminated = s.unterminated) :
    Outlined s s' [] where
  terminated := fun before => terminated.trans before
  words := by simp [words]
  closed := by simp
  entered := by simp
  users := fun f member => functions ▸ member
  literals := fun i v found => literals ▸ found

theorem Reads.outlined (reads : Reads s s') : Outlined s s' [] := by
  obtain ⟨tokens, line, rfl⟩ := reads
  exact .none rfl rfl rfl rfl

theorem Outlined.trans {more : List Outline} (first : Outlined s t os)
    (second : Outlined t s' more) :
    Outlined s s' (os ++ more) where
  terminated := fun before => second.terminated (first.terminated before)
  words := by rw [second.words, first.words, List.flatMap_append, List.append_assoc]
  closed := by
    intro o member
    rcases List.mem_append.mp member with old | new
    · exact first.closed o old
    · exact second.closed o new
  entered := by
    intro o member
    rcases List.mem_append.mp member with old | new
    · obtain ⟨f, entry, name, ip⟩ := first.entered o old
      exact ⟨f, second.users f entry, name, ip⟩
    · exact second.entered o new
  users := fun f member => second.users f (first.users f member)
  literals := fun i v found => second.literals i v (first.literals i v found)

theorem declareFunction_free {name : String} {f : UserFunction}
    (ok : declareFunction name s = .ok (some place) s') :
    s.functions.entries[place]? ≠ some (.user f) := by
  intro entry
  obtain ⟨q, t, placed, ok⟩ := of_bind_ok ok
  have grows := (functionPlace_ok placed).1.grows
  rw [get_bind] at ok
  generalize found : t.functions.entries[q]? = old at ok
  rcases old with _ | ⟨other⟩ | _ | _
  case some.pending =>
    cases ok
    have inside : place < s.functions.length := by
      simpa [NameTable.entries] using (List.getElem?_eq_some_iff.mp entry).1
    rw [grows.entries_of_lt inside, entry] at found
    cases found
  all_goals cases ok

theorem functionDefinition_outlined {name : Token} (ok : functionDefinition name s = .ok u s')
    (ending : Ending pool s') (terminated : s.unterminated = false) :
    ∃ o : Outline, o.name = name.lexeme ∧ o.start = s.writer.ip ∧ Described pool o s.left s'.left ∧
      Outlined s s' [o] := by
  obtain ⟨place, r, s₁, s₂, x, y, declared, ran, defines⟩ := functionDefinition_ok ok ending.clean
  have left : r.left = s.left := ((still_declareFunction _).left declared :)
  have free := fun f => declareFunction_free (f := f) declared
  obtain ⟨_, placed⟩ := declareFunction_ok declared
  obtain ⟨functions, rfl, _, pending, others⟩ := placed place rfl
  obtain ⟨o, named, start, closed, described, words, ended⟩ :=
    defines.outlined name.lexeme ran ending terminated
  rw [left] at described
  refine ⟨o, named, start, described, fun _ => ended, ?_, ?_, ?_, ?_, ?_⟩
  · rw [List.flatMap_singleton]
    exact words
  · intro o' member
    obtain rfl := List.mem_singleton.mp member
    exact closed
  · intro o' member
    obtain rfl := List.mem_singleton.mp member
    refine ⟨_, List.mem_of_getElem? (defines.entry pending), named.symm, ?_⟩
    rw [start, defines.ip]
  · intro f member
    obtain ⟨q, entry⟩ := List.getElem?_of_mem member
    have apart : q ≠ place := by
      rintro rfl
      exact free f entry
    have entry' : functions.entries[q]? = some (.user f) := (others q apart).trans entry
    exact List.mem_of_getElem? ((defines.users apart).mpr entry')
  · intro i v found
    rw [defines.result]
    exact defines.body.grows.literal_of (defines.reads.emits.grows.literal_of found :)

theorem Declares.outlined (declares : Declares s s') : Outlined s s' [] := by
  obtain ⟨more, ⟨tokens, line, rfl⟩, _⟩ := declares.tables
  exact .none rfl rfl rfl rfl

theorem Items.outlined (items : Items s s') (ending : Ending pool s')
    (terminated : s.unterminated = false) :
    ∃ os, Sourced pool s.writer.ip s.left os ∧ Outlined s s' os := by
  induction items with
  | nothing _ reads _ breaks => exact ⟨[], .nil breaks, reads.outlined⟩
  | @function s r t s' tok u opens kind ran rest ih =>
    have terminated : r.unterminated = false := opens.reads.emits.unterminated.trans terminated
    -- Which literals are kept to the end is known only behind the rest of the source.
    obtain ⟨_, _, _, _, item⟩ :=
      functionDefinition_outlined ran ⟨rest.clean, fun _ _ => id⟩ terminated
    obtain ⟨more, later, others⟩ := ih ending (item.terminated terminated)
    have ending : Ending pool t :=
      ⟨rest.clean, fun i v found => ending.kept i v (others.literals i v found)⟩
    obtain ⟨o, named, start, ⟨ws, xs, ys, list, skip, brace, code⟩, outlined⟩ :=
      functionDefinition_outlined ran ending terminated
    refine ⟨o :: more, ?_, opens.reads.outlined.trans (outlined.trans others)⟩
    have size : t.writer.ip = o.start + rowSize o.code := by
      rw [← words_length, outlined.words, List.length_append, words_length, ← start]
      simp [Outline.words, rowWords_length]
    rw [size] at later
    have start : o.start = s.writer.ip := start.trans opens.reads.emits.ip
    rw [← start]
    exact .function opens.breaks ⟨tok, kind, named.symm, rfl⟩ list skip brace code later
  | @globals s r t s' tok opens kind _ declares rest ih =>
    have terminated : r.unterminated = false := opens.reads.emits.unterminated.trans terminated
    have outlined := opens.reads.outlined.trans declares.outlined
    obtain ⟨more, later, others⟩ := ih ending (declares.outlined.terminated terminated)
    refine ⟨more, ?_, outlined.trans others⟩
    have size : t.writer.ip = s.writer.ip := by
      rw [← words_length, ← words_length, outlined.words]
      simp
    rw [size] at later
    exact .globals opens.breaks ⟨tok, kind, rfl⟩ declares.phrase later

theorem sourceRule_sourced (ok : sourceRule s = .ok u s') (clean : s'.errors = #[])
    (terminated : s.unterminated = false) :
    ∃ t os place, Sourced s'.literals s.writer.ip s.left os ∧ Outlined s t os ∧
      Reads (t.patched mainOperand place) s' := by
  obtain ⟨t, items, clean, _, place, _, reads⟩ := sourceRule_items ok clean
  have ending : Ending s'.literals t := ⟨clean, fun _ _ => (reads.emits.grows.literal_of :)⟩
  obtain ⟨os, source, outlined⟩ := items.outlined ending terminated
  exact ⟨t, os, place, source, outlined, reads⟩

end Scriptlet.Compile
