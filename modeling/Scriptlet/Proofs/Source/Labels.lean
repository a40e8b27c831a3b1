import Scriptlet.Proofs.Compile.Loops
import Scriptlet.Proofs.Source.Layout

/-!
The code of a function with its labels by name. What the compiler writes at a jump to a label is an
address or a hole; here the row keeps the name of the label, and the words are those of the row with
all labels settled that are bound so far. Binding a label settles more of it and changes nothing
else.

Code is added piece by piece. The jumps of a branch are filled in as soon as their places are
reached, those of a loop when it is closed. Both leave the rest of the code as it is, jumps to
labels included, wherever these are bound.
-/
namespace Scriptlet.Compile

open Actions Code Script Grammar

variable {s s' t : Session} {k a : Nat} {labels : NameTable Label} {pending' : List Nat}
  {name : String} {x y : Scope} {more : List Statement} {l : Loop} {rest : List Loop} {u u' : Unit}
  {f : List Term}

/-- A label that is bound becomes its address. -/
def settled (labels : NameTable Label) : Target → Target
  | .label name => ((labelOf labels name).ip.map .ip).getD (.label name)
  | t => t

def Session.settle (s : Session) (row : List Statement) : List Statement :=
  row.map (·.retarget (settled s.marks.1))

theorem settled_bound (bound : (labelOf labels name).ip = some a) :
    settled labels (.label name) = .ip a := by
  rw [settled, bound]
  rfl

theorem settled_unbound (unbound : (labelOf labels name).ip = none) :
    settled labels (.label name) = .label name := by
  rw [settled, unbound]
  rfl

theorem settled_nameless {t : Target} (labels : NameTable Label)
    (nameless : ∀ name, t ≠ .label name) :
    settled labels t = t := by
  cases t with
  | label name => exact absurd rfl (nameless name)
  | _ => rfl

theorem settle_append (s : Session) (row more : List Statement) :
    s.settle (row ++ more) = s.settle row ++ s.settle more :=
  List.map_append

theorem rowSize_settle (s : Session) (row : List Statement) :
    rowSize (s.settle row) = rowSize row :=
  rowSize_retarget _ _

theorem settled_eq_iff {t u : Target} (open_ : t.isOpen = true)
    (nameless : ∀ name, t ≠ .label name) :
    settled labels u = t ↔ u = t := by
  cases u with
  | label name =>
    cases bound : (labelOf labels name).ip with
    | none => rw [settled_unbound bound]
    | some a =>
      rw [settled_bound bound]
      constructor
      · rintro rfl
        cases open_
      · rintro rfl
        exact absurd rfl (nameless name)
  | _ => exact Iff.rfl

theorem settle_plain (s : Session) (ps : List Plain) :
    s.settle (ps.map .plain) = ps.map .plain := by
  simp [Session.settle, Statement.retarget]

theorem settle_unlabelled {row : List Statement} (none : s.marks.1 = []) : s.settle row = row := by
  rw [Session.settle, none]
  refine List.map_id'' (fun x => ?_) row
  cases x with
  | plain p => rfl
  | jump t | jumpIfFalse t f => cases t <;> rfl

theorem settle_aimed {x : Statement} {t : Target} (s : Session) (aims : x.target? = some t)
    (nameless : ∀ name, t ≠ .label name) : s.settle [x] = [x] := by
  cases x with
  | plain p => cases aims
  | jump u | jumpIfFalse u f =>
    obtain rfl := Option.some.inj aims
    rw [Session.settle, List.map_singleton, Statement.retarget, settled_nameless _ nameless]

theorem resolveRow_settle {t : Target} (s : Session) (open_ : t.isOpen = true)
    (nameless : ∀ name, t ≠ .label name) (address : Nat) (row : List Statement) :
    resolveRow t address (s.settle row) = s.settle (resolveRow t address row) := by
  have swap : ∀ u, t.resolve address (settled s.marks.1 u) =
      settled s.marks.1 (t.resolve address u) := by
    intro u
    by_cases same : u = t
    · rw [same, settled_nameless _ nameless, Target.resolve_self]
      rfl
    · rw [Target.resolve_of_ne address same,
        Target.resolve_of_ne address fun h => same ((settled_eq_iff open_ nameless).mp h)]
  simp only [resolveRow, Session.settle, List.map_map]
  refine List.map_congr_left fun x _ => ?_
  cases x with
  | plain p => rfl
  | jump u => exact congrArg Statement.jump (swap u)
  | jumpIfFalse u f => exact congrArg (Statement.jumpIfFalse · f) (swap u)

structure Binds (s s' : Session) (labels : Bindings) : Prop where
  bound : ∀ name a, (labelOf s'.marks.1 name).ip = some a ↔
    (labelOf s.marks.1 name).ip = some a ∨ (name, a) ∈ labels
  fresh : ∀ name a, (name, a) ∈ labels → (labelOf s.marks.1 name).ip = none
  distinct : (labels.map (·.1)).Nodup

theorem Binds.none (same : ∀ name, (labelOf s'.marks.1 name).ip = (labelOf s.marks.1 name).ip) :
    Binds s s' [] :=
  ⟨fun name a => by simp [same], by simp, by simp⟩

theorem Binds.of_labels (same : s'.marks.1 = s.marks.1) : Binds s s' [] :=
  .none fun name => by rw [same]

theorem Binds.trans {labels others : Bindings} (first : Binds s t labels)
    (second : Binds t s' others) :
    Binds s s' (labels ++ others) := by
  have later : ∀ name a, (name, a) ∈ others → (labelOf s.marks.1 name).ip = Option.none := by
    intro name a member
    rw [Option.eq_none_iff_forall_ne_some]
    intro b old
    have unbound := second.fresh name a member
    rw [(first.bound name b).mpr (Or.inl old)] at unbound
    cases unbound
  refine ⟨?_, ?_, ?_⟩
  · intro name a
    rw [second.bound, first.bound, List.mem_append, or_assoc]
  · intro name a member
    rcases List.mem_append.mp member with old | new
    · exact first.fresh name a old
    · exact later name a new
  · rw [List.map_append, List.nodup_append]
    refine ⟨first.distinct, second.distinct, ?_⟩
    rintro name member other member' rfl
    obtain ⟨⟨_, a⟩, old, rfl⟩ := List.mem_map.mp member
    obtain ⟨⟨_, b⟩, new, same⟩ := List.mem_map.mp member'
    obtain rfl : _ = _ := same
    have unbound := second.fresh _ b new
    rw [(first.bound _ a).mpr (Or.inr old)] at unbound
    cases unbound

theorem Binds.of_front {labels : Bindings} (same : t.marks.1 = s.marks.1)
    (binds : Binds t s' labels) :
    Binds s s' labels :=
  (Binds.of_labels same).trans binds

theorem Binds.then_same {labels : Bindings} (binds : Binds s t labels)
    (same : s'.marks.1 = t.marks.1) :
    Binds s s' labels := by
  simpa using binds.trans (.of_labels same)

theorem settle_of_binds {row : List Statement} (binds : Binds s s' []) :
    s'.settle row = s.settle row := by
  have same : ∀ name, (labelOf s'.marks.1 name).ip = (labelOf s.marks.1 name).ip := by
    intro name
    apply Option.ext
    intro a
    have := binds.bound name a
    simpa using this
  refine List.map_congr_left fun x _ => ?_
  have all : settled s'.marks.1 = settled s.marks.1 := by
    funext t
    cases t with
    | label name => rw [settled, settled, same]
    | _ => rfl
  rw [all]

/-- The code written so far is that of the row. -/
def Traces (base : List UInt32) (pending : List Nat) (s : Session) (row : List Statement) : Prop :=
  Tracks base pending s (s.settle row)

variable {base : List UInt32} {pending : List Nat} {row : List Statement} {ps : List Plain}
  {ws : List UInt32} {leave : Bool} {resume : Nat} {step : Plain}

theorem Traces.ip_eq (traces : Traces base pending s row) :
    s.writer.ip = base.length + rowSize row := by
  rw [Tracks.ip_eq traces, rowSize_settle]

theorem Traces.ip_append (traces : Traces base pending s row)
    (longer : Traces base pending' s' (row ++ more)) :
    s'.writer.ip = s.writer.ip + rowSize more := by
  rw [longer.ip_eq, traces.ip_eq, rowSize_append, Nat.add_assoc]

theorem Traces.of_append (labels : s'.marks.1 = s.marks.1) (nameless : s.settle more = more)
    (tracks : Tracks base pending' s' (s.settle row ++ more)) :
    Traces base pending' s' (row ++ more) := by
  rw [Traces, settle_of_binds (.of_labels labels), settle_append, nameless]
  exact tracks

theorem Traces.of_same (labels : s'.marks.1 = s.marks.1)
    (tracks : Tracks base pending' s' (s.settle row)) :
    Traces base pending' s' row := by
  rw [Traces, settle_of_binds (.of_labels labels)]
  exact tracks

theorem Traces.of_resolved {t : Target} {address : Nat} (open_ : t.isOpen = true)
    (nameless : ∀ name, t ≠ .label name) (labels : s'.marks.1 = s.marks.1)
    (tracks : Tracks base pending' s' (resolveRow t address (s.settle row))) :
    Traces base pending' s' (resolveRow t address row) := by
  rw [Traces, settle_of_binds (.of_labels labels), ← resolveRow_settle s open_ nameless]
  exact tracks

section

variable (traces : Traces base pending s row)
include traces

theorem Traces.of_emits (emits : Emits s s' [] k) : Traces base pending s' row :=
  .of_same (congrArg _ emits.marks)
    (Tracks.of_grows traces (by simpa using emits.words) emits.marks emits.grows.within)

theorem Traces.append_plains
    (emits : Emits s s' (ps.flatMap Plain.words) k) (valid : ∀ p ∈ ps, p.Valid s'.references) :
    Traces base pending s' (row ++ ps.map .plain) :=
  .of_append (congrArg _ emits.marks) (settle_plain s ps) (Tracks.append_plains traces emits valid)

theorem Traces.append_plain {p : Plain} (emits : Emits s s' p.words k)
    (valid : p.Valid s'.references) : Traces base pending s' (row ++ [.plain p]) :=
  .of_append (congrArg _ emits.marks) (settle_plain s [p]) (Tracks.append_plain traces emits valid)

theorem Traces.resolve_none {t : Target} (open_ : t.isOpen = true)
    (nameless : ∀ name, t ≠ .label name) (none_ : waiting s.marks pending t = []) (address : Nat) :
    resolveRow t address row = row := by
  refine resolveRow_self (fun x member aims => ?_) address
  have holes : Code.holes t base.length (s.settle row) = [] := (traces.holes t open_).trans none_
  refine holes_eq_nil_iff.mp holes _ (List.mem_map_of_mem member) ?_
  rw [Statement.retarget_target?, aims, Option.map_some, settled_nameless _ nameless]

theorem Traces.append_later {x : Statement} (new : s.writer.ip + 1 ∉ pending)
    (aims : x.target? = some (.later (s.writer.ip + 1)))
    (words : x.words Target.word = ws) (emits : Emits s s' ws k) (valid : x.Valid s'.references) :
    Traces base ((s.writer.ip + 1) :: pending) s' (row ++ [x]) :=
  .of_append (congrArg _ emits.marks) (settle_aimed s aims (by simp))
    (Tracks.append_later traces new aims words emits valid)

end

theorem Traces.resolve_later {operand : Nat} (traces : Traces base (operand :: pending) s row)
    (new : operand ∉ pending) : Traces base pending (s.patched operand s.writer.ip)
      (resolveRow (.later operand) s.writer.ip row) :=
  .of_resolved rfl (by simp) rfl (Tracks.resolve_later traces new (Tracks.ip_mem traces))

theorem Traces.of_pending (traces : Traces base pending s row)
    (same : ∀ a, a ∈ pending' ↔ a ∈ pending) : Traces base pending' s row :=
  Tracks.of_pending traces same

theorem Traces.append_jump (traces : Traces base pending s row)
    (ok : emitWith .jump (.ofNat a) s = .ok u s') (known : a ∈ bounds base.length (s.settle row)) :
    Traces base pending s' (row ++ [.jump (.ip a)]) := by
  obtain ⟨_, rfl⟩ := EStateM.Result.ok.inj ((emitWith_eq .jump (.ofNat a) s).symm.trans ok)
  have words : ((s.writer.opcode .jump).operand (.ofNat a)).entries.toList.map (·.word) =
      s.words ++ [Opcode.jump.word, .ofNat a] := by
    simp [CodeWriter.opcode, CodeWriter.operand, Session.words]
  have jumped := Tracks.append_jump traces words known
  have aimed : s.settle [.jump (.ip a)] = [.jump (.ip a)] :=
    settle_aimed (t := .ip a) s rfl (by simp)
  refine .of_append ?_ aimed jumped
  rfl

theorem Traces.append_test (traces : Traces base pending s row) (scope : s.scope = some x)
    (loops : x.loops = l :: rest) (emits : Emits (s.testing x l rest) s' (partsWords [f]) 0)
    (valid : partsValid s'.references [f]) :
    Traces base pending s' (row ++ [.jumpIfFalse (.exit rest.length) f]) := by
  have labels : s'.marks.1 = s.marks.1 := by
    rw [emits.marks, testing_labels l rest scope]
  exact .of_append labels (settle_aimed s rfl (by simp))
    (Tracks.append_test traces scope loops emits valid)

abbrev Segment := Exits → Nat → List Statement → Bindings → Prop

/-- A piece of code is added to the row of the function. -/
def Lays (s s' : Session) (piece : Segment) : Prop :=
  ∀ ⦃base pending row⦄, Traces base pending s row → ∃ new labels,
    Traces base pending s' (row ++ new) ∧
    Binds s s' labels ∧ piece s.exits s.writer.ip new labels

/-- Reaching a place that some jumps of a piece wait for leaves it a piece of its kind. -/
def Resolves (piece : Segment) : Prop :=
  ∀ ⦃exits start row labels⦄ (t : Target) (address : Nat), t.isOpen = true →
    (∀ name, t ≠ .label name) →
    piece exits start row labels → piece (exits.resolve t address) start
      (resolveRow t address row) labels

variable {p q : Segment} {r r' : Session} {id : LoopId}

theorem Lays.mono (adds : Lays s s' p)
    (weaker : ∀ {new labels}, p s.exits s.writer.ip new labels → q s.exits s.writer.ip new labels) :
    Lays s s' q := by
  intro base pending row traces
  obtain ⟨new, labels, traced, binds, piece⟩ := adds traces
  exact ⟨new, labels, traced, binds, weaker piece⟩

theorem Lays.of_emits (emits : Emits s t [] k) (adds : Lays t s' p) : Lays s s' p := by
  intro base pending row traces
  obtain ⟨new, labels, traced, binds, piece⟩ := adds (traces.of_emits emits)
  rw [exits_of_rounds emits.rounds, emits.ip] at piece
  exact ⟨new, labels, traced, binds.of_front (congrArg _ emits.marks), piece⟩

theorem Lays.then_emits (adds : Lays s t p) (emits : Emits t s' [] k) : Lays s s' p := by
  intro base pending row traces
  obtain ⟨new, labels, traced, binds, piece⟩ := adds traces
  exact ⟨new, labels, traced.of_emits emits, binds.then_same (congrArg _ emits.marks), piece⟩

theorem Lays.append (first : Lays s t p) (rounds : t.rounds = s.rounds) (second : Lays t s' q) :
    Lays s s' fun exits start row labels => ∃ xs ys ls ms, row = xs ++ ys ∧ labels = ls ++ ms ∧
      p exits start xs ls ∧ q exits (start + rowSize xs) ys ms := by
  intro base pending row traces
  obtain ⟨xs, ls, traced, binds, piece⟩ := first traces
  obtain ⟨ys, ms, traced', binds', piece'⟩ := second traced
  rw [exits_of_rounds rounds, traces.ip_append traced] at piece'
  rw [List.append_assoc] at traced'
  exact ⟨_, _, traced', binds.trans binds', xs, ys, ls, ms, rfl, rfl, piece, piece'⟩

theorem Lays.plains (emits : Emits s s' (ps.flatMap Plain.words) k)
    (valid : ∀ p ∈ ps, p.Valid s'.references) (piece : p s.exits s.writer.ip (ps.map .plain) []) :
    Lays s s' p :=
  fun _ _ _ traces => ⟨_, [], traces.append_plains emits valid, .of_labels (congrArg _ emits.marks),
    piece⟩

theorem exits_of_loops (scope : s.scope = some x) (loops : x.loops = l :: rest) :
    s.exits = some (.exit rest.length, .again rest.length) := by
  have split : s.rounds = (l.start, l.resume) :: rest.map fun l => (l.start, l.resume) := by
    rw [rounds_of_scope scope, loops]
    rfl
  rw [exits_cons split, List.length_map]

theorem noted_rounds {writer : CodeWriter} (scope : s.scope = some x)
    (loops : x.loops = l :: rest) :
    (s.remarked x x.labels (noted leave a l :: rest) writer).rounds = s.rounds := by
  rw [rounds_of_scope scope, loops]
  cases leave <;> rfl

theorem Lays.noted (leave : Bool) (scope : s.scope = some x) (loops : x.loops = l :: rest) :
    Lays s (s.remarked x x.labels (noted leave (s.writer.ip + 1) l :: rest)
        ((s.writer.opcode .jump).operand 0)) fun exits _ row labels =>
      row = [.jump (if leave then .exit rest.length else .again rest.length)] ∧ labels = [] ∧
        exits = some (.exit rest.length, .again rest.length) := by
  intro base pending row traces
  have same : (s.remarked x x.labels (Compile.noted leave (s.writer.ip + 1) l :: rest)
      ((s.writer.opcode .jump).operand 0)).marks.1 = s.marks.1 := by
    rw [marks_of_scope scope]
    rfl
  refine ⟨_, [], .of_append same (settle_aimed s rfl ?_) (Tracks.append_noted traces
    (j := .jump (loopTarget leave rest.length)) scope loops rfl ?_ rfl
    (remarked_grows scope _ _ _).within trivial), .of_labels same, ?_, rfl,
    exits_of_loops scope loops⟩
  · intro name
    cases leave <;> simp [loopTarget]
  · have word : (loopTarget leave rest.length).word = 0 := by cases leave <;> rfl
    rw [Statement.words, word]
    exact open_jump_words .jump s
  · cases leave <;> rfl

theorem Lays.if_ (test : Emits s t (Opcode.jumpIfFalse.word :: 0 :: partsWords [f]) 1)
    (valid : partsValid t.references [f]) (resolves : Resolves p) (body : Lays t s' p) :
    Lays s (s'.patched (s.writer.ip + 1) s'.writer.ip) fun exits start row labels => ∃ block finish,
      row = .jumpIfFalse (.ip finish) f :: block ∧ finish = start + testSize f + rowSize block ∧
      p exits (start + testSize f) block labels := by
  intro base pending row traces
  have new := Tracks.not_pending traces
  have opened := traces.append_later (x := .jumpIfFalse (.later (s.writer.ip + 1)) f) new
    rfl rfl test valid
  obtain ⟨block, labels, traced, binds, piece⟩ := body opened
  have resolved := traced.resolve_later new
  rw [resolveRow_append, resolveRow_append, traces.resolve_none rfl (by simp) (waiting_later new),
    resolveRow_test, List.append_assoc, List.singleton_append] at resolved
  have start : t.writer.ip = s.writer.ip + testSize f := test.ip
  have piece := resolves (.later (s.writer.ip + 1)) s'.writer.ip rfl (by simp) piece
  rw [exits_resolve_later, exits_of_rounds test.rounds, start] at piece
  refine ⟨_, labels, resolved, (binds.of_front (congrArg _ test.marks)).then_same rfl, _,
    _, rfl, ?_, piece⟩
  rw [rowSize_resolveRow, opened.ip_append traced, start]

/-- A branch with an alternative. The jump over the first block is filled in between the two. -/
theorem Lays.ifElse (test : Emits s t (Opcode.jumpIfFalse.word :: 0 :: partsWords [f]) 1)
    (valid : partsValid t.references [f]) (resolves : Resolves p) (resolves' : Resolves q)
    (first : Lays t r p) (rounds : r.rounds = t.rounds)
    (second : Lays ((r.jumping .jump).patched (s.writer.ip + 1) (r.jumping .jump).writer.ip) s' q) :
    Lays s (s'.patched (r.writer.ip + 1) s'.writer.ip) fun exits start row labels =>
      ∃ xs ys ls ms middle finish, row = .jumpIfFalse (.ip middle) f ::
        (xs ++ .jump (.ip finish) :: ys) ∧
        labels = ls ++ ms ∧ middle = start + testSize f + rowSize xs + 2 ∧
        finish = middle + rowSize ys ∧
        p exits (start + testSize f) xs ls ∧ q exits middle ys ms := by
  intro base pending row traces
  have jump := jumping_emits .jump r
  have new := Tracks.not_pending traces
  have opened := traces.append_later (x := .jumpIfFalse (.later (s.writer.ip + 1)) f) new
    rfl rfl test valid
  obtain ⟨xs, ls, traced, binds, piece⟩ := first opened
  have new' := Tracks.not_pending traced
  have jumped := traced.append_later (x := .jump (.later (r.writer.ip + 1))) new' rfl rfl
    jump trivial
  -- The jump of the test is patched first, while that over the second block still waits.
  have swapped : Traces base ((s.writer.ip + 1) :: (r.writer.ip + 1) :: pending) _ _ :=
    jumped.of_pending fun a => by simp [or_left_comm]
  have older : s.writer.ip + 1 ∉ (r.writer.ip + 1) :: pending := by
    simp only [List.mem_cons, not_or] at new' ⊢
    exact ⟨fun same => new'.1 same.symm, new⟩
  have between := swapped.resolve_later older
  obtain ⟨ys, ms, traced', binds', piece'⟩ := second between
  have last : r.writer.ip + 1 ∉ pending := fun waits => new' (List.mem_cons_of_mem _ waits)
  have resolved := traced'.resolve_later last
  have apart : Target.later (r.writer.ip + 1) ≠ .later (s.writer.ip + 1) := by
    intro same
    exact older (by simp [Target.later.inj same])
  simp only [resolveRow_append, traces.resolve_none rfl (by simp) (waiting_later new),
    resolveRow_test, resolveRow_other apart, traces.resolve_none rfl (by simp) (waiting_later last),
    resolveRow_known (t := .later (r.writer.ip + 1)) rfl, resolveRow_jump] at resolved
  simp only [List.append_assoc, List.singleton_append] at resolved
  have start : t.writer.ip = s.writer.ip + testSize f := test.ip
  have start' :
      ((r.jumping .jump).patched (s.writer.ip + 1) (r.jumping .jump).writer.ip).writer.ip =
      (r.jumping .jump).writer.ip := by
    simp [Session.patched, CodeWriter.patch, CodeWriter.replace, CodeWriter.ip]
  have same : ((r.jumping .jump).patched (s.writer.ip + 1) (r.jumping .jump).writer.ip).marks.1 =
      r.marks.1 := rfl
  have exits' : Session.exits ((r.jumping .jump).patched (s.writer.ip + 1)
      (r.jumping .jump).writer.ip) = s.exits := exits_of_rounds (rounds.trans test.rounds)
  have piece := resolves (.later (r.writer.ip + 1)) s'.writer.ip rfl (by simp)
    (resolves (.later (s.writer.ip + 1)) (r.jumping .jump).writer.ip rfl (by simp) piece)
  have piece' := resolves' (.later (r.writer.ip + 1)) s'.writer.ip rfl (by simp) piece'
  rw [exits_resolve_later, exits_resolve_later, exits_of_rounds test.rounds, start] at piece
  rw [exits_resolve_later, exits', start'] at piece'
  refine ⟨_, _, resolved, ((binds.of_front (congrArg _ test.marks)).trans
    (binds'.of_front same)).then_same rfl, _, _, _, _, _, _, rfl, rfl, ?_, ?_, piece, piece'⟩
  · rw [rowSize_resolveRow, rowSize_resolveRow, jump.ip, opened.ip_append traced, start]
    rfl
  · rw [rowSize_resolveRow, between.ip_append traced', start']

theorem looping_loops (scope : s.scope = some x) (opened : (s.looping x).scope = some y)
    (loops : y.loops = l :: rest) : rest.length = s.rounds.length := by
  obtain rfl := Option.some.inj opened
  obtain ⟨_, rfl⟩ := List.cons.inj loops
  rw [rounds_of_scope scope, List.length_map]

theorem tested_rounds (scope : s.scope = some x) (scope₀ : (s.looping x).scope = some y)
    (loops₀ : y.loops = l :: rest) (test : Emits ((s.looping x).testing y l rest) t ws k) :
    t.rounds = (s.writer.ip, s.writer.ip) :: s.rounds := by
  rw [test.rounds, testing_rounds scope₀ loops₀, looping_rounds scope]

/-- A loop. What is added from its test to the jump back knows the end of the loop and the start of
the next round once the loop is closed. -/
theorem Lays.loop (scope : s.scope = some x) (scope₀ : (s.looping x).scope = some y)
    (loops₀ : y.loops = l :: rest)
    (test : Emits ((s.looping x).testing y l rest) t (partsWords [f]) 0)
    (valid : partsValid t.references [f]) (resolves : Resolves p) (body : Lays t r p)
    (rounds : r.rounds = (s.writer.ip, resume) :: s.rounds)
    (back : emitWith .jump (.ofNat s.writer.ip) r = .ok u r')
    (closed : closeLoop id r' = .ok u' s') :
    Lays s s' fun _ start row labels => ∃ block finish,
      row = .jumpIfFalse (.ip finish) f :: (block ++ [.jump (.ip start)]) ∧
      finish = start + testSize f + rowSize block + 2 ∧
      p (some (.ip finish, .ip resume)) (start + testSize f) block labels := by
  intro base pending row traces
  have labels₀ : (s.looping x).marks.1 = s.marks.1 := by
    rw [marks_of_scope scope]
    rfl
  have opened : Traces base pending (s.looping x) row :=
    .of_same labels₀ (Tracks.openLoop traces scope)
  have tested := opened.append_test scope₀ loops₀ test valid
  have labels₁ : t.marks.1 = s.marks.1 := by rw [test.marks, testing_labels l rest scope₀, labels₀]
  obtain ⟨block, labels, traced, binds, piece⟩ := body tested
  have known := (Tracks.rounds traced (s.writer.ip, resume) (by simp [rounds])).1
  have jumped := traced.append_jump back known
  have jump := (emitWith_emits back).1
  obtain ⟨z, last, outer, scope', loops', rfl⟩ := closeLoop_ok closed
  have rounds' := jump.rounds.trans rounds
  rw [rounds_of_scope scope', loops', List.map_cons] at rounds'
  obtain ⟨same, around⟩ := List.cons.inj rounds'
  obtain ⟨_, rfl⟩ := Prod.mk.inj same
  have depth : outer.length = s.rounds.length := by rw [← around, List.length_map]
  have filled := Tracks.closeLoop jumped scope' loops'
  rw [resolveRow_settle r' rfl (by simp), resolveRow_settle r' rfl (by simp)] at filled
  have labels' : (r'.remarked z z.labels outer (fill (.ofNat last.resume) last.continues
      (fill (.ofNat r'.writer.ip) last.breaks r'.writer))).marks.1 = r'.marks.1 := by
    rw [marks_of_scope scope']
    rfl
  have filled : Traces base pending _ _ := .of_same labels' filled
  -- No jump in front of the loop waits for a mark of it, so only the block changes.
  have free : waiting s.marks pending (.exit s.rounds.length) = [] ∧
      waiting s.marks pending (.again s.rounds.length) = [] := by
    simp [waiting, Session.rounds]
  rw [depth, looping_loops scope scope₀ loops₀, List.append_assoc, List.append_assoc,
    ← List.append_assoc _ block, resolveRow_append, resolveRow_append,
    traces.resolve_none rfl (by simp) free.1, traces.resolve_none rfl (by simp) free.2,
    resolveRow_loop (by simp [Statement.target?, Target.isOpen])] at filled
  have start : t.writer.ip = s.writer.ip + testSize f := by
    rw [opened.ip_append tested, rowSize_test]
    rfl
  have piece := resolves (.again s.rounds.length) last.resume rfl (by simp)
    (resolves (.exit s.rounds.length) r'.writer.ip rfl (by simp) piece)
  rw [exits_cons (tested_rounds scope scope₀ loops₀ test), Exits.resolve_loop, start] at piece
  refine ⟨_, labels, filled, (binds.of_front labels₁).then_same
    (labels'.trans (congrArg _ jump.marks)), _, _, rfl, ?_, piece⟩
  rw [rowSize_resolveRow, rowSize_resolveRow, jump.ip, tested.ip_append traced, start]
  rfl

def Segment.Then (p : Segment) (resume : Nat) (step : Plain) :
    Segment := fun exits start row labels =>
  ∃ block, row = block ++ [.plain step] ∧ resume = start + rowSize block ∧
    p exits start block labels

theorem Resolves.then_ (resolves : Resolves p) : Resolves (p.Then resume step) := by
  rintro exits start _ labels t address open_ nameless ⟨block, rfl, next, piece⟩
  exact ⟨_, resolveRow_append _ _ _ _, by rwa [rowSize_resolveRow],
    resolves t address open_ nameless piece⟩

theorem Lays.then_ (adds : Lays s t p) (scope : t.scope = some x) (loops : x.loops = l :: rest)
    (emits : Emits (t.resumed x l rest) s' step.words k) (valid : step.Valid s'.references) :
    Lays s s' (p.Then t.writer.ip step) := by
  intro base pending row traces
  obtain ⟨block, labels, traced, binds, piece⟩ := adds traces
  have same : (t.resumed x l rest).marks.1 = t.marks.1 := by
    rw [marks_of_scope scope]
    rfl
  have resumed : Traces base pending (t.resumed x l rest) (row ++ block) :=
    .of_same same (Tracks.resumed traced scope loops)
  have next := resumed.append_plain emits valid
  rw [List.append_assoc] at next
  exact ⟨_, labels, next, binds.then_same ((congrArg _ emits.marks).trans same), block, rfl,
    traces.ip_append traced, piece⟩

theorem Lays.counting {z : Scope} {m : Loop} {loops : List Loop} {r₁ : Session}
    (scope : s.scope = some x) (scope₀ : (s.looping x).scope = some y)
    (loops₀ : y.loops = l :: rest)
    (test : Emits ((s.looping x).testing y l rest) t (partsWords [f]) 0)
    (valid : partsValid t.references [f]) (resolves : Resolves p) (body : Lays t r p)
    (scope₁ : r.scope = some z) (loops₁ : z.loops = m :: loops)
    (adds : Emits (r.resumed z m loops) r₁ step.words k) (valid' : step.Valid r₁.references)
    (rounds : r₁.rounds = (s.writer.ip, r.writer.ip) :: s.rounds)
    (back : emitWith .jump (.ofNat s.writer.ip) r₁ = .ok u r')
    (closed : closeLoop id r' = .ok u' s') :
    Lays s s' fun _ start row labels => ∃ block again finish,
      row = .jumpIfFalse (.ip finish) f :: (block ++ [.plain step, .jump (.ip start)]) ∧
      again = start + testSize f + rowSize block ∧
      finish = again + (Statement.plain step).size + 2 ∧
      p (some (.ip finish, .ip again)) (start + testSize f) block labels := by
  refine (Lays.loop scope scope₀ loops₀ test valid resolves.then_
    (body.then_ scope₁ loops₁ adds valid') rounds back closed).mono ?_
  rintro _ labels ⟨_, finish, rfl, at_, block, rfl, next, piece⟩
  refine ⟨block, _, finish, by simp, next, ?_, piece⟩
  rw [at_, next, rowSize_append, rowSize_cons, rowSize_nil]
  omega

end Scriptlet.Compile
