import Scriptlet.Proofs.Machine.Isolation

/-!
Running reads the words of a statement as listing them does. From the beginning of a statement to
its completion the machine reads words of its own frame only where the statement has words left, and
whatever functions are called in between, it goes on behind the call with the same words left. So it
gets to the end of the words that the statement spans, and on the way there it meets no word that it
cannot read.
-/
namespace Scriptlet.Machine

open Actions

variable {World : Type} {host : Host World} {p : Program} {gs : List UserFunction} {start : Nat}
  {i : Instruction} {m m₁ m₂ : Machine World} {work work' : List Work} {outer calls : List Call}

variable (p) in
/-- A statement has begun with the one machine, and in the other it is under way: units of work have
succeeded, those of functions called in its expressions among them, and its own work is not done. -/
inductive Executing (m : Machine World) : Machine World → Prop where
  | begun {m₁ : Machine World} : beginStatement p m = .ok () m₁ → Executing m m₁
  | begin_ {m₁ m₂ : Machine World} : Executing m m₁ → m₁.atBoundary = true →
      beginStatement p m₁ = .ok () m₂ → Executing m m₂
  | advance {m₁ m₂ : Machine World} (host : Host World) : Executing m m₁ → m₁.atBoundary = false →
      advance host p m₁ = .ok () m₂ → m.work.length < m₂.work.length → Executing m m₂

structure Completes (host : Host World) (p : Program) (m m₁ m₂ : Machine World) : Prop where
  executing : Executing p m m₁
  busy : m₁.atBoundary = false
  went : advance host p m₁ = .ok () m₂
  done : m₂.work.length ≤ m.work.length

/-- The layer works on the statement, and at the address it has left to read what is left of the
expressions that start behind the statement's instruction. -/
structure Course (words : Array UInt32) (start : Nat) (i : Instruction) (ip : Nat)
    (work : List Work) : Prop where
  busy : work ≠ []
  far : start ≤ ip
  spans : ∀ b, Spans words start [.parts i.expressions] b ↔ Spans words ip (pendingOf work) b
  bottom : bottom work = some i

namespace Course

variable {words : Array UInt32} {ip ip' : Nat}

theorem begin_ (words : Array UInt32) (start : Nat) (i : Instruction) :
    Course words start i start [.instruction i i.expressions []] :=
  ⟨by simp, Nat.le_refl _, fun _ => Iff.rfl, rfl⟩

theorem step (course : Course words start i ip work) (nearer : Nearer words ip work ip' work') :
    Course words start i ip' work' :=
  ⟨nearer.busy, Nat.le_trans course.far nearer.far, fun b =>
    (course.spans b).trans (nearer.spans b), nearer.bottom.trans course.bottom⟩

theorem suspend {j : Instruction} {values : List Value}
    (course : Course words start i ip (.instruction j 0 values :: work)) (waits : work ≠ []) :
    Course words start i ip work := by
  refine ⟨waits, course.far, fun b => (course.spans b).trans Spans.parts_zero, ?_⟩
  cases work with
  | nil => exact absurd rfl waits
  | cons w rest => exact course.bottom

theorem resume (course : Course words start i ip work) (same : pendingOf work' = pendingOf work)
    (statement : Scriptlet.bottom work' = Scriptlet.bottom work) :
    Course words start i ip work' := by
  refine ⟨?_, course.far, fun b => ?_, statement.trans course.bottom⟩
  · rintro rfl
    exact course.busy (List.map_eq_nil_iff.mp same.symm)
  · rw [same]
    exact course.spans b

end Course

variable (p) in
def OnCourse (start : Nat) (i : Instruction) (outer : List Call) (m : Machine World) : Prop :=
  (∃ work, Stacked m work outer ∧ Course p.words start i m.cursor.ip work) ∨
    ∃ work calls d, Stacked m work calls ∧ Above d outer calls ∧ Course p.words start i d.ip d.work

theorem waiting_changed (a : Address) (v : Value) (calls : List Call) :
    waiting (changed a v calls) = waiting calls := by
  cases calls <;> rfl

theorem begin_of_ok (intact : Intact p gs m) (stacked : Stacked m [] calls)
    (begun : beginStatement p m = .ok () m₁) : Intact p gs m₁ ∧
      ∃ i start, (Cursor.statement p.words).Gives m.cursor.ip (some i) start ∧
      m₁.cursor.ip = start ∧
        i.op.isStatement = true ∧ Stacked m₁ [.instruction i i.expressions []] calls := by
  have intact₁ := begin_intact intact (stacked.boundary_iff.mpr rfl)
  rw [begun] at intact₁
  rcases begin_turns p m with ⟨_, _, _, _, failed⟩ | ⟨i, start, gives, kind, same⟩
  · rw [begun] at failed
    cases failed
  · rw [begun] at same
    cases same
    exact ⟨intact₁, i, start, gives, rfl, kind, stacked.push⟩

theorem advance_onCourse (intact : Intact p gs m₁) (course : OnCourse p start i outer m₁)
    (busy : m₁.atBoundary = false) (went : advance host p m₁ = .ok () m₂)
    (longer : (waiting outer).length < m₂.work.length) : OnCourse p start i outer m₂ := by
  rcases course with ⟨work, stacked, course⟩ | ⟨work, calls, d, stacked, above, course⟩
  · obtain ⟨work', calls', turn, stacked', -⟩ := turn_of_ok intact stacked busy went
    rw [stacked'.working, List.length_append] at longer
    -- A unit that completes the statement leaves no more work than there was in front of it.
    cases turn with
    | goes nearer _ => exact Or.inl ⟨work', stacked', course.step nearer⟩
    | enters =>
      refine Or.inr ⟨[], _, _, stacked', .self _ _, course.suspend ?_⟩
      rintro rfl
      exact absurd longer (by simp)
    | passes _ _ _ | halts => exact absurd longer (by simp)
    | stores _ =>
      rw [waiting_changed] at longer
      exact absurd longer (by simp)
    | returns _ idle =>
      rw [waiting_cons, idle] at longer
      exact absurd longer (by simp)
    | answers _ waits =>
      rw [waiting_cons, waits, List.length_append] at longer
      exact absurd longer (Nat.lt_irrefl _)
  · obtain ⟨work', calls', turn, stacked', -⟩ := turn_of_ok intact stacked busy went
    rcases turn.above above with above | ⟨_, _, _, _, _, _, _, rfl, same, statement, returned⟩
    · exact Or.inr ⟨work', calls', d, stacked', above, course⟩
    · refine Or.inl ⟨work', stacked', ?_⟩
      rw [returned.kept.2.2]
      exact course.resume same statement

theorem executing_onCourse (intact : Intact p gs m) (stacked : Stacked m [] outer)
    (executing : Executing p m m₁) : (∃ gs₁, Intact p gs₁ m₁) ∧
      ∃ i start, (Cursor.statement p.words).Gives m.cursor.ip (some i) start ∧
        i.op.isStatement = true ∧ OnCourse p start i outer m₁ := by
  induction executing with
  | begun begun =>
    obtain ⟨intact₁, i, start, gives, rfl, kind, stacked₁⟩ := begin_of_ok intact stacked begun
    exact ⟨⟨gs, intact₁⟩, i, _, gives, kind, Or.inl ⟨_, stacked₁, .begin_ p.words _ i⟩⟩
  | begin_ _ boundary begun ih =>
    obtain ⟨⟨gs₁, intact₁⟩, i, start, gives, kind, course⟩ := ih
    rcases course with ⟨work, stacked₁, course⟩ | ⟨work, calls, d, stacked₁, above, course⟩
    · exact absurd (stacked₁.boundary_iff.mp boundary) course.busy
    · obtain rfl := stacked₁.boundary_iff.mp boundary
      obtain ⟨intact₂, _, _, _, _, _, stacked₂⟩ := begin_of_ok intact₁ stacked₁ begun
      exact ⟨⟨gs₁, intact₂⟩, i, start, gives, kind, Or.inr ⟨_, calls, d, stacked₂, above, course⟩⟩
  | advance host _ busy went longer ih =>
    obtain ⟨⟨gs₁, intact₁⟩, i, start, gives, kind, course⟩ := ih
    have intact₂ := @advance_intact _ host _ _ _ intact₁ busy
    rw [went] at intact₂
    rw [stacked.working] at longer
    exact ⟨⟨_, intact₂⟩, i, start, gives, kind, advance_onCourse intact₁ course busy went longer⟩

/-- A statement that ends at the address is complete: the machine is behind it, or where it leads.
-/
inductive Continues (i : Instruction) (b : Nat) (m m' : Machine World) : Prop where
  | falls : m'.frames.length = m.frames.length → m'.cursor = ⟨b, m.cursor.saved⟩ →
      Continues i b m m'
  | jumps {target : Nat} : i.target? = some target → m'.frames.length = m.frames.length →
      m'.cursor = ⟨target, m.cursor.saved⟩ → Continues i b m m'
  | calls {place : Nat} : i.callee? = some (place, false) → m'.frames.length = m.frames.length + 1 →
      m'.cursor.saved = b :: m.cursor.saved → Continues i b m m'
  | returns : i.op = .returnValue → m'.halted = true ∨ m'.frames.length + 1 = m.frames.length →
      Continues i b m m'

theorem Stacked.depth (stacked : Stacked m work calls) : m.frames.length = calls.length := by
  rw [stacked.frames, List.length_map]

theorem Course.complete {words : Array UInt32} {ip : Nat} {j : Instruction} {values : List Value}
    (course : Course words start i ip [.instruction j 0 values]) :
    j = i ∧ Spans words start [.parts i.expressions] ip := by
  refine ⟨Option.some.inj course.bottom, (course.spans ip).mpr ?_⟩
  exact Spans.parts_zero.mpr (.done ip)

theorem advance_completes (intact : Intact p gs m₁) (stacked : Stacked m [] outer)
    (kind : i.op.isStatement = true) (course : OnCourse p start i outer m₁)
    (busy : m₁.atBoundary = false) (went : advance host p m₁ = .ok () m₂)
    (done : m₂.work.length ≤ m.work.length) :
    m₁.frames = m.frames ∧ Spans p.words start [.parts i.expressions] m₁.cursor.ip ∧
      Continues i m₁.cursor.ip m m₂ := by
  rw [stacked.working, List.nil_append] at done
  rcases course with ⟨work, stacked₁, course⟩ | ⟨work, calls, d, stacked₁, above, course⟩
  · obtain ⟨work', calls', turn, stacked', -⟩ := turn_of_ok intact stacked₁ busy went
    rw [stacked'.working, List.length_append] at done
    have depth := stacked.depth
    have depth' := stacked'.depth
    have saved : m₁.cursor.saved = m.cursor.saved := stacked₁.saved.trans stacked.saved.symm
    have cursor (ip : Nat) : (⟨ip, m₁.cursor.saved⟩ : Cursor) = ⟨ip, m.cursor.saved⟩ := by
      rw [saved]
    refine ⟨stacked₁.frames.trans stacked.frames.symm, ?_⟩
    cases turn with
    | goes nearer _ =>
      have := List.length_pos_iff.mpr nearer.busy
      omega
    | passes _ where_ _ =>
      obtain ⟨rfl, spans⟩ := course.complete
      refine ⟨spans, ?_⟩
      rcases where_ with rfl | target
      · exact .falls (depth'.trans depth.symm) (cursor _)
      · exact .jumps target (depth'.trans depth.symm) (cursor _)
    | stores _ =>
      obtain ⟨rfl, spans⟩ := course.complete
      refine ⟨spans, .falls ?_ ?_⟩
      · rw [depth', depth, changed, List.length_modifyHead]
      · rw [setSlot_eq]
        exact cursor _
    | halts returns =>
      obtain ⟨rfl, spans⟩ := course.complete
      exact ⟨spans, .returns returns (Or.inl rfl)⟩
    | @enters _ _ wanted _ rest _ _ _ _ calling _ _ _ _ =>
      -- Nothing waits for the value, so it is the statement that calls.
      simp only [waiting_cons, List.length_append] at done
      obtain rfl : rest = [] := List.eq_nil_of_length_eq_zero (by omega)
      obtain ⟨rfl, spans⟩ := course.complete
      obtain rfl : wanted = false := by simpa [kind] using Instruction.callee?_kind calling
      refine ⟨spans, .calls calling ?_ ?_⟩
      · rw [depth', depth, List.length_cons]
      · exact congrArg _ saved
    | returns returns | answers returns =>
      obtain ⟨rfl, spans⟩ := course.complete
      refine ⟨spans, .returns returns (Or.inr ?_)⟩
      rw [depth', depth, List.length_cons]
  · -- Work of the statement waits, and it is there after the unit too.
    obtain ⟨work', calls', turn, stacked', -⟩ := turn_of_ok intact stacked₁ busy went
    have waits := List.length_pos_iff.mpr course.busy
    rcases turn.above above with above | ⟨_, _, _, _, _, _, _, rfl, same, _, _⟩
    · have kept := (stacked'.suffixes above).2.2.length_le
      rw [waiting_cons, List.length_append] at kept
      omega
    · rw [stacked'.working, List.length_append] at done
      have as_many : work'.length = d.work.length := by
        simpa [pendingOf] using congrArg List.length same
      omega

theorem Completes.reads (completes : Completes host p m m₁ m₂) (intact : Intact p gs m)
    (stacked : Stacked m [] outer) : m₁.frames = m.frames ∧
      ∃ i, Spans.Statement p.words m.cursor.ip i m₁.cursor.ip ∧ Continues i m₁.cursor.ip m m₂ := by
  obtain ⟨executing, busy, went, done⟩ := completes
  obtain ⟨⟨gs₁, intact₁⟩, i, start, gives, kind, course⟩ :=
    executing_onCourse intact stacked executing
  obtain ⟨frames, spans, continues⟩ :=
    advance_completes intact₁ stacked kind course busy went done
  exact ⟨frames, i, ⟨start, gives, spans⟩, continues⟩

end Scriptlet.Machine
