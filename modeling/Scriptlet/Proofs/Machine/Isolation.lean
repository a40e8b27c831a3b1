import Scriptlet.Proofs.Machine.Simulation
import Scriptlet.Proofs.Machine.Termination

/-!
Calls are kept apart. From the unit of work that enters a function to the one that returns from it,
nothing touches what belongs to the callers: the slots of their frames, the addresses they return to
and the work that waits. The return goes to the address where the call was, and the value becomes an
operand of the expression that waits for it, or the result if nobody waits.
-/
namespace Scriptlet.Machine

open Actions

variable {World : Type} {host : Host World} {p : Program} {gs : List UserFunction} {depth k : Nat}
  {m m' : Machine World} {work work' : List Work} {c : Call} {outer calls calls' : List Call}
  {fault : Option Fault} {r : EStateM.Result Fault (Machine World) Unit}

def Above (c : Call) (outer calls : List Call) : Prop :=
  ∃ inner f, calls = inner ++ { c with frame := f } :: outer

theorem Above.self (c : Call) (outer : List Call) : Above c outer (c :: outer) := ⟨[], c.frame, rfl⟩

theorem Above.enter (above : Above c outer calls) (d : Call) : Above c outer (d :: calls) := by
  obtain ⟨inner, f, rfl⟩ := above
  exact ⟨d :: inner, f, rfl⟩

theorem Above.changed (above : Above c outer calls) (a : Address) (v : Value) :
    Above c outer (changed a v calls) := by
  obtain ⟨inner, f, rfl⟩ := above
  cases inner with
  | nil => exact ⟨[], f.setSlot a v, rfl⟩
  | cons d inner => exact ⟨{ d with frame := d.frame.setSlot a v } :: inner, f, rfl⟩

theorem Above.leave {d : Call} (above : Above c outer (d :: calls)) :
    Above c outer calls ∨ ∃ f, d = { c with frame := f } ∧ calls = outer := by
  obtain ⟨inner, f, same⟩ := above
  cases inner with
  | nil =>
    obtain ⟨rfl, rfl⟩ := List.cons.inj same
    exact Or.inr ⟨f, rfl, rfl⟩
  | cons d inner =>
    obtain ⟨rfl, rfl⟩ := List.cons.inj same
    exact Or.inl ⟨inner, f, rfl⟩

theorem waiting_append (inner outer : List Call) :
    waiting (inner ++ outer) = waiting inner ++ waiting outer :=
  List.flatMap_append

theorem Stacked.suffixes (stacked : Stacked m work calls) (above : Above c outer calls) :
    outer.map (·.frame) <:+ m.frames ∧ (c :: outer).map (·.ip) <:+ m.cursor.saved ∧
      waiting (c :: outer) <:+ m.work := by
  obtain ⟨inner, f, rfl⟩ := above
  rw [stacked.frames, stacked.saved, stacked.working, waiting_append]
  refine ⟨?_, ?_, ?_⟩
  · rw [List.map_append, List.map_cons]
    exact (List.suffix_cons _ _).trans (List.suffix_append _ _)
  · rw [List.map_append]
    exact List.suffix_append _ _
  · exact (List.suffix_append _ _).trans (List.suffix_append _ _)

/-- The machine behind a return: back in the calling frame, and a value handed over. All else is as
it was in front of the return. -/
inductive Returned (frames : List Frame) (ip : Nat) (saved : List Nat) (v : Value)
    (m : Machine World) : Bool → List Work → Machine World → Prop where
  | statement (work : List Work) :
      Returned frames ip saved v m false work
        { m with frames, cursor := ⟨ip, saved⟩, work, result := v }
  | expression (n : Nat) (operands : List Value) (rest : List Work) :
      Returned frames ip saved v m true (.expression n operands :: rest)
        { m with frames, cursor := ⟨ip, saved⟩, work := .expression n (v :: operands) :: rest }

theorem Returned.kept {frames : List Frame} {ip : Nat} {saved : List Nat} {v : Value}
    {wanted : Bool} (returned : Returned frames ip saved v m wanted work m') :
    m'.frames = frames ∧ m'.halted = m.halted ∧ m'.cursor = ⟨ip, saved⟩ := by
  cases returned with
  | statement | expression => exact ⟨rfl, rfl, rfl⟩

theorem Turn.above (turn : Turn host p m work calls fault m' work' calls')
    (above : Above c outer calls) : Above c outer calls' ∨ ∃ i f values, fault = none ∧
      i.op = .returnValue ∧ work = [.instruction i 0 values] ∧
      calls = { c with frame := f } :: outer ∧
      calls' = outer ∧ pendingOf work' = pendingOf c.work ∧ bottom work' = bottom c.work ∧
      Returned (outer.map (·.frame)) c.ip (outer.map (·.ip)) (values.headD .zero) m
        (!c.work.isEmpty) (waiting (c :: outer)) m' := by
  -- Only the returns can lead out of the call, and only if it is the innermost one.
  cases turn with
  | stuck _ _ | goes _ _ | passes _ _ _ => exact Or.inl above
  | stores _ => exact Or.inl (above.changed _ _)
  | halts =>
    obtain ⟨inner, f, same⟩ := above
    simp at same
  | enters => exact Or.inl (above.enter _)
  | @returns i values d _ returns idle =>
    rcases above.leave with above | ⟨f, rfl, rfl⟩
    · exact Or.inl above
    · have idle : c.work = [] := idle
      refine Or.inr ⟨i, f, values, rfl, returns, rfl, rfl, rfl, ?_⟩
      rw [waiting_cons, idle]
      exact ⟨rfl, rfl, .statement _⟩
  | @answers i values d _ n operands rest returns waits =>
    rcases above.leave with above | ⟨f, rfl, rfl⟩
    · exact Or.inl above
    · have waits : c.work = .expression n operands :: rest := waits
      refine Or.inr ⟨i, f, values, rfl, returns, rfl, rfl, rfl, ?_⟩
      rw [waiting_cons, waits]
      exact ⟨rfl, bottom_expression .., .expression n operands _⟩

theorem loops_above (loops : Loops host p depth k m r) (intact : Intact p gs m)
    (stacked : Stacked m work calls) (above : Above c outer calls) (started : m.started = true) :
    (∃ work' calls', Stacked (ending r) work' calls' ∧ Above c outer calls') ∨
    ∃ m₃ m₄ i f values, Reaches host p m m₃ ∧ r = .ok () m₄ ∧ m₄.halted = false ∧
      i.op = .returnValue ∧ Stacked m₃ [.instruction i 0 values] ({ c with frame := f } :: outer) ∧
      advance host p m₃ = .ok () m₄ ∧
      Returned (outer.map (·.frame)) c.ip (outer.map (·.ip)) (values.headD .zero) m₃
        (!c.work.isEmpty) (waiting (c :: outer)) m₄ := by
  induction loops generalizing gs work calls with
  | done _ => exact Or.inl ⟨work, calls, stacked, above⟩
  | fails working failed =>
    obtain ⟨work', calls', turn, stacked'⟩ := turn_of_error intact stacked working.2.2 failed
    rcases turn.above above with above | ⟨i, f, values, none_, _⟩
    · exact Or.inl ⟨work', calls', stacked', above⟩
    · cases none_
  | @again k m m' r working went later ih =>
    obtain ⟨work', calls', turn, stacked', intact'⟩ := turn_of_ok intact stacked working.2.2 went
    have tick : Reaches host p m m' := .tick (.advance working.1 started working.2.2 went)
    rcases turn.above above with above | ⟨i, f, values, _, returns, rfl, rfl, rfl, _, _, returned⟩
    · rcases ih intact' stacked' above (turn.started.trans started) with kept |
        ⟨m₃, m₄, i, f, values, reaches, rest⟩
      · exact Or.inl kept
      · exact Or.inr ⟨m₃, m₄, i, f, values, tick.trans reaches, rest⟩
    · -- There is one call less, so the loop stops.
      have idle : ¬Working depth m' := by
        intro still
        have before := working.2.1
        have after := still.2.1
        rw [stacked.frames, List.map_cons, List.length_cons] at before
        rw [stacked'.frames] at after
        omega
      exact Or.inr ⟨m, m', i, f, values, .refl m, later.idle idle,
        returned.kept.2.1.trans working.1, returns, stacked, went, returned⟩

theorem announced_started (m : Machine World) : (m.announced host).started = true := by
  unfold announced
  split
  · assumption
  · rfl

theorem announced_stacked (stacked : Stacked m work calls) :
    Stacked (m.announced host) work calls := by
  obtain ⟨started, world, same⟩ := @announced_eq _ host m
  rw [same]
  exact { stacked with }

theorem prepare_stacked (stacked : Stacked m work calls) :
    (∃ work', Stacked (ending (prepare host p m)) work' calls) ∧
      ∀ m₁, prepare host p m = .ok true m₁ → Reaches host p (m.announced host) m₁ ∧
      m₁.started = true := by
  have told := @announced_stacked _ host _ _ _ stacked
  have started := @announced_started _ host m
  cases running : m.halted with
  | true =>
    rw [prepare_halted running]
    refine ⟨⟨work, stacked⟩, ?_⟩
    rintro m₁ ⟨⟩
  | false =>
    have runs : (m.announced host).halted = false := (announced_halted m).trans running
    rw [prepare_running running]
    split
    · rename_i boundary
      split
      · refine ⟨⟨work, { told with }⟩, ?_⟩
        rintro m₁ ⟨⟩
      · rename_i inside
        have inside := Bool.eq_false_iff.mpr inside
        rcases begin_turns p (m.announced host) with ⟨f, ip, _, _, failed⟩ | ⟨i, ip, _, _, begun⟩
        · rw [bind_error _ failed]
          refine ⟨⟨work, { told with }⟩, ?_⟩
          rintro m₁ ⟨⟩
        · rw [bind_ok _ begun]
          refine ⟨⟨.instruction i i.expressions [] :: work, told.push⟩, ?_⟩
          rintro m₁ ⟨⟩
          exact ⟨.tick (.begin_ runs started boundary inside begun), started⟩
    · refine ⟨⟨work, told⟩, ?_⟩
      rintro m₁ ⟨⟩
      exact ⟨.refl _, started⟩

theorem step_above (intact : Intact p gs m) (stacked : Stacked m work calls)
    (above : Above c outer calls) (host : Host World) :
    (∃ work' calls', Stacked (ending (step host p m)) work' calls' ∧ Above c outer calls') ∨
    ∃ m₃ m₄ i f values, Reaches host p (m.announced host) m₃ ∧ step host p m = .ok true m₄ ∧
      i.op = .returnValue ∧ Stacked m₃ [.instruction i 0 values] ({ c with frame := f } :: outer) ∧
      advance host p m₃ = .ok () m₄ ∧
      Returned (outer.map (·.frame)) c.ip (outer.map (·.ip)) (values.headD .zero) m₃
        (!c.work.isEmpty) (waiting (c :: outer)) m₄ := by
  obtain ⟨⟨work', stacked'⟩, begins⟩ := @prepare_stacked _ host p _ _ _ stacked
  obtain ⟨k, -, performs⟩ := @step_performs _ host _ _ _ intact
  generalize step host p m = result at performs
  cases performs with
  | ends _ => exact Or.inl ⟨work', calls, stacked', above⟩
  | @works _ _ m₁ r prepared loops =>
    obtain ⟨reaches, started⟩ := begins m₁ prepared
    rw [prepared] at stacked'
    have same : ending (said r) = ending r := by cases r <;> rfl
    rcases loops_above loops (prepare_effort intact prepared).1 stacked' above started with kept |
      ⟨m₃, m₄, i, f, values, later, rfl, running, rest⟩
    · rw [same]
      exact Or.inl kept
    · refine Or.inr ⟨m₃, m₄, i, f, values, reaches.trans later, ?_, rest⟩
      rw [said, running]
      rfl

structure Entered (p : Program) (m : Machine World) (calls : List Call) (i : Instruction)
    (place : Nat) (wanted : Bool) (values : List Value) (rest : List Work) (g : UserFunction)
    (m' : Machine World) : Prop where
  calling : i.callee? = some (place, wanted)
  callee : p.functions[place]? = some (.user g)
  front : Stacked m (.instruction i 0 values :: rest) calls
  back : Stacked m' []
    (⟨Frame.ofCall g values.reverse (rest ++ waiting calls).length, m.cursor.ip, rest⟩ :: calls)
  waits : wanted = !rest.isEmpty

theorem Turn.entered (turn : Turn host p m work calls fault m' work' calls')
    (intact : Intact p gs m) (stacked : Stacked m work calls)
    (deeper : calls.length < m'.frames.length) :
    ∃ i place wanted values rest g, Entered p m calls i place wanted values rest g m' := by
  have stacked' := turn.stacked stacked
  have longer : calls.length < calls'.length := by
    rwa [stacked'.frames, List.length_map] at deeper
  have layer := (stacked.layered intact).layer
  cases turn with
  | stuck _ _ | goes _ _ | passes _ _ _ | halts => exact absurd longer (Nat.lt_irrefl _)
  | returns | answers =>
    rw [List.length_cons] at longer
    omega
  | stores _ =>
    rw [Machine.changed, List.length_modifyHead] at longer
    exact absurd longer (Nat.lt_irrefl _)
  | enters calling found _ _ _ =>
    refine ⟨_, _, _, _, _, _, calling, found, stacked, stacked', ?_⟩
    have kind := Instruction.callee?_kind calling
    cases layer with
    | statement _ _ _ same | compound _ _ _ same => simpa [same] using kind

theorem loops_enter (loops : Loops host p depth k m r) (intact : Intact p gs m)
    (stacked : Stacked m work calls) (started : m.started = true)
    (deeper : calls.length < (ending r).frames.length) :
    ∃ m₀ i place wanted values rest g, Reaches host p m m₀ ∧ ending (advance host p m₀) = ending r ∧
      Entered p m₀ calls i place wanted values rest g (ending r) := by
  induction loops generalizing gs work with
  | done _ =>
    rw [ending, stacked.frames, List.length_map] at deeper
    omega
  | @fails m m' f working failed =>
    obtain ⟨work', calls', turn, -⟩ := turn_of_error intact stacked working.2.2 failed
    obtain ⟨i, place, wanted, values, rest, g, entered⟩ := turn.entered intact stacked deeper
    exact ⟨m, i, place, wanted, values, rest, g, .refl m, congrArg ending failed, entered⟩
  | @again k m m' r working went later ih =>
    obtain ⟨work', calls', turn, stacked', intact'⟩ := turn_of_ok intact stacked working.2.2 went
    by_cases still : Working depth m'
    · obtain ⟨rfl, -⟩ := turn.still stacked working still
      obtain ⟨m₀, i, place, wanted, values, rest, g, reaches, found⟩ :=
        ih intact' stacked' (turn.started.trans started) deeper
      have tick : Reaches host p m m' := .tick (.advance working.1 started working.2.2 went)
      exact ⟨m₀, i, place, wanted, values, rest, g, tick.trans reaches, found⟩
    · obtain rfl := later.idle still
      obtain ⟨i, place, wanted, values, rest, g, entered⟩ := turn.entered intact stacked deeper
      exact ⟨m, i, place, wanted, values, rest, g, .refl m, congrArg ending went, entered⟩

theorem step_enter (intact : Intact p gs m) (stacked : Stacked m work calls) (host : Host World)
    (deeper : calls.length < (ending (step host p m)).frames.length) :
    ∃ m₀ i place wanted values rest g, Reaches host p (m.announced host) m₀ ∧
      ending (advance host p m₀) = ending (step host p m) ∧
      Entered p m₀ calls i place wanted values rest g (ending (step host p m)) := by
  obtain ⟨⟨work', stacked'⟩, begins⟩ := @prepare_stacked _ host p _ _ _ stacked
  obtain ⟨k, -, performs⟩ := @step_performs _ host _ _ _ intact
  generalize step host p m = result at performs deeper
  cases performs with
  | ends _ =>
    rw [stacked'.frames, List.length_map] at deeper
    omega
  | @works _ _ m₁ r prepared loops =>
    have same : ending (said r) = ending r := by cases r <;> rfl
    obtain ⟨reaches, started⟩ := begins m₁ prepared
    rw [prepared] at stacked'
    rw [same] at deeper ⊢
    obtain ⟨m₀, i, place, wanted, values, rest, g, later, found⟩ :=
      loops_enter loops (prepare_effort intact prepared).1 stacked' started deeper
    exact ⟨m₀, i, place, wanted, values, rest, g, reaches.trans later, found⟩

variable (p) in
/-- Steps one after the other with more than this many calls active. Each has a host of its own and
may fail. -/
inductive Deeper (depth : Nat) : Machine World → Machine World → Prop where
  | here {m : Machine World} : depth < m.frames.length → Deeper depth m m
  | step {m m' : Machine World} (host : Host World) : Deeper depth m m' →
      depth < (ending (step host p m')).frames.length → Deeper depth m (ending (step host p m'))

/-- The last unit of work of a step from the machine enters a function. The caller will go on behind
the call, and what lay below its own work is not changed. -/
structure Enters (host : Host World) (p : Program) (m inside m' : Machine World) (wanted : Bool) :
    Prop where
  reached : Reaches host p (m.announced host) inside
  last : ending (advance host p inside) = m'
  call : ∃ i place values g, i.callee? = some (place, wanted) ∧
    p.functions[place]? = some (.user g) ∧
    inside.work = .instruction i 0 values :: m'.work ∧
    m'.frames = Frame.ofCall g values.reverse m'.work.length :: m.frames
  saved : m'.cursor.saved = inside.cursor.ip :: m.cursor.saved
  below : m.work.drop (m.work.length - m.base) <:+ m'.work

theorem called_intact (called : Called p m) : ∃ gs, Intact p gs m := by
  obtain ⟨gs, visited⟩ := called_met called
  exact ⟨gs, visited_intact visited⟩

theorem deeper_above (deeper : Deeper p outer.length m m') (called : Called p m)
    (stacked : Stacked m work (c :: outer)) :
    Called p m' ∧ ∃ work calls, Stacked m' work calls ∧ Above c outer calls := by
  induction deeper with
  | here _ => exact ⟨called, work, c :: outer, stacked, .self c outer⟩
  | step host _ still ih =>
    obtain ⟨called', work', calls', stacked', above⟩ := ih
    obtain ⟨gs, intact⟩ := called_intact called'
    refine ⟨called'.step host, ?_⟩
    rcases step_above intact stacked' above host with kept | ⟨_, m₄, _, _, _, _, stepped, _, _,
      _, returned⟩
    · exact kept
    · rw [stepped, ending, returned.kept.1, List.length_map] at still
      exact absurd still (Nat.lt_irrefl _)

/-- A step enters a function. As long as the call is active, the frames of its callers, the
addresses to return to and all work that waited at the call stay as they are. The step after which
it is not active any more returns from it: the caller goes on at the address of the call, in its
frame as it was, and has the value of the return on top of the expression that called, or as the
result if the call was a statement. -/
theorem calls_isolated (called : Called p m) (host : Host World)
    (deeper : (ending (step host p m)).frames.length = m.frames.length + 1) :
    ∃ inside m₁ wanted, ending (step host p m) = m₁ ∧ Enters host p m inside m₁ wanted ∧
      ∀ m₂, Deeper p m.frames.length m₁ m₂ →
        m.frames <:+ m₂.frames ∧ m₁.cursor.saved <:+ m₂.cursor.saved ∧ m₁.work <:+ m₂.work ∧
        ∀ other, (ending (step other p m₂)).frames.length ≤ m.frames.length →
          ∃ m₃ m₄ i values, step other p m₂ = .ok true m₄ ∧
            Reaches other p (m₂.announced other) m₃ ∧ advance other p m₃ = .ok () m₄ ∧
            i.op = .returnValue ∧ m₃.work = .instruction i 0 values :: m₁.work ∧
            Returned m.frames inside.cursor.ip m.cursor.saved (values.headD .zero) m₃ wanted
              m₁.work m₄ := by
  obtain ⟨gs, intact⟩ := called_intact called
  obtain ⟨work, outer, stacked⟩ := intact_stacked intact
  have height : m.frames.length = outer.length := by rw [stacked.frames, List.length_map]
  obtain ⟨inside, i, place, wanted, values, rest, g, reached, last, entered⟩ :=
    step_enter intact stacked host (by omega)
  have called₁ := called.step host
  generalize ending (step host p m) = m₁ at *
  obtain ⟨calling, callee, front, back, waits⟩ := entered
  have suspended : m₁.work = rest ++ waiting outer := back.working
  refine ⟨inside, m₁, wanted, rfl, ⟨reached, last, ⟨i, place, values, g, calling, callee, ?_, ?_⟩,
    ?_, ?_⟩, ?_⟩
  · rw [front.working, suspended]
    rfl
  · rw [suspended, back.frames, stacked.frames]
    rfl
  · rw [back.saved, stacked.saved]
    rfl
  · rw [stacked.base_eq, stacked.working, List.length_append, Nat.add_sub_cancel, List.drop_left,
      suspended]
    exact List.suffix_append _ _
  · intro m₂ later
    rw [height] at later
    obtain ⟨called₂, work₂, calls₂, stacked₂, above⟩ := deeper_above later called₁ back
    obtain ⟨frames, saved, kept⟩ := stacked₂.suffixes above
    refine ⟨stacked.frames ▸ frames, back.saved ▸ saved, suspended ▸ kept, fun other left => ?_⟩
    obtain ⟨gs₂, intact₂⟩ := called_intact called₂
    rcases step_above intact₂ stacked₂ above other with ⟨work₃, calls₃, stacked₃, inner, f, rfl⟩ |
      ⟨m₃, m₄, j, f, results, reached₃, stepped, returns, stacked₃, went, returned⟩
    · rw [stacked₃.frames, height] at left
      simp only [List.map_append, List.map_cons, List.length_append, List.length_cons,
        List.length_map] at left
      omega
    · refine ⟨m₃, m₄, j, results, stepped, reached₃, went, returns, ?_, ?_⟩
      · rw [stacked₃.working, suspended]
        rfl
      · rw [stacked.frames, stacked.saved, suspended, waits]
        exact returned

def callProgram : Program where
  words := #[1, 0, 0, 4, 0x10000000, 1, 12, 1, 1, 1, 7, 0, 2, 1, 7, 0, 2, 1, 8, 0x40000000]
  functions := #[.user ⟨"Main", 3, 0, 0⟩, .user ⟨"Same", 16, 0, 1⟩]
  globals := #[.zero]
  literals := #[.atom (.integer 7)]
  lines := none

theorem calls_isolated_inner :
    let m := ending (step Host.silent callProgram (init callProgram ()))
    let m₁ := ending (step Host.silent callProgram m)
    m.frames.length = 1 ∧ m₁.frames.length = 2 ∧
      ∃ inside wanted v m₃ m₄, Enters Host.silent callProgram m inside m₁ wanted ∧
        step Host.silent callProgram m₁ = .ok true m₄ ∧
        Returned m.frames inside.cursor.ip m.cursor.saved v m₃ wanted m₁.work m₄ := by
  intro m m₁
  have called : Called callProgram m := (Called.fresh ()).step Host.silent
  obtain ⟨inside, _, wanted, rfl, enters, later⟩ :=
    calls_isolated called Host.silent (by decide +kernel)
  obtain ⟨-, -, -, returns⟩ := later m₁ (.here (by decide +kernel))
  obtain ⟨m₃, m₄, _, values, stepped, -, -, -, -, returned⟩ :=
    returns Host.silent (by decide +kernel)
  exact ⟨by decide +kernel, by decide +kernel, inside, wanted, values.headD .zero, m₃, m₄, enters,
    stepped, returned⟩

end Scriptlet.Machine
