import Scriptlet.Proofs.Machine.Alignment

/-!
Every step ends, whatever the code is and whatever happened before. A step prepares a statement and
then works in a loop until the statement is done or the depth of calls changes. The machine counts
the units of work it may still do; the loop below counts nothing and could go on for ever. It never
does: a unit of work reads a word and adds at most one item of work, or takes an item away. So the
counter is never used up, and the words behind the address and the work above the base of the frame
bound the number of units.
-/
namespace Scriptlet.Machine

open Actions

variable {World : Type} {host : Host World} {p : Program} {gs : List UserFunction} {depth k : Nat}
  {m m' : Machine World} {work : List Work} {calls : List Call}
  {r : EStateM.Result Fault (Machine World) Unit}

variable (host p) in
inductive Loops (depth : Nat) :
    Nat → Machine World → EStateM.Result Fault (Machine World) Unit → Prop where
  | done {m : Machine World} : ¬Working depth m → Loops depth 0 m (.ok () m)
  | fails {m m' : Machine World} {f : Fault} : Working depth m → advance host p m = .error f m' →
      Loops depth 1 m (.error f m')
  | again {k : Nat} {m m' : Machine World} {r : EStateM.Result Fault (Machine World) Unit} :
      Working depth m → advance host p m = .ok () m' → Loops depth k m' r → Loops depth (k + 1) m r

variable (host p) in
/-- The beginning of a step: tells the host of the start and begins a statement if none is under
way. Whether there is something to work on. -/
def prepare : Action World Bool := do
  if (← get).halted then return false
  start host
  if (← get).atBoundary then
    if (← get).cursor.atEnd p.words then
      halt host
      return false
    beginStatement p
  return true

def said : EStateM.Result Fault (Machine World) Unit → EStateM.Result Fault (Machine World) Bool
  | .ok _ m => .ok (!m.halted) m
  | .error f m => .error f m

variable (host p) in
inductive Performs : Nat → Machine World → EStateM.Result Fault (Machine World) Bool → Prop where
  | ends {m : Machine World} : (∀ m₁, prepare host p m ≠ .ok true m₁) →
      Performs 0 m (prepare host p m)
  | works {k : Nat} {m m₁ : Machine World} {r : EStateM.Result Fault (Machine World) Unit} :
      prepare host p m = .ok true m₁ → Loops host p m₁.frames.length k m₁ r → Performs k m (said r)

theorem Loops.unique {r' : EStateM.Result Fault (Machine World) Unit} {k' : Nat}
    (loops : Loops host p depth k m r) (again : Loops host p depth k' m r') : k = k' ∧ r = r' := by
  induction loops generalizing k' with
  | done idle =>
    cases again with
    | done _ => exact ⟨rfl, rfl⟩
    | fails working | again working => exact absurd working idle
  | fails working failed =>
    cases again with
    | done idle => exact absurd working idle
    | fails _ failed' =>
      have same := failed.symm.trans failed'
      cases same
      exact ⟨rfl, rfl⟩
    | again _ went _ =>
      rw [failed] at went
      cases went
  | again working went _ ih =>
    cases again with
    | done idle => exact absurd working idle
    | fails _ failed =>
      rw [went] at failed
      cases failed
    | again _ went' later =>
      have same := went.symm.trans went'
      cases same
      obtain ⟨rfl, rfl⟩ := ih later
      exact ⟨rfl, rfl⟩

theorem Performs.unique {r r' : EStateM.Result Fault (Machine World) Bool} {k' : Nat}
    (performs : Performs host p k m r) (again : Performs host p k' m r') : k = k' ∧ r = r' := by
  cases performs with
  | ends idle =>
    cases again with
    | ends _ => exact ⟨rfl, rfl⟩
    | works prepared _ => exact absurd prepared (idle _)
  | works prepared loops =>
    cases again with
    | ends idle => exact absurd prepared (idle _)
    | works prepared' loops' =>
      have same := prepared.symm.trans prepared'
      cases same
      obtain ⟨rfl, rfl⟩ := loops.unique loops'
      exact ⟨rfl, rfl⟩

theorem prepare_halted (halted : m.halted = true) : prepare host p m = .ok false m := by
  rw [prepare, get_bind]
  simp only [halted, ↓reduceIte]
  rfl

theorem prepare_running (running : m.halted = false) : prepare host p m =
    if (m.announced host).atBoundary then
      if (m.announced host).cursor.atEnd p.words then
        (halt host >>= fun _ => pure false) (m.announced host)
      else (beginStatement p >>= fun _ => pure true) (m.announced host)
    else .ok true (m.announced host) := by
  rw [prepare, get_bind]
  simp only [running, Bool.false_eq_true, ↓reduceIte]
  rw [start, modify_bind, get_bind]
  change (if (m.announced host).atBoundary = true then (_ : Action World Bool) else _) _ = _
  split
  · rw [get_bind]
    change (if (m.announced host).cursor.atEnd p.words = true then
      (_ : Action World Bool) else _) _ = _
    split <;> rfl
  · rfl

theorem step_eq_prepare (m : Machine World) : step host p m =
    (prepare host p >>= fun more => if more then goOn host p else pure false) m := by
  cases running : m.halted with
  | true =>
    rw [step_halted running, bind_ok _ (prepare_halted running)]
    rfl
  | false =>
    have prepared := @prepare_running _ host p m running
    rw [step_announced running]
    by_cases boundary : (m.announced host).atBoundary = true
    · by_cases at_end : (m.announced host).cursor.atEnd p.words = true
      · rw [if_pos boundary, if_pos at_end] at prepared ⊢
        rw [bind_ok _ prepared]
        rfl
      · rw [if_pos boundary, if_neg at_end] at prepared ⊢
        cases begun : beginStatement p (m.announced host) with
        | ok _ m₁ =>
          rw [bind_ok _ begun, bind_ok _ (prepared.trans (bind_ok _ begun))]
          rfl
        | error f m₁ => rw [bind_error _ begun, bind_error _ (prepared.trans (bind_error _ begun))]
    · rw [if_neg boundary] at prepared ⊢
      rw [bind_ok _ prepared]
      rfl

variable (p) in
/-- The words behind the address count twice, the work of the innermost call once. -/
def effort (m : Machine World) : Nat :=
  2 * (p.words.size - m.cursor.ip) + (m.work.length - m.base)

theorem Stacked.effort_eq (stacked : Stacked m work calls) :
    effort p m = 2 * (p.words.size - m.cursor.ip) + work.length := by
  rw [effort, stacked.base_eq, stacked.working, List.length_append]
  omega

theorem Working.effort_pos (working : Working depth m) : 0 < effort p m := by
  have busy := working.2.2
  rw [atBoundary, decide_eq_false_iff_not] at busy
  rw [effort]
  omega

theorem Turn.still {work' : List Work} {calls' : List Call}
    (turn : Turn host p m work calls none m' work' calls') (stacked : Stacked m work calls)
    (before : Working depth m) (after : Working depth m') :
    calls' = calls ∧ Nearer p.words m.cursor.ip work m'.cursor.ip work' := by
  have stacked' := turn.stacked stacked
  have busy := stacked'.busy after.2.2
  have same : calls'.length = calls.length := by
    have old := before.2.1
    have new := after.2.1
    rw [stacked.frames, List.length_map] at old
    rw [stacked'.frames, List.length_map] at new
    omega
  cases turn with
  | goes nearer _ => exact ⟨rfl, nearer⟩
  | passes | stores | halts | enters | returns => exact absurd rfl busy
  | answers _ =>
    rw [List.length_cons] at same
    omega

theorem advance_effort (intact : Intact p gs m) (working : Working depth m)
    (went : advance host p m = .ok () m') (still : Working depth m') :
    effort p m' < effort p m := by
  obtain ⟨work, calls, stacked⟩ := intact_stacked intact
  obtain ⟨work', calls', turn, stacked', -⟩ := turn_of_ok intact stacked working.2.2 went
  rw [stacked.effort_eq, stacked'.effort_eq]
  exact (turn.still stacked working still).2.less (stacked.layered intact).inside

theorem workOff_loops {fuel : Nat} (intact : Intact p gs m) (enough : effort p m ≤ fuel) :
    ∃ k, k ≤ effort p m ∧ Loops host p depth k m (workOff host p depth fuel m) := by
  by_cases working : Working depth m
  · induction fuel generalizing gs m with
    | zero =>
      have := @Working.effort_pos _ p _ _ working
      omega
    | succ fuel ih =>
      have pos := @Working.effort_pos _ p _ _ working
      rw [workOff_working working]
      cases went : advance host p m with
      | error f m' =>
        rw [bind_error _ went]
        exact ⟨1, pos, .fails working went⟩
      | ok _ m' =>
        rw [bind_ok _ went]
        by_cases still : Working depth m'
        · have less := advance_effort intact working went still
          have intact' : Intact p (callsAfter p gs m) m' := by
            have intact' := @advance_intact _ host _ _ _ intact working.2.2
            rwa [went] at intact'
          obtain ⟨k, few, loops⟩ := ih intact' (by omega) still
          exact ⟨k + 1, by omega, .again working went loops⟩
        · rw [workOff_idle still]
          exact ⟨1, pos, .again working went (.done still)⟩
  · rw [workOff_idle working]
    exact ⟨0, Nat.zero_le _, .done working⟩

theorem Loops.idle (loops : Loops host p depth k m r) (idle : ¬Working depth m) : r = .ok () m := by
  cases loops with
  | done _ => rfl
  | fails working | again working => exact absurd working idle

theorem announced_eq (m : Machine World) :
    ∃ started world, m.announced host = { m with started, world } := by
  unfold announced
  split
  · exact ⟨m.started, m.world, rfl⟩
  · exact ⟨true, host.onStart m.world, rfl⟩

section

variable (intact : Intact p gs m)
include intact

theorem announced_intact : Intact p gs (m.announced host) := by
  obtain ⟨started, world, same⟩ := @announced_eq _ host m
  obtain ⟨work, below, layered⟩ := intact
  rw [same]
  exact ⟨work, below, { layered with }⟩

theorem begin_effort (boundary : m.atBoundary = true)
    (begun : beginStatement p m = .ok () m') : effort p m' ≤ effort p m := by
  obtain ⟨work, calls, stacked⟩ := intact_stacked intact
  obtain rfl := stacked.boundary_iff.mp boundary
  rcases begin_turns p m with ⟨f, ip, _, _, failed⟩ | ⟨i, c, gives, _, began⟩
  · rw [failed] at begun
    cases begun
  · rw [began] at begun
    cases begun
    have stacked' : Stacked (m.resume c (.instruction i i.expressions [] :: m.work))
        [.instruction i i.expressions []] calls := stacked.push
    have far := Cursor.statement_onward.far gives
    have inside := (stacked.layered intact).inside
    rw [stacked.effort_eq, stacked'.effort_eq]
    simp only [resume_ip, List.length_cons, List.length_nil]
    omega

theorem prepare_effort (prepared : prepare host p m = .ok true m') :
    Intact p gs m' ∧ effort p m' ≤ effort p m := by
  obtain ⟨started, world, same⟩ := @announced_eq _ host m
  have intact' := @announced_intact _ host _ _ _ intact
  have unchanged : effort p (m.announced host) = effort p m := by
    rw [same]
    rfl
  cases running : m.halted with
  | true =>
    rw [prepare_halted running] at prepared
    cases prepared
  | false =>
    rw [prepare_running running] at prepared
    split at prepared
    · rename_i boundary
      split at prepared
      · cases prepared
      · obtain ⟨_, m₁, begun, last⟩ := of_bind_ok prepared
        cases last
        have intact₁ := begin_intact intact' boundary
        rw [begun] at intact₁
        exact ⟨intact₁, Nat.le_trans (begin_effort intact' boundary begun) (Nat.le_of_eq unchanged)⟩
    · cases prepared
      exact ⟨intact', Nat.le_of_eq unchanged⟩

theorem goOn_loops :
    ∃ k r, k ≤ effort p m ∧ Loops host p m.frames.length k m r ∧ goOn host p m = said r := by
  have enough : effort p m ≤ m.workLeft p := by
    rw [effort, workLeft]
    omega
  obtain ⟨k, few, loops⟩ := @workOff_loops _ host _ _ m.frames.length _ _ intact enough
  refine ⟨k, _, few, loops, ?_⟩
  rw [goOn, get_bind]
  cases ran : workOff host p m.frames.length (m.workLeft p) m with
  | ok _ m' =>
    rw [bind_ok _ ran]
    rfl
  | error f m' =>
    rw [bind_error _ ran]
    rfl

theorem step_performs : ∃ k, k ≤ effort p m ∧ Performs host p k m (step host p m) := by
  rw [step_eq_prepare]
  cases prepared : prepare host p m with
  | error f m' =>
    have performs : Performs host p 0 m (prepare host p m) := .ends (by simp [prepared])
    rw [bind_error _ prepared, ← prepared]
    exact ⟨0, Nat.zero_le _, performs⟩
  | ok more m' =>
    rw [bind_ok _ prepared]
    cases more with
    | false =>
      have performs : Performs host p 0 m (prepare host p m) := .ends (by simp [prepared])
      rw [prepared] at performs
      exact ⟨0, Nat.zero_le _, performs⟩
    | true =>
      obtain ⟨intact', less⟩ := prepare_effort intact prepared
      obtain ⟨k, r, few, loops, gives⟩ := @goOn_loops _ host _ _ _ intact'
      simp only [↓reduceIte]
      rw [gives]
      exact ⟨k, Nat.le_trans few less, .works prepared loops⟩

end

/-- Whatever was called before, the next step ends. The loop that counts nothing does a certain
number of units of work and comes to what the step gives; the number is at most twice that of the
words that are not read plus that of the items of work above the base of the frame. -/
theorem step_ends (called : Called p m) (host : Host World) :
    ∃ k, k ≤ 2 * (p.words.size - m.cursor.ip) + (m.work.length - m.base) ∧
      Performs host p k m (step host p m) ∧
      ∀ k' r, Performs host p k' m r → k' = k ∧ r = step host p m := by
  obtain ⟨gs, visited⟩ := called_met called
  obtain ⟨k, few, performs⟩ := @step_performs _ host _ _ _ (visited_intact visited)
  exact ⟨k, few, performs, fun k' r again => again.unique performs⟩

/-- A return whose expression claims to have more tokens than there could ever be words. -/
def hugeProgram : Program where
  words := #[2, 0xFFFFFFFF, 7, 0]
  functions := #[]
  globals := #[]
  literals := #[.zero]
  lines := none

theorem step_ends_huge :
    fault? (step Host.silent hugeProgram (init hugeProgram ())) = some (.decode (.endOfStream 4)) ∧
    ∃ k, k ≤ 8 ∧ Performs Host.silent hugeProgram k (init hugeProgram ())
      (step Host.silent hugeProgram (init hugeProgram ())) := by
  refine ⟨by decide +kernel, ?_⟩
  have called : Called hugeProgram (init hugeProgram ()) := .fresh ()
  obtain ⟨k, few, performs, -⟩ := step_ends called Host.silent
  exact ⟨k, few, performs⟩

end Scriptlet.Machine
