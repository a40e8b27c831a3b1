import Scriptlet.Proofs.Machine.Turns

/-!
What holds of a machine between any two calls from outside and between any two units of work
inside of them, for every program and after every failure. There is one saved address for each
frame; frames have the slots of the functions that were called; the heights of the work at which
the calls were entered grow from the outermost to the innermost; and a call that waits for a
value waits with an expression. So a return always finds its address, no opcode is refused
behind its own place, and a value that is handed over never gets lost.
-/
namespace Scriptlet.Machine

open Actions

variable {World : Type} {host : Host World} {p : Program} {gs : List UserFunction}
  {m m' : Machine World}

/-- The machines that a program comes to between two units of work, with the functions whose
calls are active then. Neither success nor one host for all units is asked for. -/
inductive Visited (p : Program) : List UserFunction → Machine World → Prop where
  | fresh (world : World) : Visited p [] (init p world)
  | announce {gs : List UserFunction} {m : Machine World} (host : Host World) :
      Visited p gs m → Visited p gs (m.announced host)
  | halt {gs : List UserFunction} {m : Machine World} (host : Host World) :
      Visited p gs m → Visited p gs (ending (halt host m))
  | begin_ {gs : List UserFunction} {m : Machine World} : Visited p gs m → m.atBoundary = true →
      Visited p gs (ending (beginStatement p m))
  | advance {gs : List UserFunction} {m : Machine World} (host : Host World) : Visited p gs m →
      m.atBoundary = false → Visited p (callsAfter p gs m) (ending (advance host p m))

/-- The machines between calls from outside. A call may have failed, and each may have had a
host of its own. -/
inductive Called (p : Program) : Machine World → Prop where
  | fresh (world : World) : Called p (init p world)
  | start {m : Machine World} (host : Host World) : Called p m → Called p (ending (start host m))
  | step {m : Machine World} (host : Host World) : Called p m → Called p (ending (step host p m))
  | run {m : Machine World} (host : Host World) (n : Nat) : Called p m →
      Called p (ending (runFor host p n m))

theorem visited_intact (visited : Visited p gs m) : Intact p gs m := by
  induction visited with
  | fresh world => exact ⟨[], [], rfl, .idle, .nobody, Nat.zero_le _, Nat.zero_le _⟩
  | announce host _ ih =>
    unfold announced
    split
    · exact ih
    · obtain ⟨work, below, layered⟩ := ih
      exact ⟨work, below, { layered with }⟩
  | halt host _ ih =>
    obtain ⟨work, below, layered⟩ := ih
    exact ⟨work, below, { layered with }⟩
  | begin_ _ boundary ih => exact begin_intact ih boundary
  | advance host _ busy ih => exact advance_intact ih busy

def Met (p : Program) (m : Machine World) : Prop := ∃ gs, Visited p gs m

theorem beginStatement_met (visited : Visited p gs m) (boundary : m.atBoundary = true) :
    After (Met p) (beginStatement p m) :=
  .of_ending (begin_after (visited_intact visited) boundary).regular ⟨gs, visited.begin_ boundary⟩

theorem advance_met (visited : Visited p gs m) (busy : m.atBoundary = false) :
    After (Met p) (advance host p m) :=
  .of_ending (advance_after (visited_intact visited) busy).regular ⟨_, visited.advance host busy⟩

theorem announced_met (met : Met p m) : Met p (m.announced host) := by
  obtain ⟨gs, visited⟩ := met
  exact ⟨gs, visited.announce host⟩

theorem met_upheld (host : Host World) : Upheld host p (Met p) fun f m => Met p m ∧ f.Regular where
  announced := announced_met
  halts := fun ⟨gs, visited⟩ _ => ⟨gs, visited.halt host⟩
  begins := fun ⟨_, visited⟩ _ boundary => beginStatement_met visited boundary
  advances := fun ⟨_, visited⟩ _ busy => advance_met visited busy

theorem step_met (met : Met p m) : After (Met p) (step host p m) := (met_upheld host).step met

theorem runFor_met (n : Nat) (met : Met p m) : After (Met p) (runFor host p n m) :=
  (met_upheld host).runFor n met

theorem called_met (called : Called p m) : Met p m := by
  induction called with
  | fresh world => exact ⟨[], .fresh world⟩
  | start host _ ih => exact announced_met ih
  | step host _ ih => exact (step_met ih).ending
  | run host n _ ih => exact (runFor_met n ih).ending

/-- Saved addresses, frames, slots and work fit together. The work is numbered from the outermost
item on, so what lies just below a frame has the number in front of the frame's base. -/
structure Aligned (p : Program) (gs : List UserFunction) (m : Machine World) : Prop where
  saved : m.cursor.saved.length = m.frames.length
  depth : m.frames.length ≤ maxDepth
  bases : m.frames.Pairwise fun inner outer => outer.base ≤ inner.base
  height : heightOf m.frames ≤ m.work.length
  calls : gs.length = m.frames.length ∧ ∀ g ∈ gs, .user g ∈ p.functions
  slots : ∀ (i : Nat) (f : Frame) (g : UserFunction), m.frames[i]? = some f → gs[i]? = some g →
    f.parameters.size = g.parameters.toNat ∧ f.locals.size = g.locals.toNat
  suspended : ∀ (f : Frame) (outer : List Frame), (f :: outer) <:+ m.frames →
    heightOf outer < f.base →
      ∃ n operands, m.work.reverse[f.base - 1]? = some (.expression n operands)
  ip : m.cursor.ip ≤ p.words.size
  ips : ∀ ip ∈ m.cursor.saved, ip ≤ p.words.size

end Scriptlet.Machine

namespace Scriptlet

variable {p : Program} {gs : List UserFunction} {frames : List Frame} {saved : List Nat}
  {below : List Work}

namespace Nested

variable (nested : Nested p gs frames saved below)
include nested

theorem lengths : saved.length = frames.length ∧ gs.length = frames.length := by
  induction nested with
  | nobody => exact ⟨rfl, rfl⟩
  | call _ _ _ _ _ _ _ ih => simp [ih]

theorem bases : frames.Pairwise fun inner outer => outer.base ≤ inner.base := by
  have below_all : ∀ {gs frames saved below}, Nested p gs frames saved below →
      ∀ f ∈ frames, f.base ≤ below.length := by
    intro gs frames saved below nested
    induction nested with
    | nobody => simp
    | @call _ _ f _ _ _ work lower height _ _ _ _ _ _ ih =>
      intro g member
      rcases List.mem_cons.mp member with rfl | outer
      · exact Nat.le_of_eq height
      · have := ih g outer
        rw [List.length_append]
        omega
  induction nested with
  | nobody => exact .nil
  | @call _ _ f _ _ _ work lower height _ _ _ _ _ next ih =>
    refine List.pairwise_cons.mpr ⟨?_, ih⟩
    intro g outer
    have := below_all next g outer
    rw [height, List.length_append]
    omega

theorem callees : ∀ g ∈ gs, .user g ∈ p.functions := by
  induction nested with
  | nobody => simp
  | call _ _ known _ _ _ _ ih =>
    intro g member
    rcases List.mem_cons.mp member with rfl | outer
    · exact known
    · exact ih g outer

theorem slots : ∀ (i : Nat) (f : Frame) (g : UserFunction),
    frames[i]? = some f → gs[i]? = some g → f.Fits g := by
  induction nested with
  | nobody => simp
  | call _ fits _ _ _ _ _ ih =>
    intro i f g at_ callee
    cases i with
    | zero =>
      obtain rfl := Option.some.inj at_
      obtain rfl := Option.some.inj callee
      exact fits
    | succ i => exact ih i f g at_ callee

theorem ips : ∀ ip ∈ saved, ip ≤ p.words.size := by
  induction nested with
  | nobody => simp
  | call _ _ _ inside _ _ _ ih =>
    intro ip member
    rcases List.mem_cons.mp member with rfl | outer
    · exact inside
    · exact ih ip outer

theorem suspended :
    ∀ (f : Frame) (outer : List Frame), (f :: outer) <:+ frames → Machine.heightOf outer < f.base →
      ∃ n operands, below.reverse[f.base - 1]? = some (.expression n operands) := by
  induction nested with
  | nobody =>
    intro f outer suffix
    simp at suffix
  | @call _ _ f _ _ _ work lower height _ _ _ _ waits next ih =>
    intro g outer suffix higher
    rcases List.suffix_cons_iff.mp suffix with same | later
    · obtain ⟨rfl, rfl⟩ := List.cons.inj same
      rw [next.height, height, List.length_append] at higher
      cases waits with
      | idle => simp at higher
      | expression n operands rest =>
        refine ⟨n, operands, ?_⟩
        rw [height, List.getElem?_reverse (by simp)]
        simp
    · obtain ⟨n, operands, found⟩ := ih g outer later higher
      refine ⟨n, operands, ?_⟩
      rw [List.reverse_append, List.getElem?_append_left]
      · exact found
      · exact (List.getElem?_eq_some_iff.mp found).1

end Nested

namespace Machine

variable {World : Type} {m : Machine World} {work above rest : List Work} {w : Work}

theorem intact_aligned (intact : Intact p gs m) : Aligned p gs m := by
  obtain ⟨work, below, layered⟩ := intact
  have nested := layered.callers
  refine ⟨nested.lengths.1, layered.depth, nested.bases, ?_, ⟨nested.lengths.2, nested.callees⟩,
    nested.slots, ?_, layered.inside, nested.ips⟩
  · rw [nested.height, layered.working, List.length_append]
    omega
  · intro f outer suffix higher
    obtain ⟨n, operands, found⟩ := nested.suspended f outer suffix higher
    refine ⟨n, operands, ?_⟩
    rw [layered.working, List.reverse_append, List.getElem?_append_left]
    · exact found
    · exact (List.getElem?_eq_some_iff.mp found).1

/-- The next unit of work may hand over a value, and this is the work that lies on top then. A
token gives its value to the expression it stands in, an expression to the instruction that asked
for it, a compound token to the expression it stands in, and a return to the call that waits. -/
inductive HandsOver (m : Machine World) : List Work → Prop where
  | token {n : Nat} {operands : List Value} {rest : List Work} (others : List Value) :
      m.work = .expression (n + 1) operands :: rest → HandsOver m (.expression n others :: rest)
  | expression {operands : List Value} {rest : List Work} :
      m.work = .expression 0 operands :: rest → HandsOver m rest
  | compound {i : Instruction} {values : List Value} {rest : List Work} :
      m.work = .instruction i 0 values :: rest → i.op.isStatement = false → HandsOver m rest
  | return_ {i : Instruction} {values : List Value} {rest : List Work} {f : Frame}
      {frames : List Frame} : m.work = .instruction i 0 values :: rest → i.op = .returnValue →
      m.frames = f :: frames → heightOf frames < rest.length → HandsOver m rest

def Upper : Work → Prop
  | .instruction i _ _ => i.op.isStatement = false
  | .expression _ _ => True

theorem layer_upper (layer : Layer work) (split : work = above ++ w :: rest) (upper : Upper w) :
    rest ≠ [] := by
  induction layer generalizing above with
  | idle => simp at split
  | statement n values _ kind =>
    cases above with
    | nil =>
      obtain ⟨rfl, rfl⟩ := List.cons.inj split
      rw [show _ = false from upper] at kind
      cases kind
    | cons _ above => simp at split
  | expression n operands lower ih | compound n values legal kind lower ih =>
    cases above with
    | nil =>
      obtain ⟨rfl, rfl⟩ := List.cons.inj split
      simp
    | cons _ above => exact ih (List.cons.inj split).2

theorem layers_upper (layer : Layer work)
    (lower : ∀ above w rest, below = above ++ w :: rest → Upper w → rest ≠ [])
    (split : work ++ below = above ++ w :: rest) (upper : Upper w) : rest ≠ [] := by
  rcases List.append_eq_append_iff.mp split with ⟨more, rfl, later⟩ | ⟨more, rfl, later⟩
  · exact lower more w rest later upper
  · cases more with
    | nil => exact lower [] w rest later.symm upper
    | cons w' more =>
      obtain ⟨rfl, rfl⟩ := List.cons.inj later
      have := layer_upper layer rfl upper
      simp [this]

theorem intact_upper (intact : Intact p gs m) (split : m.work = above ++ w :: rest)
    (upper : Upper w) :
    rest ≠ [] := by
  obtain ⟨work, below, working, layer, callers, -, -⟩ := intact
  refine layers_upper layer ?_ (working.symm.trans split) upper
  generalize m.frames = frames, m.cursor.saved = saved at callers
  clear working
  induction callers with
  | nobody => simp
  | call _ _ _ _ lower _ _ ih => exact fun _ _ _ => layers_upper lower ih

theorem visited_hands_over (visited : Visited p gs m) (hands : HandsOver m work) : work ≠ [] := by
  have lies : ∀ {w : Work}, m.work = w :: work → Upper w → work ≠ [] := by
    intro w working
    exact intact_upper (visited_intact visited) (working.trans (List.nil_append _).symm)
  cases hands with
  | token others working => simp
  | expression working => exact lies working trivial
  | compound working kind => exact lies working kind
  | return_ working returns active higher =>
    intro nothing
    rw [nothing] at higher
    simp at higher

/-- Whatever was called from outside before, the machine is aligned, and it stays so inside of
every further call. The next step or run fails only in regular ways, and no unit of work hands a
value to nobody. -/
theorem called_aligned (called : Called p m) : (∃ gs, Visited p gs m ∧ Aligned p gs m) ∧
      (∀ host f m', step host p m = .error f m' → f.Regular) ∧
      (∀ host n f m', runFor host p n m = .error f m' → f.Regular) ∧
      ∀ (gs : List UserFunction) (m' : Machine World), Visited p gs m' →
        Aligned p gs m' ∧ ∀ work, HandsOver m' work → work ≠ [] := by
  have inside : ∀ (gs : List UserFunction) (m' : Machine World), Visited p gs m' →
      Aligned p gs m' ∧ ∀ work, HandsOver m' work → work ≠ [] := fun gs m' visited =>
    ⟨intact_aligned (visited_intact visited), fun _ => visited_hands_over visited⟩
  have met := called_met called
  refine ⟨?_, ?_, ?_, inside⟩
  · obtain ⟨gs, visited⟩ := met
    exact ⟨gs, visited, (inside gs m visited).1⟩
  · intro host f m' failed
    have after := @step_met _ host p m met
    rw [failed] at after
    exact after.2
  · intro host n f m' failed
    have after := @runFor_met _ host p m n met
    rw [failed] at after
    exact after.2

def strayProgram : Program where
  words := #[1, 0, 0, 99]
  functions := #[.user ⟨"F", 3, 1, 2⟩]
  globals := #[]
  literals := #[]
  lines := none

theorem called_aligned_stray :
    ∃ m, step Host.silent strayProgram
      (ending (step Host.silent strayProgram (init strayProgram ()))) =
        .error (.decode (.invalidOpcode 99 3)) m ∧ m.frames.length = 1 ∧
      ∃ gs, Visited strayProgram gs m ∧ Aligned strayProgram gs m := by
  refine ⟨_, rfl, rfl, ?_⟩
  have called : Called strayProgram (ending (step Host.silent strayProgram
      (ending (step Host.silent strayProgram (init strayProgram ()))))) :=
    ((Called.fresh ()).step Host.silent).step Host.silent
  exact (called_aligned called).1

end Machine

end Scriptlet
