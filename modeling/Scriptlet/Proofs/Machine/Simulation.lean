import Scriptlet.Proofs.Machine.Recursion
import Scriptlet.Proofs.Machine.Spans

/-!
The machine does what recursive evaluation does. Wherever evaluation stands, the machine stands at
the same place with the same variables; what evaluation has on its way back lies as work below.
Units of work take the machine along, and runs are made of units of work.
-/
namespace Scriptlet

open Actions

namespace Machine

variable {World : Type} {host : Host World} {p : Program} {m m' m'' : Machine World} {k : Nat}

variable (host p) in
/-- One unit of work of a machine that runs, or its end where the code ends. -/
inductive Tick : Machine World → Machine World → Prop where
  | begin_ {m m' : Machine World} : m.halted = false → m.started = true → m.atBoundary = true →
      m.cursor.atEnd p.words = false → beginStatement p m = .ok () m' → Tick m m'
  | advance {m m' : Machine World} : m.halted = false → m.started = true → m.atBoundary = false →
      advance host p m = .ok () m' → Tick m m'
  | stop {m m' : Machine World} : m.halted = false → m.started = true → m.atBoundary = true →
      m.cursor.atEnd p.words = true → halt host m = .ok () m' → Tick m m'

variable (host p) in
inductive Goes : Nat → Machine World → Machine World → Prop where
  | refl (m : Machine World) : Goes 0 m m
  | tick {k : Nat} {m m' m'' : Machine World} : Tick host p m m' → Goes k m' m'' →
      Goes (k + 1) m m''

variable (host p) in
def Reaches (m m' : Machine World) : Prop := ∃ k, Goes host p k m m'

namespace Reaches

theorem refl (m : Machine World) : Reaches host p m m := ⟨0, .refl m⟩

theorem tick (first : Tick host p m m') : Reaches host p m m' := ⟨1, .tick first (.refl _)⟩

theorem trans (first : Reaches host p m m') (second : Reaches host p m' m'') :
    Reaches host p m m'' := by
  obtain ⟨k, goes⟩ := first
  induction goes with
  | refl m => exact second
  | tick one rest ih =>
    obtain ⟨n, goes⟩ := ih second
    exact ⟨n + 1, .tick one goes⟩

end Reaches

theorem workOff_goes (depth fuel : Nat) (goes : Goes host p k m m'') (halted : m''.halted = true) :
    ∃ m₁ j, workOff host p depth fuel m = .ok () m₁ ∧
      Goes host p j m₁ m'' ∧ j ≤ k ∧ (0 < fuel → m.halted = false → m.frames.length = depth →
        m.atBoundary = false → j < k) := by
  induction fuel generalizing m k with
  | zero => exact ⟨m, k, rfl, goes, Nat.le_refl k, fun positive =>
      absurd positive (Nat.lt_irrefl 0)⟩
  | succ n ih =>
    by_cases working : Working depth m
    · rw [workOff_working working]
      obtain ⟨running, _, waits⟩ := working
      cases goes with
      | refl =>
        rw [halted] at running
        cases running
      | tick one rest =>
        cases one with
        | advance _ _ _ ran =>
          obtain ⟨m₁, j, worked, goes, less, _⟩ := ih rest
          exact ⟨m₁, j, (bind_ok _ ran).trans worked, goes, by omega, fun _ _ _ _ => by omega⟩
        | begin_ _ _ boundary | stop _ _ boundary =>
          rw [boundary] at waits
          cases waits
    · rw [workOff_idle working]
      exact ⟨m, k, rfl, goes, Nat.le_refl k,
        fun _ running same waits => absurd ⟨running, same, waits⟩ working⟩

theorem announced_of_started (started : m.started = true) : m.announced host = m := by
  rw [announced, started]
  rfl

theorem step_goes (goes : Goes host p (k + 1) m m'') (halted : m''.halted = true) :
    ∃ more m₁ j, step host p m = .ok more m₁ ∧ Goes host p j m₁ m'' ∧ j ≤ k ∧
    more = !m₁.halted := by
  have goOn_goes : ∀ {m : Machine World} {k : Nat}, Goes host p k m m'' → ∃ m₁ j,
      goOn host p m = .ok (!m₁.halted) m₁ ∧ Goes host p j m₁ m'' ∧ j ≤ k ∧
        (m.halted = false → m.atBoundary = false → j < k) := by
    intro m k goes
    obtain ⟨m₁, j, worked, goes', most, less⟩ :=
      workOff_goes m.frames.length (m.workLeft p) goes halted
    refine ⟨m₁, j, ?_, goes', most, fun running waits => less ?_ running rfl waits⟩
    · rw [goOn, get_bind, bind_ok _ worked]
      rfl
    · rw [atBoundary, decide_eq_false_iff_not] at waits
      rw [workLeft]
      omega
  cases goes with
  | @tick _ _ next _ one rest =>
    cases one with
    | begin_ running started boundary inside begun =>
      obtain ⟨m₁, j, ran, goes', most, _⟩ := goOn_goes rest
      refine ⟨!m₁.halted, m₁, j, ?_, goes', most, rfl⟩
      rw [← announced_of_started started] at boundary inside begun
      rw [step_announced running, boundary, inside]
      exact (bind_ok _ begun).trans ran
    | advance running started waits ran =>
      obtain ⟨m₁, j, ran', goes', _, less⟩ :=
        goOn_goes (.tick (.advance running started waits ran) rest)
      refine ⟨!m₁.halted, m₁, j, ?_, goes', Nat.le_of_lt_succ (less running waits), rfl⟩
      rw [step_announced running, announced_of_started started, waits]
      exact ran'
    | stop running started boundary outside ended =>
      have stopped : next.halted = true := by
        cases ended
        rfl
      refine ⟨false, next, k, ?_, rest, Nat.le_refl k, by rw [stopped]; rfl⟩
      rw [← announced_of_started started] at boundary outside ended
      rw [step_announced running, boundary, outside]
      exact bind_ok _ ended

theorem runFor_of_goes (goes : Goes host p k m m'') (halted : m''.halted = true) :
    ∃ n, runFor host p n m = .ok (some m''.result) m'' := by
  induction k using Nat.strongRecOn generalizing m with
  | ind k ih =>
    cases k with
    | zero =>
      cases goes with
      | refl =>
        refine ⟨1, ?_⟩
        rw [runFor, bind_ok _ (step_halted halted)]
        rfl
    | succ k =>
      obtain ⟨more, m₁, j, stepped, goes', most, rfl⟩ := step_goes goes halted
      obtain ⟨n, ran⟩ := ih j (by omega) goes'
      cases stopped : m₁.halted with
      | false =>
        refine ⟨n + 1, ?_⟩
        rw [runFor, bind_ok _ stepped, stopped]
        exact ran
      | true =>
        rw [stopped] at stepped
        cases goes' with
        | refl =>
          refine ⟨1, ?_⟩
          rw [runFor, bind_ok _ stepped]
          rfl
        | tick one _ => cases one <;> simp_all

theorem runFor_announced (n : Nat) (running : m.halted = false) :
    runFor host p (n + 1) m = runFor host p (n + 1) (m.announced host) := by
  have again : (m.announced host).announced host = m.announced host := by
    unfold announced
    split <;> rfl
  have same : step host p m = step host p (m.announced host) := by
    rw [step_announced running, step_announced (by rw [announced_halted, running]), again]
  exact (bind_apply _ _ m).trans (same ▸ (bind_apply _ _ (m.announced host)).symm)

end Machine

namespace Recursion

variable {World W : Type} {α β : Type} {s s' : State World} {x : Eval World α}
  {f : α → Eval World β} {a : α} {r : Cursor.Reading α}

theorem of_bind {b : β} (some_ : (x >>= f) s = some (b, s')) :
    ∃ a t, x s = some (a, t) ∧ f a t = some (b, s') := by
  obtain ⟨⟨a, t⟩, first, second⟩ := Option.bind_eq_some_iff.mp some_
  exact ⟨a, t, first, second⟩

theorem of_pure {b : α} (some_ : (pure a : Eval World α) s = some (b, s')) : a = b ∧ s = s' := by
  obtain ⟨rfl, rfl⟩ := Prod.mk.inj (Option.some.inj some_)
  exact ⟨rfl, rfl⟩

def Steady (r : Cursor.Reading α) : Prop :=
  ∀ ip saved a c, r ⟨ip, saved⟩ = .ok a c → ∀ others, r ⟨ip, others⟩ = .ok a ⟨c.ip, others⟩

theorem Steady.of_onward {words : Array UInt32} {k : Nat} (onward : r.Onward words k) : Steady r :=
  fun _ _ _ _ read => (onward.of_ok read).1

theorem of_reading (some_ : reading r s = some (a, s')) :
    ∃ c, r ⟨s.ip, []⟩ = .ok a c ∧ s' = { s with ip := c.ip } := by
  rw [reading] at some_
  cases read : r ⟨s.ip, []⟩ with
  | error e c =>
    rw [read] at some_
    cases some_
  | ok b c =>
    rw [read] at some_
    cases some_
    exact ⟨c, rfl, rfl⟩

/-- What evaluation is on its way back to: the frames, the saved addresses and the height of the
work of the calls around. -/
inductive Context where
  | outermost
  | call (base : Nat) (callers : List Frame) (saved : List Nat)

namespace Context

def base : Context → Nat
  | .outermost => 0
  | .call base _ _ => base

def depth : Context → Nat
  | .outermost => 0
  | .call _ callers _ => callers.length + 1

def saved : Context → List Nat
  | .outermost => []
  | .call _ _ saved => saved

def frames (s : State World) : Context → List Frame
  | .outermost => []
  | .call base callers _ => ⟨s.parameters, s.locals, base⟩ :: callers

end Context

/-- The other host acts alike on a world of its own, which can show the calls so far. -/
structure Shows (host : Host World) (other : Host W)
    (view : World → List (String × List Value) → W) : Prop where
  onEnd : ∀ world asked, other.onEnd (view world asked) = view (host.onEnd world) asked
  call : ∀ name arguments world asked, other.call name arguments (view world asked) =
    ((host.call name arguments world).1,
      view (host.call name arguments world).2 (asked ++ [(name, arguments)]))

variable {host : Host World} {other : Host W} {view : World → List (String × List Value) → W}
  {p : Program}

variable (view) in
def State.machine (s : State World) (c : Context) (work : List Work) : Machine W where
  cursor := ⟨s.ip, c.saved⟩
  frames := c.frames s
  globals := s.globals
  work
  result := s.result
  started := true
  halted := false
  world := view s.world s.asked

def State.Fits (s : State World) : Context → Prop
  | .outermost => s.parameters = #[] ∧ s.locals = #[]
  | .call _ _ _ => True

section Machine

variable {s s' : State World} {c : Context} {work rest : List Work} {r : Cursor.Reading α} {a : α}

theorem machine_base : (s.machine view c work).base = c.base := by
  cases c <;> rfl

theorem machine_depth : (s.machine view c work).frames.length = c.depth := by
  cases c <;> rfl

theorem machine_waits (higher : c.base < work.length) :
    (s.machine view c work).atBoundary = false := by
  rw [Machine.atBoundary, machine_base, decide_eq_false_iff_not]
  exact Nat.not_le.mpr higher

theorem machine_boundary (level : work.length = c.base) :
    (s.machine view c work).atBoundary = true := by
  rw [Machine.atBoundary, machine_base, decide_eq_true_iff]
  exact Nat.le_of_eq level

theorem fits_of_slots (parameters : s'.parameters = s.parameters) (locals : s'.locals = s.locals)
    (fits : s.Fits c) : s'.Fits c := by
  cases c with
  | outermost => exact ⟨parameters.trans fits.1, locals.trans fits.2⟩
  | call base callers saved => trivial

theorem reading_fits (read : reading r s = some (a, s')) (fits : s.Fits c) : s'.Fits c := by
  obtain ⟨_, _, rfl⟩ := of_reading read
  exact fits_of_slots rfl rfl fits

theorem read_machine (steady : Steady r) (read : reading r s = some (a, s')) :
    Machine.read r (s.machine view c work) = .ok a (s'.machine view c work) := by
  obtain ⟨⟨ip, saved⟩, at_, rfl⟩ := of_reading read
  have there : r (s.machine view c work).cursor = .ok a ⟨ip, c.saved⟩ :=
    steady s.ip [] a _ at_ c.saved
  rw [Machine.read_ok there]
  cases c <;> rfl

theorem load_machine {a : Address} {v : Value} (fits : s.Fits c)
    (loaded : load a s = some (v, s')) :
    s' = s ∧ (s.machine view c work).value? a = some v := by
  obtain ⟨w, found, same⟩ := Option.map_eq_some_iff.mp loaded
  obtain ⟨rfl, rfl⟩ := Prod.mk.inj same
  refine ⟨rfl, ?_⟩
  obtain ⟨scope, index⟩ := a
  cases scope with
  | globals => cases c <;> exact found
  | locals =>
    cases c with
    | outermost => simp [State.slots, fits.2] at found
    | call base callers saved => exact found
  | parameters =>
    cases c with
    | outermost => simp [State.slots, fits.1] at found
    | call base callers saved => exact found

theorem setSlot_fits (fits : s.Fits c) (a : Address) (v : Value) : (s.setSlot a v).Fits c := by
  cases c with
  | call base callers saved => trivial
  | outermost =>
    obtain ⟨scope, index⟩ := a
    obtain ⟨parameters, locals⟩ := fits
    cases scope with
    | globals => exact ⟨parameters, locals⟩
    | locals => exact ⟨parameters, by simp [State.setSlot, locals]⟩
    | parameters => exact ⟨by simp [State.setSlot, parameters], locals⟩

theorem setSlot_machine (a : Address) (v : Value) :
    (s.machine view c work).setSlot a v = (s.setSlot a v).machine view c work := by
  obtain ⟨scope, index⟩ := a
  cases c <;> cases scope <;> rfl

end Machine

variable (other view p) in
/-- The machine, with this work on top, comes along with evaluation. -/
def Carries (depth : Nat) (x : Eval World α) (before : List Work) (after : α → List Work) : Prop :=
  ∀ ⦃s s' : State World⦄ ⦃a : α⦄, x s = some (a, s') → ∀ ⦃c : Context⦄ ⦃rest : List Work⦄,
    c.depth = depth → c.base ≤ rest.length → s.Fits c → s'.Fits c ∧
      Machine.Reaches other p (s.machine view c (before ++ rest))
        (s'.machine view c (after a ++ rest))

variable (other view p) in
/-- A call of a function enters it and comes back with its value, which goes to the expression
that waits for it, or becomes the result. -/
structure Serves (depth : Nat) (calls : Calls World) : Prop where
  wanted : ∀ {f : UserFunction} {arguments : List Value} {s s' : State World} {v : Value},
    calls f arguments s = some (v, s') → ∀ {c : Context} {n : Nat} {operands : List Value}
      {rest : List Work}, c.depth = depth → c.base ≤ rest.length → s.Fits c → s'.Fits c ∧ ∃ m,
        Machine.enter p f arguments (s.machine view c (.expression n operands :: rest)) = .ok () m ∧
          Machine.Reaches other p m (s'.machine view c (.expression n (v :: operands) :: rest))
  ignored : ∀ {f : UserFunction} {arguments : List Value} {s s' : State World} {v : Value},
    calls f arguments s = some (v, s') → ∀ {c : Context} {rest : List Work}, c.depth = depth →
      rest.length = c.base → s.Fits c → s'.Fits c ∧ ∃ m,
        Machine.enter p f arguments (s.machine view c rest) = .ok () m ∧
          Machine.Reaches other p m (State.machine view { s' with result := v } c rest)

theorem Carries.bind {depth : Nat} {before : List Work} {middle : α → List Work}
    {after : β → List Work} (first : Carries other view p depth x before middle)
    (then_ : ∀ a, Carries other view p depth (f a) (middle a) after) :
    Carries other view p depth (x >>= f) before after := by
  intro s s' b ran c rest deep low fits
  obtain ⟨a, t, one, two⟩ := of_bind ran
  obtain ⟨fits₁, reaches₁⟩ := first one deep low fits
  obtain ⟨fits₂, reaches₂⟩ := then_ a two deep low fits₁
  exact ⟨fits₂, reaches₁.trans reaches₂⟩

theorem Carries.pure {depth : Nat} {a : α} {work : List Work} {after : α → List Work}
    (same : after a = work) : Carries other view p depth (pure a) work after := by
  intro s s' b ran c rest deep low fits
  obtain ⟨rfl, rfl⟩ := of_pure ran
  rw [same]
  exact ⟨fits, .refl _⟩

section Expressions

variable {depth : Nat} {s s' : State World} {c : Context} {rest : List Work} {n : Nat}
  {operands values : List Value} {i : Instruction} {calls : Calls World} {work : List Work}
  {op : Opcode} {s₁ : State World} {inner : Nat → Eval World (List Value)}

theorem tick_machine {w : Work} {m : Machine W} (low : c.base ≤ rest.length)
    (advanced : Machine.advance other p (s.machine view c (w :: rest)) = .ok () m) :
    Machine.Reaches other p (s.machine view c (w :: rest)) m :=
  .tick (.advance rfl rfl (machine_waits (by simp; omega)) advanced)

theorem complete_machine :
    Machine.advance other p (s.machine view c (.instruction i 0 values :: rest)) =
      Machine.complete other p i values (s.machine view c rest) :=
  Machine.advance_complete rfl

theorem headD_reverse (values : List Value) :
    values.reverse.headD .zero = values.getLastD .zero := by
  rw [List.headD_eq_head?_getD, List.head?_reverse, List.getLastD_eq_getLast?]

theorem tail_reverse (values : List Value) : values.reverse.tail.reverse = values.dropLast := by
  rw [List.tail_reverse, List.reverse_reverse]

theorem ask_machine (shows : Shows host other view) {place : Nat} {name : String} {arity : Arity}
    {arguments : List Value} {v : Value} {wanted : Bool}
    (found : p.functions[place]? = some (.host name arity))
    (asked : ask host name arguments s = some (v, s')) :
    Machine.call other p place arguments wanted (s.machine view c work) =
        (if wanted then Machine.deliver v (s'.machine view c work)
          else .ok () (s'.machine view c work)) ∧ (s.Fits c → s'.Fits c) := by
  have answers : other.call name arguments (s.machine view c work).world = _ :=
    shows.call name arguments s.world s.asked
  rw [Machine.call_host found, answers]
  rw [ask] at asked
  rcases answered : host.call name arguments s.world with ⟨answer, world⟩
  rw [answered] at asked
  cases answer with
  | error reason => cases asked
  | ok w =>
    cases asked
    refine ⟨?_, fits_of_slots rfl rfl⟩
    cases c <;> rfl

theorem yield_carries (n : Nat) (operands : List Value) (shows : Shows host other view)
    (serves : Serves other view p depth calls) (legal : i.Legal) (kind : i.op.isStatement = false) :
    Carries other view p depth (yield host p calls i values)
      [.instruction i 0 values.reverse, .expression n operands]
      (fun v => [.expression n (v :: operands)]) := by
  intro s s' v ran c rest deep low fits
  have higher : c.base ≤ (Work.expression n operands :: rest).length := by
    rw [List.length_cons]
    omega
  have done : ∀ {m : Machine W},
      Machine.complete other p i values.reverse
        (s.machine view c (.expression n operands :: rest)) =
        .ok () m → Machine.Reaches other p
          (s.machine view c (.instruction i 0 values.reverse :: .expression n operands :: rest))
          m :=
    fun completed => tick_machine higher (complete_machine.trans completed)
  cases legal with
  | call ip place k =>
    rw [Machine.complete, List.reverse_reverse] at done
    rw [yield, call] at ran
    cases found : p.functions[place]? with
    | none =>
      rw [found] at ran
      cases ran
    | some callee =>
      rw [found] at ran
      cases callee with
      | user f =>
        obtain ⟨fits', m, entered, comes⟩ := serves.wanted ran deep low fits
        exact ⟨fits', (done ((Machine.call_user found).trans entered)).trans comes⟩
      | native f =>
        obtain ⟨rfl, rfl⟩ := of_pure ran
        exact ⟨fits, done (Machine.call_native found)⟩
      | host name arity =>
        obtain ⟨asked, fits'⟩ := ask_machine shows found ran
        exact ⟨fits' fits, done asked⟩
  | createList =>
    obtain ⟨rfl, rfl⟩ := of_pure ran
    rw [← headD_reverse]
    exact ⟨fits, done rfl⟩
  | initializeList =>
    obtain ⟨rfl, rfl⟩ := of_pure ran
    refine ⟨fits, done ?_⟩
    rw [Machine.complete, List.reverse_reverse]
    rfl
  | element ip slot k | elementPath ip slot k =>
    obtain ⟨old, t, loaded, ran⟩ := of_bind ran
    obtain ⟨rfl, rfl⟩ := of_pure ran
    obtain ⟨rfl, found⟩ : t = s ∧
        (s.machine view c (.expression n operands :: rest)).value? slot = some old :=
      load_machine fits loaded
    refine ⟨fits, done ?_⟩
    rw [Machine.complete_elementPath rfl found (by simp), List.reverse_reverse]
    rfl
  | _ => cases kind

theorem advance_token :
    Machine.advance other p (s.machine view c (.expression (n + 1) operands :: rest)) =
      Machine.token p (s.machine view c (.expression n operands :: rest)) :=
  Machine.advance_expression rfl

theorem opcode_machine (read : reading (.of (Cursor.opcode p.words)) s = some (op, s₁)) :
    Machine.opcode p (s.machine view c work) = .ok op (s₁.machine view c work) :=
  read_machine (.of_onward Cursor.opcode_onward) read

theorem await_machine {ip : Nat}
    (read : reading (Cursor.instruction p.words op ip) s = some (some i, s₁)) :
    Machine.await p op ip (s.machine view c work) =
        .ok () (s₁.machine view c (.instruction i i.expressions [] :: work)) ∧
      i.Legal ∧ i.op = op := by
  obtain ⟨_, found, _⟩ := of_reading read
  refine ⟨?_, ?_⟩
  · rw [Machine.await, bind_ok _ (read_machine (.of_onward (Cursor.instruction_onward op ip)) read)]
    rfl
  · rcases Cursor.instruction_kind found with ⟨nothing, _⟩ | ⟨j, some_, legal, same, _⟩
    · cases nothing
    · cases some_
      exact ⟨legal, same⟩

theorem token_carries (shows : Shows host other view) (serves : Serves other view p depth calls)
    (carries : ∀ k i, Carries other view p depth (inner k) [.instruction i k []]
      (fun values => [.instruction i 0 values.reverse])) :
    Carries other view p depth (token host p calls inner operands) [.expression (n + 1) operands]
      (fun ops => [.expression n ops]) := by
  intro s s' ops ran c rest deep low fits
  obtain ⟨_, _, got, ran⟩ := of_bind ran
  cases got
  obtain ⟨op, s₁, read, ran⟩ := of_bind ran
  have fits₁ := reading_fits read fits
  have ticked : ∀ {m : Machine W},
      Machine.token p (s.machine view c (.expression n operands :: rest)) = .ok () m →
      Machine.Reaches other p (s.machine view c (.expression (n + 1) operands :: rest)) m :=
    fun done => tick_machine low (advance_token.trans done)
  rw [Machine.token, get_bind, bind_ok _ (opcode_machine read)] at ticked
  -- Compound tokens wait for their expressions, all others are done at once.
  have compound : ∀ (op : Opcode) (go : Option Instruction → Eval World (List Value)),
      go none = failure → (∀ i, go (some i) = inner i.expressions >>= fun values =>
        yield host p calls i values >>= fun v => pure (v :: operands)) →
      (if op.isStatement then failure else reading (Cursor.instruction p.words op s.ip) >>= go :
        Eval World (List Value)) s₁ = some (ops, s') →
      (∀ {m : Machine W}, ((if op.isStatement then throw (.unexpectedOpcode op s.ip .expression)
          else Machine.await p op s.ip : Machine.Action W Unit)
        (s₁.machine view c (.expression n operands :: rest))) = .ok () m →
        Machine.Reaches other p (s.machine view c (.expression (n + 1) operands :: rest)) m) →
      s'.Fits c ∧ Machine.Reaches other p
        (s.machine view c (.expression (n + 1) operands :: rest))
        (s'.machine view c (.expression n ops :: rest)) := by
    intro op go nothing something ran ticked
    cases kind : op.isStatement with
    | true =>
      rw [kind] at ran
      cases ran
    | false =>
      rw [kind] at ran ticked
      obtain ⟨found, s₂, taken, ran⟩ := of_bind ran
      cases found with
      | none =>
        rw [nothing] at ran
        cases ran
      | some i =>
        rw [something] at ran
        obtain ⟨values, s₃, evaluated, ran⟩ := of_bind ran
        obtain ⟨awaited, legal, same⟩ := await_machine taken
        have higher : c.base ≤ (Work.expression n operands :: rest).length := by
          rw [List.length_cons]
          omega
        obtain ⟨fits₃, inside⟩ := carries i.expressions i evaluated deep higher
          (reading_fits taken fits₁)
        obtain ⟨v, s₄, yielded, ran⟩ := of_bind ran
        obtain ⟨rfl, rfl⟩ := of_pure ran
        obtain ⟨fits₄, given⟩ := yield_carries n operands shows serves legal (same ▸ kind)
          yielded deep low fits₃
        exact ⟨fits₄, ((ticked awaited).trans inside).trans given⟩
  cases op with
  | literal =>
    obtain ⟨place, s₂, taken, ran⟩ := of_bind ran
    cases found : p.literals[place]? with
    | none =>
      rw [found] at ran
      cases ran
    | some v =>
      rw [found] at ran
      obtain ⟨rfl, rfl⟩ := of_pure ran
      refine ⟨reading_fits taken fits₁, ticked ?_⟩
      simp only
      rw [bind_ok _ (read_machine (.of_onward Cursor.number_onward) taken), found]
      rfl
  | load =>
    obtain ⟨a, s₂, taken, ran⟩ := of_bind ran
    have fits₂ := reading_fits taken fits₁
    obtain ⟨v, s₃, loaded, ran⟩ := of_bind ran
    obtain ⟨rfl, rfl⟩ := of_pure ran
    obtain ⟨rfl, found⟩ : s₃ = s₂ ∧
        (s₂.machine view c (.expression n operands :: rest)).value? a = some v :=
      load_machine fits₂ loaded
    refine ⟨fits₂, ticked ?_⟩
    simp only
    rw [bind_ok _ (read_machine (.of_onward Cursor.address_onward) taken),
      bind_ok _ (Machine.load_ok found)]
    rfl
  | binary op =>
    rcases operands with _ | ⟨right, _ | ⟨left, more⟩⟩
    · cases ran
    · cases ran
    · obtain ⟨rfl, rfl⟩ := of_pure ran
      exact ⟨fits₁, ticked rfl⟩
  | unary op =>
    cases operands with
    | nil => cases ran
    | cons operand more =>
      obtain ⟨rfl, rfl⟩ := of_pure ran
      exact ⟨fits₁, ticked rfl⟩
  | _ => exact compound _ _ rfl (fun _ => rfl) ran ticked

theorem tokens_carries (shows : Shows host other view) (serves : Serves other view p depth calls)
    (carries : ∀ k i, Carries other view p depth (inner k) [.instruction i k []]
      (fun values => [.instruction i 0 values.reverse])) (n : Nat) (operands : List Value) :
    Carries other view p depth (tokens host p calls inner n operands) [.expression n operands]
      (fun ops => [.expression 0 ops]) := by
  induction n generalizing operands with
  | zero => exact .pure rfl
  | succ n ih => exact (token_carries shows serves carries).bind ih

theorem parts_carries {one : Eval World Value}
    (carries : ∀ i n values, Carries other view p depth one [.instruction i (n + 1) values]
      (fun v => [.instruction i n (v :: values)])) (i : Instruction) (n : Nat)
      (values : List Value) :
    Carries other view p depth (parts one n) [.instruction i n values]
      (fun vs => [.instruction i 0 (vs.reverse ++ values)]) := by
  induction n generalizing values with
  | zero => exact .pure rfl
  | succ n ih =>
    refine (carries i n values).bind fun v => (ih (v :: values)).bind fun vs => .pure ?_
    simp

theorem number_carries :
    Carries other view p depth (reading (Cursor.number p.words)) [.instruction i (n + 1) values]
      (fun count => [.expression count [], .instruction i n values]) := by
  intro s s' count read c rest deep low fits
  refine ⟨reading_fits read fits, tick_machine low ?_⟩
  change (Machine.read (Cursor.number p.words) >>= fun count => Machine.push (.expression count []))
    (s.machine view c (.instruction i n values :: rest)) = _
  rw [bind_ok _ (read_machine (.of_onward Cursor.number_onward) read)]
  rfl

theorem close_carries : Carries other view p depth (pure (operands.headD .zero))
      [.expression 0 operands, .instruction i n values]
      (fun v => [.instruction i n (v :: values)]) := by
  intro s s' v ran c rest deep low fits
  obtain ⟨rfl, rfl⟩ := of_pure ran
  refine ⟨fits, tick_machine ?_ (Machine.advance_close rfl)⟩
  change c.base ≤ (Work.instruction i n values :: rest).length
  rw [List.length_cons]
  omega

theorem Carries.above {before : List Work} {after : α → List Work}
    (carries : Carries other view p depth x before after) (below : List Work) :
    Carries other view p depth x (before ++ below) (fun a => after a ++ below) := by
  intro s s' a ran c rest deep low fits
  rw [List.append_assoc, List.append_assoc]
  refine carries ran deep ?_ fits
  rw [List.length_append]
  omega

theorem expression_carries (shows : Shows host other view)
    (serves : Serves other view p depth calls) (nesting : Nat) (i : Instruction) (n : Nat)
    (values : List Value) :
    Carries other view p depth (expression host p calls nesting) [.instruction i (n + 1) values]
      (fun v => [.instruction i n (v :: values)]) := by
  induction nesting generalizing i n values with
  | zero =>
    intro s s' v ran
    cases ran
  | succ nesting ih =>
    have inner : ∀ k i, Carries other view p depth (parts (expression host p calls nesting) k)
        [.instruction i k []] (fun values => [.instruction i 0 values.reverse]) := by
      intro k i
      simpa using parts_carries ih i k []
    exact number_carries.bind fun count =>
      ((tokens_carries shows serves inner count []).above [.instruction i n values]).bind
        fun _ => close_carries

end Expressions

end Recursion

end Scriptlet
