import Mathlib
import Scriptlet.Proofs.Machine.Simulation

/-!
Statements, calls and whole programs. A call leaves the machine at the start of the function with
the caller's work below, and the return finds that work again: the value goes to the expression
that waits for it, or becomes the result. So a program that recursive evaluation completes is
completed by the machine, with the same result, the same globals and the same calls of the host.
-/
namespace Scriptlet

open Actions

namespace Recursion

variable {World W : Type} {host : Host World} {other : Host W}
  {view : World → List (String × List Value) → W} {p : Program} {depth : Nat} {c : Context}
  {s s' : State World} {rest : List Work} {calls : Calls World} {r : Option Value}
  {work : List Work} {v : Value} {nesting fuel : Nat}

variable (other view p c s' rest) in
/-- Where a machine gets to: the next statement, or wherever leaving with the value returned
takes it. -/
def Lands (m : Machine W) : Option Value → Prop
  | none => Machine.Reaches other p m (s'.machine view c rest)
  | some v => ∀ m', Machine.leave other v (s'.machine view c rest) = .ok () m' →
      Machine.Reaches other p m m'

theorem Lands.after {m m' : Machine W} (first : Machine.Reaches other p m m')
    (lands : Lands other view p c s' rest m' r) : Lands other view p c s' rest m r := by
  cases r with
  | none => exact first.trans lands
  | some v => exact fun m'' left => first.trans (lands m'' left)

theorem jump_machine {target : Nat} (jumped : jump p target s = some ((), s')) :
    target ≤ p.words.size ∧ (s.Fits c → s'.Fits c) ∧
      (s.machine view c work).resume target work = s'.machine view c work := by
  rw [jump] at jumped
  by_cases inside : target ≤ p.words.size
  · rw [if_pos inside] at jumped
    cases jumped
    refine ⟨inside, fits_of_slots rfl rfl, ?_⟩
    cases c <;> rfl
  · rw [if_neg inside] at jumped
    cases jumped

theorem store_machine {a : Address} (fits : s.Fits c) (stored : store a v s = some ((), s')) :
    s'.Fits c ∧ (∃ old, (s.machine view c work).value? a = some old) ∧
        (s.machine view c work).setSlot a v = s'.machine view c work := by
  obtain ⟨old, t, loaded, modified⟩ := of_bind stored
  obtain ⟨rfl, found⟩ : t = s ∧ (s.machine view c work).value? a = some old :=
    load_machine fits loaded
  cases modified
  exact ⟨setSlot_fits fits a v, ⟨old, found⟩, setSlot_machine a v⟩

theorem execute_lands (shows : Shows host other view) (serves : Serves other view p depth calls)
    {i : Instruction} {values : List Value} (legal : i.Legal) (kind : i.op.isStatement = true)
    (ran : execute host p calls i values s = some (r, s')) (deep : c.depth = depth)
    (level : rest.length = c.base) (fits : s.Fits c) : s'.Fits c ∧
      Lands other view p c s' rest (s.machine view c (.instruction i 0 values.reverse :: rest))
        r := by
  have done : ∀ {m : Machine W},
      Machine.complete other p i values.reverse (s.machine view c rest) = .ok () m →
        Machine.Reaches other p (s.machine view c (.instruction i 0 values.reverse :: rest)) m :=
    fun completed => tick_machine (Nat.le_of_eq level.symm) (complete_machine.trans completed)
  -- Instructions that could not have been read are not among the cases.
  cases legal with
  | nop =>
    obtain ⟨rfl, rfl⟩ := of_pure ran
    exact ⟨fits, done rfl⟩
  | callStatement ip place k =>
    rw [Machine.complete, List.reverse_reverse] at done
    rw [execute] at ran
    cases found : p.functions[place]? with
    | none =>
      rw [found] at ran
      obtain ⟨v, t, called, _⟩ := of_bind ran
      rw [call, found] at called
      cases called
    | some callee =>
      rw [found] at ran
      cases callee with
      | user f =>
        obtain ⟨v, t, called, ran⟩ := of_bind ran
        cases ran
        obtain ⟨fits', m, entered, comes⟩ := serves.ignored called deep level fits
        exact ⟨fits_of_slots rfl rfl fits',
          (done ((Machine.call_user found).trans entered)).trans comes⟩
      | native f =>
        obtain ⟨v, t, called, ran⟩ := of_bind ran
        rw [call, found] at called
        cases called
        cases ran
        exact ⟨fits, done (Machine.call_native found)⟩
      | host name arity =>
        obtain ⟨v, t, called, ran⟩ := of_bind ran
        rw [call, found] at called
        cases ran
        obtain ⟨asked, fits'⟩ := ask_machine shows found called
        exact ⟨fits' fits, done asked⟩
  | returnValue =>
    obtain ⟨rfl, rfl⟩ := of_pure ran
    refine ⟨fits, fun m' left => done ?_⟩
    rw [Machine.complete, headD_reverse]
    exact left
  | jump ip target k =>
    obtain ⟨_, t, jumped, ran⟩ := of_bind ran
    cases ran
    obtain ⟨inside, fits', same⟩ := jump_machine jumped
    exact ⟨fits' fits, done ((Machine.complete_jump inside).trans (same ▸ rfl))⟩
  | jumpIfFalse ip target k =>
    rw [Machine.complete, headD_reverse] at done
    rw [execute] at ran
    cases truth : (values.getLastD .zero).isTrue with
    | true =>
      rw [truth] at ran done
      cases ran
      exact ⟨fits, done rfl⟩
    | false =>
      rw [truth] at ran done
      obtain ⟨_, t, jumped, ran⟩ := of_bind ran
      cases ran
      obtain ⟨inside, fits', same⟩ := jump_machine jumped
      exact ⟨fits' fits, done ((Machine.jump_ok inside).trans (same ▸ rfl))⟩
  | assign ip slot k =>
    obtain ⟨_, t, stored, ran⟩ := of_bind ran
    cases ran
    obtain ⟨fits', ⟨old, found⟩, same⟩ := store_machine fits stored
    refine ⟨fits', done ?_⟩
    rw [Machine.complete_assign found, headD_reverse, same]
  | assignElement ip slot k | assignPath ip slot k =>
    obtain ⟨old, t, loaded, changed⟩ := of_bind ran
    obtain ⟨rfl, found⟩ : t = s ∧ (s.machine view c rest).value? slot = some old :=
      load_machine fits loaded
    obtain ⟨_, u, stored, last⟩ := of_bind changed
    cases last
    obtain ⟨fits', _, same⟩ := store_machine fits stored
    refine ⟨fits', done ?_⟩
    rw [Machine.complete_assignPath found (by simp), headD_reverse, tail_reverse, same]
  | _ => cases kind

theorem opcode_inside {op : Opcode}
    (read : reading (.of (Cursor.opcode p.words)) s = some (op, s')) :
    s.ip < p.words.size ∧ (s.machine view c work).cursor.atEnd p.words = false := by
  have inside : s.ip < p.words.size := by
    obtain ⟨_, found, _⟩ := of_reading read
    obtain ⟨far, inside⟩ : s.ip + 1 ≤ _ ∧ _ := (Cursor.opcode_onward.of_ok found).2.2
    dsimp only at inside
    omega
  refine ⟨inside, ?_⟩
  rw [Cursor.atEnd]
  exact decide_eq_false (Nat.not_le.mpr inside)

section

variable (shows : Shows host other view)
include shows

theorem statement_lands (serves : Serves other view p depth calls)
    (ran : statement host p calls nesting s = some (r, s'))
    (deep : c.depth = depth) (level : rest.length = c.base) (fits : s.Fits c) :
    s'.Fits c ∧ Lands other view p c s' rest (s.machine view c rest) r := by
  obtain ⟨_, _, got, ran⟩ := of_bind ran
  cases got
  obtain ⟨op, s₁, read, ran⟩ := of_bind ran
  cases kind : op.isStatement with
  | false =>
    rw [kind] at ran
    cases ran
  | true =>
    rw [kind] at ran
    obtain ⟨found, s₂, taken, ran⟩ := of_bind ran
    cases found with
    | none => cases ran
    | some i =>
      obtain ⟨values, s₃, evaluated, ran⟩ := of_bind ran
      obtain ⟨awaited, legal, same⟩ := await_machine taken
      have fits₂ := reading_fits taken (reading_fits read fits)
      have began : Machine.Reaches other p (s.machine view c rest)
          (s₂.machine view c (.instruction i i.expressions [] :: rest)) := by
        refine .tick (.begin_ rfl rfl (machine_boundary level) (opcode_inside read).2 ?_)
        rw [Machine.beginStatement, get_bind, bind_ok _ (opcode_machine read)]
        simp only [kind]
        exact awaited
      obtain ⟨fits₃, inside⟩ := parts_carries (expression_carries shows serves nesting) i
        i.expressions [] evaluated deep (Nat.le_of_eq level.symm) fits₂
      simp only [List.append_nil] at inside
      obtain ⟨fits', lands⟩ := execute_lands shows serves legal (same ▸ kind) ran deep level fits₃
      exact ⟨fits', .after began (.after inside lands)⟩

theorem body_lands (serves : Serves other view p depth calls)
    {n : Nat} (ran : body host p calls nesting n s = some (v, s'))
    (deep : c.depth = depth) (level : rest.length = c.base) (fits : s.Fits c) :
    s'.Fits c ∧ Lands other view p c s' rest (s.machine view c rest) (some v) := by
  induction n generalizing s with
  | zero => cases ran
  | succ n ih =>
    obtain ⟨r, t, first, ran⟩ := of_bind ran
    obtain ⟨fits', lands⟩ := statement_lands shows serves first deep level fits
    cases r with
    | some w =>
      obtain ⟨rfl, rfl⟩ := of_pure ran
      exact ⟨fits', lands⟩
    | none =>
      obtain ⟨fits'', more⟩ := ih ran fits'
      exact ⟨fits'', .after lands more⟩

theorem enter_returns {levels : Nat}
    (serves : Serves other view p (depth + 1) (enter host p fuel levels))
    (room : depth < Machine.maxDepth) {f : UserFunction} {arguments : List Value}
    (ran : enter host p fuel (levels + 1) f arguments s = some (v, s')) (deep : c.depth = depth)
    (fits : s.Fits c) : s'.Fits c ∧ ∃ m,
      Machine.enter p f arguments (s.machine view c work) = .ok () m ∧ ∀ m',
        (if (s'.machine view c work).atBoundary then
            .ok () { s'.machine view c work with result := v }
          else Machine.deliver v (s'.machine view c work)) = .ok () m' →
        Machine.Reaches other p m m' := by
  rw [enter] at ran
  by_cases inside : f.ip.toNat ≤ p.words.size
  · simp only [inside, ↓reduceIte] at ran
    obtain ⟨⟨w, t⟩, bodied, back⟩ := Option.bind_eq_some_iff.mp ran
    cases back
    refine ⟨fits_of_slots rfl rfl fits, _, Machine.enter_ok ?_ inside, ?_⟩
    · rw [machine_depth, deep]
      exact room
    · intro m' returned
      have deeper : (Context.call work.length (c.frames s) (s.ip :: c.saved)).depth =
          depth + 1 := by
        rw [Context.depth, ← deep]
        cases c <;> rfl
      obtain ⟨_, lands⟩ := body_lands shows serves bodied deeper rfl trivial
      refine lands m' ?_
      rw [Machine.leave_call w rfl rfl]
      cases c <;> exact returned
  · simp only [inside, ↓reduceIte] at ran
    cases ran

theorem enter_serves (fuel levels : Nat)
    (room : depth + levels = Machine.maxDepth) :
    Serves other view p depth (enter host p fuel levels) := by
  induction levels generalizing depth with
  | zero =>
    constructor
    · intro f arguments s s' v ran
      cases ran
    · intro f arguments s s' v ran
      cases ran
  | succ levels ih =>
    have serves := ih (show depth + 1 + levels = Machine.maxDepth by omega)
    constructor
    · intro f arguments s s' v ran c n operands rest deep low fits
      obtain ⟨fits', m, entered, returns⟩ := enter_returns shows serves (by omega) ran deep fits
      refine ⟨fits', m, entered, returns _ ?_⟩
      rw [machine_waits (by rw [List.length_cons]; omega)]
      rfl
    · intro f arguments s s' v ran c rest deep level fits
      obtain ⟨fits', m, entered, returns⟩ := enter_returns shows serves (by omega) ran deep fits
      refine ⟨fits', m, entered, returns _ ?_⟩
      rw [machine_boundary level]
      cases c <;> rfl

def State.halted (view : World → List (String × List Value) → W) (s : State World) : Machine W :=
  { s.machine view .outermost [] with halted := true }

theorem halt_machine : Machine.halt other (s.machine view .outermost []) =
      .ok () (State.halted view { s with world := host.onEnd s.world }) := by
  change EStateM.Result.ok () { s.machine view .outermost [] with
    halted := true, world := other.onEnd (view s.world s.asked) } = _
  rw [shows.onEnd]
  rfl

theorem outermost_halts (serves : Serves other view p 0 calls)
    {n : Nat} (ran : outermost host p calls nesting n s = some ((), s'))
    (fits : s.Fits .outermost) :
    Machine.Reaches other p (s.machine view .outermost [])
      (State.halted view { s' with world := host.onEnd s'.world }) := by
  induction n generalizing s with
  | zero => cases ran
  | succ n ih =>
    rw [outermost] at ran
    by_cases inside : s.ip < p.words.size
    · have ran : (if s.ip < p.words.size then _ else _ : Eval World Unit) s = _ := ran
      rw [if_pos inside] at ran
      obtain ⟨r, t, first, ran⟩ := of_bind ran
      obtain ⟨fits', lands⟩ : t.Fits .outermost ∧
          Lands other view p .outermost t [] (s.machine view .outermost []) r :=
        statement_lands shows serves first rfl rfl fits
      cases r with
      | none => exact Machine.Reaches.trans lands (ih ran fits')
      | some v =>
        cases ran
        exact lands _ (halt_machine shows)
    · have beyond : (if s.ip < p.words.size then _ else pure () : Eval World Unit) s =
          some ((), s') := ran
      rw [if_neg inside] at beyond
      obtain ⟨_, rfl⟩ := of_pure beyond
      refine .tick (.stop rfl rfl (machine_boundary rfl) ?_ (halt_machine shows))
      exact decide_eq_true (Nat.not_lt.mp inside)

theorem runFor_of_run {world : World} {w : W}
    (begins : other.onStart w = view (host.onStart world) [])
    (completes : run host p fuel world = some s) :
    ∃ n, Machine.runFor other p n (Machine.init p w) =
      .ok (some s.result) (State.halted view s) := by
  obtain ⟨⟨_, t⟩, ran, last⟩ := Option.bind_eq_some_iff.mp completes
  cases last
  have serves : Serves other view p 0 (enter host p fuel Machine.maxDepth) :=
    enter_serves shows fuel Machine.maxDepth (Nat.zero_add _)
  obtain ⟨k, goes⟩ := outermost_halts shows serves ran ⟨rfl, rfl⟩
  obtain ⟨n, done⟩ := Machine.runFor_of_goes goes rfl
  cases n with
  | zero => cases done
  | succ n =>
    refine ⟨n + 1, ?_⟩
    rw [Machine.runFor_announced n rfl]
    have announced : (Machine.init p w).announced other = State.machine view
        ⟨0, #[], #[], p.globals, .zero, host.onStart world, []⟩ .outermost [] := by
      rw [Machine.announced]
      simp only [Machine.init]
      rw [begins]
      rfl
    rw [announced]
    exact done

end

def noting (host : Host World) : Host (World × List (String × List Value)) where
  onStart w := (host.onStart w.1, w.2)
  onEnd w := (host.onEnd w.1, w.2)
  call name arguments w :=
    let (answer, world) := host.call name arguments w.1
    (answer, world, w.2 ++ [(name, arguments)])

theorem shows_itself : Shows host host (fun world _ => world) :=
  ⟨fun _ _ => rfl, fun _ _ _ _ => rfl⟩

theorem shows_noting : Shows host (noting host) Prod.mk :=
  ⟨fun _ _ => rfl, fun _ _ _ _ => rfl⟩

/-- Whatever recursive evaluation completes the machine completes, with the same result, the same
globals, the same effect on the host and the same calls of it in the same order. -/
theorem run_completes {fuel : Nat} {world : World} (completes : run host p fuel world = some s) :
    (∃ n m, Machine.runFor host p n (Machine.init p world) = .ok (some s.result) m ∧
      m.globals = s.globals ∧ m.world = s.world) ∧
    (∃ n m, Machine.runFor (noting host) p n (Machine.init p (world, [])) = .ok (some s.result) m ∧
      m.globals = s.globals ∧ m.world = (s.world, s.asked)) := by
  obtain ⟨n, ran⟩ := runFor_of_run shows_itself rfl completes
  have empty : (noting host).onStart (world, []) = (host.onStart world, []) := rfl
  obtain ⟨k, noted⟩ := runFor_of_run shows_noting empty completes
  exact ⟨⟨n, _, ran, rfl, rfl⟩, ⟨k, _, noted, rfl, rfl⟩⟩

def echo : Host Nat := ⟨id, id, fun _ arguments n => (.ok (arguments.headD .zero), n + 1)⟩

/-- The main function puts the sum of two squares in a global. One of the numbers is asked of the
host inside the call that squares it. -/
def squaresProgram : Program where
  words := #[1, 0, 0, 2, 1, 7, 0,
    4, 0x10000000, 3, 12, 1, 1, 1, 12, 2, 1, 1, 7, 0, 12, 1, 1, 1, 7, 1, 13, 2, 1, 8, 0x10000000,
    2, 3, 8, 0x40000000, 8, 0x40000000, 15]
  functions := #[.user ⟨"Main", 7, 0, 0⟩, .user ⟨"Square", 31, 0, 1⟩, .host "ask" ⟨none, none⟩]
  globals := #[.zero]
  literals := #[.atom (.integer 2), .atom (.integer 3)]
  lines := none

theorem run_completes_squares :
    (∃ n m, Machine.runFor (noting echo) squaresProgram n (Machine.init squaresProgram (0, [])) =
        .ok (some (.atom (.integer 13))) m ∧
      m.globals = #[.atom (.integer 13)] ∧ m.world = (1, [("ask", [.atom (.integer 2)])])) := by
  have completes : run echo squaresProgram 5 0 = some {
      ip := 7, parameters := #[], locals := #[], globals := #[.atom (.integer 13)]
      result := .atom (.integer 13), world := 1, asked := [("ask", [.atom (.integer 2)])] } := by
    cbv
  exact (run_completes completes).2

end Recursion

end Scriptlet
