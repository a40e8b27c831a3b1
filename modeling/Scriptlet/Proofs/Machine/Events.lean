import Scriptlet.Proofs.Machine.Termination

/-!
What a host gets to hear. It is told once that the program starts, before anything else; then it is
asked for the values of its functions; and it is told once that the program ends, which is when the
machine halts. A halted machine does nothing more, whatever is called from outside.

Only three actions have to do with the host: the announcement, the questions and the end. All others
neither look at what concerns the host nor touch it, so they act alike on machines that differ in
it.
-/
namespace Scriptlet

open Actions

inductive Event where
  | started
  | asked (name : String) (arguments : List Value)
  | ended
  deriving Repr

def Event.question? : Event → Option (String × Nat)
  | .asked name arguments => some (name, arguments.length)
  | _ => none

def Event.IsQuestion (p : Program) : Event → Prop
  | .asked name _ => ∃ arity, .host name arity ∈ p.functions
  | _ => False

/-- The host with a record of what it hears, whatever its answers are. -/
def Host.watched {World : Type} (host : Host World) : Host (World × List Event) where
  onStart w := (host.onStart w.1, w.2 ++ [.started])
  onEnd w := (host.onEnd w.1, w.2 ++ [.ended])
  call name arguments w :=
    ((host.call name arguments w.1).1, (host.call name arguments w.1).2,
      w.2 ++ [.asked name arguments])

namespace Machine

variable {World W V α β : Type} {host : Host World} {p : Program} {values : List Value}
  {x : Action W α} {rest : List Work} {y : Action V α}

/-- The machine with something else in all that concerns the host. -/
def retold (started halted : Bool) (world : V) (m : Machine W) : Machine V :=
  { m with started, halted, world }

def mapWorld (f : W → V) (m : Machine W) : Machine V := m.retold m.started m.halted (f m.world)

def onEnding (f : Machine W → Machine V) :
    EStateM.Result Fault (Machine W) α → EStateM.Result Fault (Machine V) α
  | .ok a m => .ok a (f m)
  | .error e m => .error e (f m)

theorem ending_onEnding (f : Machine W → Machine V) (r : EStateM.Result Fault (Machine W) α) :
    ending (onEnding f r) = f (ending r) := by
  cases r <;> rfl

def Silent (x : (W : Type) → Action W α) : Prop :=
  ∀ ⦃W V : Type⦄ (m : Machine W) (started halted : Bool) (world : V),
    x V (m.retold started halted world) = onEnding (retold started halted world) (x W m)

namespace Silent

variable {x : (W : Type) → Action W α} {f : α → (W : Type) → Action W β}

theorem bind (first : Silent x) (rest : ∀ a, Silent (f a)) : Silent fun W => x W >>= (f · W) := by
  intro W V m started halted world
  change (x V >>= (f · V)) _ = onEnding _ ((x W >>= (f · W)) m)
  rw [bind_apply, bind_apply, first]
  cases x W m with
  | ok a m => exact rest a m started halted world
  | error e m => rfl

theorem pure (a : α) : Silent fun _ => Pure.pure a := by
  intro W V m started halted world
  rfl

theorem throw (f : Fault) : Silent (α := α) fun _ => MonadExcept.throw f := by
  intro W V m started halted world
  rfl

end Silent

theorem read_silent (r : Cursor.Reading α) : Silent fun _ => read r := by
  intro W V m started halted world
  simp only [read, retold]
  cases r m.cursor <;> rfl

theorem push_silent (w : Work) : Silent fun _ => push w := by
  intro W V m started halted world
  rfl

theorem deliver_silent (v : Value) : Silent fun _ => deliver v := by
  intro W V m started halted world
  obtain ⟨cursor, frames, globals, work, result, _, _, _⟩ := m
  cases work with
  | nil => rfl
  | cons w rest => cases w <;> rfl

theorem takeOperand_silent (ip : Nat) : Silent fun _ => takeOperand ip := by
  intro W V m started halted world
  obtain ⟨cursor, frames, globals, work, result, _, _, _⟩ := m
  rcases work with _ | ⟨_ | ⟨n, _ | ⟨v, operands⟩⟩, rest⟩ <;> rfl

theorem putOperand_silent (ip : Nat) (v : Value) : Silent fun _ => putOperand ip v := by
  intro W V m started halted world
  obtain ⟨cursor, frames, globals, work, result, _, _, _⟩ := m
  rcases work with _ | ⟨_ | _, rest⟩ <;> rfl

theorem frame_silent : Silent fun _ => frame := by
  intro W V m started halted world
  obtain ⟨cursor, frames, globals, work, result, _, _, _⟩ := m
  cases frames <;> rfl

theorem slots_silent (scope : VariableScope) : Silent fun _ => slots scope := by
  cases scope with
  | globals =>
    intro W V m started halted world
    rfl
  | locals => exact frame_silent.bind fun f => .pure f.locals
  | parameters => exact frame_silent.bind fun f => .pure f.parameters

theorem load_silent (a : Address) : Silent fun _ => load a := by
  refine (slots_silent a.scope).bind fun values => ?_
  cases values[a.index.toNat]? with
  | none => exact .throw _
  | some v => exact .pure v

theorem setSlot_silent (a : Address) (v : Value) : Silent fun _ => modify (setSlot · a v) := by
  intro W V m started halted world
  obtain ⟨cursor, frames, globals, work, result, _, _, _⟩ := m
  obtain ⟨scope, index⟩ := a
  cases scope <;> cases frames <;> rfl

theorem store_silent (a : Address) (v : Value) : Silent fun _ => store a v :=
  (load_silent a).bind fun _ => setSlot_silent a v

theorem enter_silent (f : UserFunction) (arguments : List Value) :
    Silent fun _ => enter p f arguments := by
  intro W V m started halted world
  change enter p f arguments _ = onEnding _ (enter p f arguments m)
  rw [enter, enter, get_bind, get_bind]
  by_cases deep : maxDepth ≤ m.frames.length
  · have deep' : maxDepth ≤ (m.retold started halted world).frames.length := deep
    simp only [deep, deep', ↓reduceIte]
    rfl
  · have shallow : ¬maxDepth ≤ (m.retold started halted world).frames.length := deep
    simp only [deep, shallow, ↓reduceIte]
    rw [modify_bind, modify_bind]
    exact read_silent (.of (Cursor.jump p.words f.ip.toNat))
      { m with frames := Frame.ofCall f arguments m.work.length :: m.frames, cursor :=
        m.cursor.save }
      started halted world

theorem await_silent (op : Opcode) (ip : Nat) : Silent fun _ => await p op ip := by
  refine (read_silent _).bind fun found => ?_
  cases found with
  | none => exact .throw _
  | some i => exact push_silent _

theorem opcode_silent : Silent fun _ => opcode p := read_silent _

theorem Silent.of_ip {f : Nat → (W : Type) → Action W α} (rest : ∀ ip, Silent (f ip)) :
    Silent fun W => get >>= fun m => f m.cursor.ip W := by
  intro W V m started halted world
  exact rest m.cursor.ip m started halted world

theorem awaitUnless_silent (refused : Bool) (f : Fault) (op : Opcode) (ip : Nat) :
    Silent fun _ => (do
      if refused then MonadExcept.throw f
      await p op ip : Action _ Unit) := by
  cases refused with
  | false => exact await_silent op ip
  | true => exact (Silent.throw f).bind fun _ => await_silent op ip

theorem beginStatement_silent : Silent fun _ => beginStatement p := by
  have rest (ip : Nat) (op : Opcode) :=
    @awaitUnless_silent p (!op.isStatement) (.unexpectedOpcode op ip .statement) op ip
  exact .of_ip fun ip => opcode_silent.bind (rest ip)

theorem token_silent : Silent fun _ => token p := by
  intro W V m started halted world
  have same : (m.retold started halted world).cursor.ip = m.cursor.ip := rfl
  have first : opcode p (m.retold started halted world) = onEnding _ (opcode p m) :=
    opcode_silent m started halted world
  change token p _ = onEnding _ (token p m)
  rw [token, token, get_bind, get_bind, bind_apply, bind_apply, same, first]
  generalize m.cursor.ip = ip
  cases opcode p m with
  | error e m => rfl
  | ok op m =>
    cases op with
    | literal =>
      have number : read (Cursor.number p.words) (m.retold started halted world) =
        onEnding _ (read (Cursor.number p.words) m) := read_silent _ m started halted world
      simp only [onEnding]
      rw [bind_apply, bind_apply, number]
      cases read (Cursor.number p.words) m with
      | error e m => rfl
      | ok place m =>
        simp only [onEnding]
        cases p.literals[place]? with
        | none => rfl
        | some v => exact putOperand_silent ip v m started halted world
    | load =>
      exact (read_silent _).bind (fun a => (load_silent a).bind (putOperand_silent ip)) m started
        halted world
    | binary op =>
      exact (takeOperand_silent ip).bind (fun right => (takeOperand_silent ip).bind fun left =>
        putOperand_silent ip (op.apply left right)) m started halted world
    | unary op =>
      exact (takeOperand_silent ip).bind (fun operand => putOperand_silent ip (op.apply operand))
        m started halted world
    | _ => exact awaitUnless_silent _ _ _ ip m started halted world

inductive Concerns (p : Program) (m : Machine W) : Prop where
  | ends {i : Instruction} {values : List Value} {rest : List Work} :
      m.work = .instruction i 0 values :: rest → i.op = .returnValue → m.frames = [] → Concerns p m
  | asks {i : Instruction} {place : Nat} {wanted : Bool} {values : List Value} {rest : List Work}
      {name : String} {arity : Arity} : m.work = .instruction i 0 values :: rest →
      i.callee? = some (place, wanted) → p.functions[place]? = some (.host name arity) →
      Concerns p m

def Alike (m : Machine W) (x : Action W α) (y : Action V α) : Prop :=
  ∀ (started halted : Bool) (world : V),
    y (m.retold started halted world) = onEnding (retold started halted world) (x m)

theorem leave_alike {m : Machine W} {f : Frame} {frames : List Frame} (host : Host W)
    (other : Host V) (v : Value) (active : m.frames = f :: frames) :
    Alike m (leave host v) (leave other v) := by
  intro started halted world
  have active' : (m.retold started halted world).frames = f :: frames := active
  have restore : read (.of Cursor.restore) { m.retold started halted world with frames } =
      onEnding (retold started halted world) (read (.of Cursor.restore) { m with frames }) :=
    read_silent _ { m with frames } started halted world
  rw [leave, leave, get_bind, get_bind, active, active']
  simp only
  rw [modify_bind, modify_bind, bind_apply, bind_apply, restore]
  cases read (.of Cursor.restore) { m with frames } with
  | error e m => rfl
  | ok u m =>
    simp only [onEnding]
    rw [get_bind, get_bind]
    have same : (m.retold started halted world).atBoundary = m.atBoundary := rfl
    rw [same]
    split
    · rfl
    · exact deliver_silent v m started halted world

theorem call_alike {m : Machine W} {place : Nat} (host : Host W) (other : Host V)
    (arguments : List Value) (wanted : Bool)
    (known : ∀ name arity, p.functions[place]? ≠ some (.host name arity)) :
    Alike m (call host p place arguments wanted) (call other p place arguments wanted) := by
  intro started halted world
  cases found : p.functions[place]? with
  | none =>
    rw [call, call, found]
    rfl
  | some callee =>
    cases callee with
    | user f =>
      rw [call_user found, call_user found]
      exact enter_silent f arguments m started halted world
    | host name arity => exact absurd found (known name arity)
    | native f =>
      rw [call_native found, call_native found]
      cases wanted with
      | false => rfl
      | true => exact deliver_silent (f.apply arguments) m started halted world

theorem complete_alike {m : Machine W} {i : Instruction} (host : Host W) (other : Host V)
    (inside : i.op = .returnValue → m.frames ≠ [])
    (known : ∀ place wanted name arity, i.callee? = some (place, wanted) →
      p.functions[place]? ≠ some (.host name arity)) :
    Alike m (complete host p i values) (complete other p i values) := by
  by_cases legal : i.Legal
  · cases legal with
    | nop =>
      intro started halted world
      rfl
    | callStatement | call =>
      exact call_alike host other _ _ fun name arity => known _ _ name arity rfl
    | returnValue =>
      cases active : m.frames with
      | nil => exact absurd active (inside rfl)
      | cons f frames => exact leave_alike host other _ active
    | jump => exact read_silent _ m
    | jumpIfFalse _ target _ =>
      intro started halted world
      cases taken : (values.headD .zero).isTrue with
      | true =>
        simp only [complete, taken, Bool.not_true, Bool.false_eq_true, ↓reduceIte]
        rfl
      | false =>
        simp only [complete, taken, Bool.not_false, ↓reduceIte]
        exact read_silent (.of (Cursor.jump p.words target)) m started halted world
    | assign => exact store_silent _ _ m
    | assignElement _ slot _ | assignPath _ slot _ =>
      exact (load_silent slot).bind (fun old => setSlot_silent slot
        (old.setPath (values.tail.reverse.map indexOf) (values.headD .zero))) m
    | createList | initializeList => exact deliver_silent _ m
    | element _ slot _ | elementPath _ slot _ =>
      exact (load_silent slot).bind
        (fun v => deliver_silent (v.getPath (values.reverse.map indexOf))) m
  · intro started halted world
    rw [complete_illegal legal, complete_illegal legal]
    rfl

theorem advance_alike {m : Machine W} (host : Host W) (other : Host V) (apart : ¬Concerns p m) :
    Alike m (advance host p) (advance other p) := by
  intro started halted world
  cases working : m.work with
  | nil =>
    have working' : (m.retold started halted world).work = [] := working
    rw [advance, advance, get_bind, get_bind, working, working']
    rfl
  | cons w rest =>
    have working' : (m.retold started halted world).work = w :: rest := working
    rcases w with ⟨i, _ | n, values⟩ | ⟨_ | n, operands⟩
    · rw [advance_complete working, advance_complete working']
      refine complete_alike (m := m.resume m.cursor.ip rest) host other ?_ ?_ started halted world
      · exact fun returns idle => apart (.ends working returns idle)
      · exact fun place wanted name arity calling found => apart (.asks working calling found)
    · rw [advance, advance, get_bind, get_bind, working, working']
      exact (read_silent _).bind (fun count => push_silent (.expression count []))
        { m with work := .instruction i n values :: rest } started halted world
    · rw [advance, advance, get_bind, get_bind, working, working']
      exact deliver_silent (operands.headD .zero) { m with work := rest } started halted world
    · rw [advance_expression working, advance_expression working']
      exact token_silent (m.resume m.cursor.ip (.expression n operands :: rest)) started
        halted world

theorem Alike.kept {m : Machine W} (alike : Alike m x x) :
    (ending (x m)).started = m.started ∧ (ending (x m)).halted = m.halted ∧
      (ending (x m)).world = m.world := by
  have same := alike m.started m.halted m.world
  have itself : m.retold m.started m.halted m.world = m := rfl
  rw [itself] at same
  rw [same, ending_onEnding]
  exact ⟨rfl, rfl, rfl⟩

def settleAnswer (name : String) (wanted : Bool) : Except String Value → Action W Unit
  | .ok v => if wanted then deliver v else pure ()
  | .error reason => throw (.host name reason)

theorem settleAnswer_silent (name : String) (wanted : Bool) (answer : Except String Value) :
    Silent fun _ => settleAnswer name wanted answer := by
  cases answer with
  | error reason => exact .throw _
  | ok v =>
    cases wanted with
    | true => exact deliver_silent v
    | false => exact .pure ()

theorem advance_asks {m : Machine W} {i : Instruction} {place : Nat} {wanted : Bool} {name : String}
    {arity : Arity} (host : Host W) (working : m.work = .instruction i 0 values :: rest)
    (calling : i.callee? = some (place, wanted))
    (found : p.functions[place]? = some (.host name arity)) :
    advance host p m = settleAnswer name wanted (host.call name values.reverse m.world).1
      { m.resume m.cursor.ip rest with world := (host.call name values.reverse m.world).2 } := by
  rw [advance_complete working, complete_callee calling, call_host found]
  simp only [resume]
  rcases host.call name values.reverse m.world with ⟨answer, world⟩
  cases answer with
  | error reason => rfl
  | ok v => cases wanted <;> rfl

theorem advance_ends {m : Machine W} {i : Instruction} (host : Host W)
    (working : m.work = .instruction i 0 values :: rest) (returns : i.op = .returnValue)
    (idle : m.frames = []) :
    advance host p m = .ok ()
      { m.resume m.cursor.ip rest with halted := true, world := host.onEnd m.world } := by
  rw [advance_complete working, complete_return returns]
  exact leave_last _ idle

/-- What the other host does to its world, the host does to the view of it. -/
structure Follows (view : W → V) (other : Host W) (host : Host V) : Prop where
  onStart : ∀ w, host.onStart (view w) = view (other.onStart w)
  onEnd : ∀ w, host.onEnd (view w) = view (other.onEnd w)
  call : ∀ name arguments w, host.call name arguments (view w) =
    ((other.call name arguments w).1, view (other.call name arguments w).2)

theorem watched_follows (host : Host World) : Follows (·.1) host.watched host :=
  ⟨fun _ => rfl, fun _ => rfl, fun _ _ _ => rfl⟩

def Viewed (view : W → V) (x : Action W α) (y : Action V α) : Prop :=
  ∀ m, y (m.mapWorld view) = onEnding (mapWorld view) (x m)

variable {view : W → V} {other : Host W} {host' : Host V}

theorem Viewed.bind {f : α → Action W β} {g : α → Action V β} (first : Viewed view x y)
    (rest : ∀ a, Viewed view (f a) (g a)) : Viewed view (x >>= f) (y >>= g) := by
  intro m
  rw [bind_apply, bind_apply, first]
  cases x m with
  | ok a m => exact rest a m
  | error e m => rfl

theorem viewed_of_alike {m : Machine W} (alike : Alike m x y) (itself : Alike m x x) :
    y (m.mapWorld view) = onEnding (mapWorld view) (x m) := by
  have same : retold m.started m.halted (view m.world) (ending (x m)) =
      (ending (x m)).mapWorld view := by
    obtain ⟨started, halted, world⟩ := itself.kept
    rw [← started, ← halted, ← world]
    rfl
  rw [mapWorld, alike]
  cases ran : x m with
  | ok | error => exact congrArg _ (ran ▸ same)

theorem Silent.viewed {x : (W : Type) → Action W α} (silent : Silent x) :
    Viewed view (x W) (x V) := fun m => viewed_of_alike (silent m) (silent m)

section

variable (follows : Follows view other host')
include follows

theorem advance_viewed : Viewed view (advance other p) (advance host' p) := by
  intro m
  by_cases concerns : Concerns p m
  · cases concerns with
    | ends working returns idle =>
      have working' : (m.mapWorld view).work = _ := working
      rw [advance_ends other working returns idle, advance_ends host' working' returns idle]
      change EStateM.Result.ok () _ = EStateM.Result.ok () _
      rw [mapWorld, retold, follows.onEnd]
      rfl
    | @asks i place wanted values rest name arity working calling found =>
      have working' : (m.mapWorld view).work = _ := working
      rw [advance_asks other working calling found, advance_asks host' working' calling found]
      change settleAnswer name wanted (host'.call name values.reverse (view m.world)).1
        { (m.mapWorld view).resume _ rest with
          world := (host'.call name values.reverse (view m.world)).2 } = _
      rw [follows.call]
      exact (settleAnswer_silent name wanted _).viewed { m.resume m.cursor.ip rest with
        world := (other.call name values.reverse m.world).2 }
  · exact viewed_of_alike (advance_alike other host' concerns) (advance_alike other other concerns)

theorem workOff_viewed (depth fuel : Nat) :
    Viewed view (workOff other p depth fuel) (workOff host' p depth fuel) := by
  induction fuel with
  | zero => exact fun m => rfl
  | succ fuel ih =>
    intro m
    by_cases working : Working depth m
    · have working' : Working depth (m.mapWorld view) := working
      rw [workOff_working working, workOff_working working']
      exact (advance_viewed follows).bind (fun _ => ih) m
    · have idle : ¬Working depth (m.mapWorld view) := working
      rw [workOff_idle working, workOff_idle idle]
      rfl

theorem announced_viewed (m : Machine W) :
    (m.mapWorld view).announced host' = (m.announced other).mapWorld view := by
  unfold announced
  change (if m.started = true then _ else _) = _
  split
  · rfl
  · change ({ m with started := true, world := host'.onStart (view m.world) } : Machine V) = _
    rw [follows.onStart]
    rfl

theorem halt_viewed : Viewed view (halt other) (halt host') := by
  intro m
  change EStateM.Result.ok () { m with halted := true, world := host'.onEnd (view m.world) } = _
  rw [follows.onEnd]
  rfl

theorem goOn_viewed : Viewed view (goOn other p) (goOn host' p) := by
  intro m
  rw [goOn, goOn, get_bind, get_bind]
  exact (workOff_viewed follows m.frames.length (m.workLeft p)).bind
    (f := fun _ => do return !(← get).halted) (g := fun _ => do return !(← get).halted)
    (fun _ _ => rfl) m

theorem step_viewed : Viewed view (step other p) (step host' p) := by
  intro m
  cases running : m.halted with
  | true =>
    have halted : (m.mapWorld view).halted = true := running
    rw [step_halted running, step_halted halted]
    rfl
  | false =>
    have runs : (m.mapWorld view).halted = false := running
    rw [step_announced running, step_announced runs, announced_viewed follows]
    generalize m.announced other = m
    have boundary : (m.mapWorld view).atBoundary = m.atBoundary := rfl
    have ending : (m.mapWorld view).cursor = m.cursor := rfl
    rw [boundary, ending]
    split
    · split
      · exact (halt_viewed follows).bind (fun _ _ => rfl) m
      · exact beginStatement_silent.viewed.bind (fun _ => goOn_viewed follows) m
    · exact goOn_viewed follows m

theorem runFor_viewed (n : Nat) : Viewed view (runFor other p n) (runFor host' p n) := by
  induction n with
  | zero => exact fun m => rfl
  | succ n ih =>
    refine (step_viewed follows).bind fun more => ?_
    cases more with
    | true => exact ih
    | false => exact fun m => rfl

end

def heard (m : Machine (World × List Event)) : List Event := m.world.2

/-- Nothing before the start, then questions, and the end if and only if the machine has halted. -/
structure InOrder (p : Program) (m : Machine (World × List Event)) : Prop where
  started : m.halted = true → m.started = true
  heard : ∃ questions, (∀ e ∈ questions, Event.IsQuestion p e) ∧ m.heard =
    if m.started then .started :: questions ++ (if m.halted then [.ended] else []) else []

/-- The second machine comes from the first one, and the host knows of the start. -/
structure Onward (p : Program) (m m' : Machine (World × List Event)) : Prop where
  inOrder : InOrder p m'
  grows : m.heard <+: m'.heard
  started : m'.started = true

variable {m m' m'' : Machine (World × List Event)}

theorem Onward.trans (first : Onward p m m') (second : Onward p m' m'') : Onward p m m'' :=
  ⟨second.inOrder, first.grows.trans second.grows, second.started⟩

section

variable (inOrder : InOrder p m)
include inOrder

theorem Onward.of_same (begun : m.started = true)
    (started : m'.started = m.started) (halted : m'.halted = m.halted)
    (world : m'.world = m.world) :
    Onward p m m' := by
  have same : m'.heard = m.heard := congrArg Prod.snd world
  refine ⟨⟨?_, ?_⟩, ?_, started.trans begun⟩
  · rw [started, halted]
    exact inOrder.started
  · rw [same, started, halted]
    exact inOrder.heard
  · exact same ▸ List.prefix_rfl

theorem Onward.of_kept {x : Action (World × List Event) α}
    (begun : m.started = true) (alike : Alike m x x) : Onward p m (ending (x m)) :=
  .of_same inOrder begun alike.kept.1 alike.kept.2.1 alike.kept.2.2

theorem announced_onward (host : Host World) : Onward p m (m.announced host.watched) := by
  unfold announced
  split
  · rename_i begun
    exact .of_same inOrder begun rfl rfl rfl
  · rename_i silent
    have running : m.halted = false := by
      cases halted : m.halted with
      | false => rfl
      | true => exact absurd (inOrder.started halted) silent
    obtain ⟨questions, -, nothing⟩ := inOrder.heard
    simp only [silent, Bool.false_eq_true, ↓reduceIte] at nothing
    have first : ({ m with started := true, world := host.watched.onStart m.world } :
        Machine (World × List Event)).heard = m.heard ++ [.started] := rfl
    refine ⟨⟨fun _ => rfl, [], by simp, ?_⟩, ?_, rfl⟩
    · rw [first, nothing]
      simp [running]
    · rw [first]
      exact List.prefix_append _ _

theorem onward_of_end (begun : m.started = true) (running : m.halted = false)
    (started : m'.started = m.started) (halted : m'.halted = true)
    (told : m'.heard = m.heard ++ [.ended]) : Onward p m m' := by
  obtain ⟨questions, known, before⟩ := inOrder.heard
  simp only [begun, running, ↓reduceIte, Bool.false_eq_true] at before
  refine ⟨⟨fun _ => started.trans begun, questions, known, ?_⟩, ?_, started.trans begun⟩
  · rw [told, before, started, begun, halted]
    simp
  · rw [told]
    exact List.prefix_append _ _

theorem onward_of_question {e : Event} (begun : m.started = true)
    (running : m.halted = false) (started : m'.started = m.started) (halted : m'.halted = m.halted)
    (told : m'.heard = m.heard ++ [e]) (question : e.IsQuestion p) : Onward p m m' := by
  obtain ⟨questions, known, before⟩ := inOrder.heard
  simp only [begun, running, ↓reduceIte, Bool.false_eq_true] at before
  refine ⟨⟨fun _ => started.trans begun, questions ++ [e], ?_, ?_⟩, ?_, started.trans begun⟩
  · intro e' member
    rcases List.mem_append.mp member with old | new
    · exact known e' old
    · obtain rfl := List.mem_singleton.mp new
      exact question
  · rw [told, before, started, begun, halted, running]
    simp
  · rw [told]
    exact List.prefix_append _ _

theorem advance_onward (begun : m.started = true) (running : m.halted = false)
    (host : Host World) : Onward p m (ending (advance host.watched p m)) := by
  by_cases concerns : Concerns p m
  · cases concerns with
    | ends working returns idle =>
      rw [advance_ends host.watched working returns idle]
      exact onward_of_end inOrder begun running rfl rfl rfl
    | @asks i place wanted values rest name arity working calling found =>
      rw [advance_asks host.watched working calling found]
      have question : Event.IsQuestion p (.asked name values.reverse) :=
        ⟨arity, Array.mem_of_getElem? found⟩
      obtain ⟨started, halted, world⟩ := Alike.kept (settleAnswer_silent name wanted
        (host.watched.call name values.reverse m.world).1
          { m.resume m.cursor.ip rest with
            world := (host.watched.call name values.reverse m.world).2 })
      exact onward_of_question inOrder begun running started halted
        (congrArg Prod.snd world) question
  · exact .of_kept inOrder begun (advance_alike host.watched host.watched concerns)

end

theorem onward_upheld (host : Host World) :
    Upheld host.watched p (Onward p m) fun _ => Onward p m where
  announced := fun onward => onward.trans (announced_onward onward.inOrder host)
  halts := fun onward running =>
    onward.trans (onward_of_end onward.inOrder onward.started running rfl rfl rfl)
  begins := fun onward _ _ => leaves_iff.mpr
    (onward.trans (.of_kept onward.inOrder onward.started (beginStatement_silent _)))
  advances := fun onward running _ => leaves_iff.mpr
    (onward.trans (advance_onward onward.inOrder onward.started running host))

theorem step_leaves (inOrder : InOrder p m) (host : Host World) :
    Leaves (Onward p m) (fun _ => Onward p m) (step host.watched p m) :=
  (onward_upheld host).step_of_announced
    (fun halted => .of_same inOrder (inOrder.started halted) rfl rfl rfl)
    (announced_onward inOrder host)

inductive Request (World : Type) where
  | start (host : Host World)
  | step (host : Host World)
  | run (host : Host World) (more : Nat)

namespace Request

def perform (p : Program) (m : Machine World) : Request World → Machine World
  | .start host => ending (Machine.start host m)
  | .step host => ending (Machine.step host p m)
  | .run host more => ending (runFor host p (more + 1) m)

def watched : Request World → Request (World × List Event)
  | .start host => .start host.watched
  | .step host => .step host.watched
  | .run host more => .run host.watched more

theorem perform_watched (r : Request World) (m : Machine (World × List Event)) :
    r.perform p (m.mapWorld (·.1)) = (r.watched.perform p m).mapWorld (·.1) := by
  cases r with
  | start host => exact announced_viewed (watched_follows host) m
  | step host =>
    rw [perform, step_viewed (watched_follows host), ending_onEnding]
    rfl
  | run host more =>
    rw [perform, runFor_viewed (watched_follows host), ending_onEnding]
    rfl

theorem perform_onward (inOrder : InOrder p m) (r : Request World) :
    Onward p m (r.watched.perform p m) := by
  cases r with
  | start host => exact announced_onward inOrder host
  | step host => exact leaves_iff.mp (step_leaves inOrder host)
  | run host more =>
    exact leaves_iff.mp ((onward_upheld host).runFor_of_step more (step_leaves inOrder host))

theorem perform_halted {m : Machine W} (halted : m.halted = true) (started : m.started = true)
    (r : Request W) : r.perform p m = m := by
  cases r with
  | start host =>
    change m.announced host = m
    simp only [announced, started, ↓reduceIte]
  | step host => rw [perform, step_halted halted, ending]
  | run host more =>
    rw [perform, runFor, bind_ok _ (step_halted halted)]
    rfl

end Request

def performAll (p : Program) (requests : List (Request World)) (m : Machine World) :
    Machine World :=
  requests.foldl (Request.perform p) m

theorem performAll_watched (requests : List (Request World)) (m : Machine (World × List Event)) :
    performAll p requests (m.mapWorld (·.1)) =
      (performAll p (requests.map Request.watched) m).mapWorld (·.1) := by
  induction requests generalizing m with
  | nil => rfl
  | cons r requests ih =>
    rw [performAll, List.foldl_cons, Request.perform_watched]
    exact ih _

theorem performAll_inOrder (inOrder : InOrder p m) (requests : List (Request World)) :
    InOrder p (performAll p (requests.map Request.watched) m) ∧
      (performAll p (requests.map Request.watched) m).started =
      (m.started || !requests.isEmpty) := by
  induction requests generalizing m with
  | nil => simpa [performAll] using inOrder
  | cons r requests ih =>
    have first := r.perform_onward inOrder
    obtain ⟨rest, started⟩ := ih first.inOrder
    refine ⟨rest, ?_⟩
    rw [first.started, Bool.true_or] at started
    rw [List.isEmpty_cons, Bool.not_false, Bool.or_true]
    exact started

theorem goOn_false {host : Host W} {m m' : Machine W} (ran : goOn host p m = .ok false m') :
    m'.halted = true := by
  rw [goOn, get_bind] at ran
  obtain ⟨_, m₁, -, ran⟩ := of_bind_ok ran
  obtain ⟨said, rfl⟩ := EStateM.Result.ok.inj ran
  simpa using said

theorem step_false {host : Host W} {m m' : Machine W} (stepped : step host p m = .ok false m') :
    m'.halted = true := by
  cases running : m.halted with
  | true =>
    rw [step_halted running] at stepped
    cases stepped
    exact running
  | false =>
    rw [step_announced running] at stepped
    split at stepped
    · split at stepped
      · cases stepped
        rfl
      · obtain ⟨_, m₁, -, stepped⟩ := of_bind_ok stepped
        exact goOn_false stepped
    · exact goOn_false stepped

theorem runFor_value {host : Host W} {n : Nat} {v : Value} {m m' : Machine W}
    (ran : runFor host p n m = .ok (some v) m') : m'.halted = true ∧ m'.result = v := by
  induction n generalizing m with
  | zero => cases ran
  | succ n ih =>
    rw [runFor] at ran
    obtain ⟨more, m₁, stepped, ran⟩ := of_bind_ok ran
    cases more with
    | true => exact ih ran
    | false =>
      cases ran
      exact ⟨step_false stepped, rfl⟩

theorem init_inOrder (p : Program) (world : World) :
    InOrder p (init p (world, ([] : List Event))) := by
  refine ⟨?_, [], by simp, rfl⟩
  rintro ⟨⟩

/-- Whatever is called from outside, in whatever order and with whatever hosts, and whether the
calls fail or not: as soon as there was a call, the host has heard of the start, then only
questions, and at last of the end if the machine has halted. What was heard is never taken back. A
run that gives a value halts the machine, and a halted machine stays as it is: the hosts hear
nothing more, and every run gives the same value again. Watching the hosts makes no difference. -/
theorem events_in_order (p : Program) (world : World) (requests : List (Request World)) :
    let m := performAll p (requests.map Request.watched) (init p (world, []))
    m.mapWorld (·.1) = performAll p requests (init p world) ∧
      m.started = !requests.isEmpty ∧ InOrder p m ∧
      (∀ r : Request World, m.heard <+: (r.watched.perform p m).heard) ∧
      (∀ host n v m', runFor host p n m = .ok (some v) m' → m'.halted = true ∧ m'.result = v) ∧
      (m.halted = true → (∀ r : Request (World × List Event), r.perform p m = m) ∧
        ∀ host n, runFor host p (n + 1) m = .ok (some m.result) m) := by
  intro m
  obtain ⟨inOrder, started⟩ := performAll_inOrder (init_inOrder p world) requests
  refine ⟨(performAll_watched requests _).symm, started, inOrder,
    fun r => (r.perform_onward inOrder).grows, fun _ _ _ _ ran => runFor_value ran,
      fun halted => ?_⟩
  refine ⟨fun r => r.perform_halted halted (inOrder.started halted), fun host n => ?_⟩
  rw [runFor, bind_ok _ (step_halted halted)]
  rfl

def reluctant : Host Nat := ⟨id, id, fun _ _ n => (if n = 0 then .error "no" else .ok .zero, n + 1)⟩

def askingProgram : Program where
  words := #[1, 0, 0, 1, 0, 1, 1, 7, 0, 2, 0]
  functions := #[.host "ask" ⟨none, none⟩]
  globals := #[]
  literals := #[.atom (.integer 7)]
  lines := none

theorem events_in_order_refused :
    ∃ m, performAll askingProgram ([.start reluctant, .run reluctant 5, .run reluctant 5].map
        Request.watched) (init askingProgram (0, [])) = m ∧
      m.heard.map Event.question? = [none, some ("ask", 0), some ("ask", 1), none] ∧
      InOrder askingProgram m ∧
      ∀ r : Request (Nat × List Event), r.perform askingProgram m = m := by
  obtain ⟨-, -, inOrder, -, -, still⟩ :=
    events_in_order askingProgram 0 [.start reluctant, .run reluctant 5, .run reluctant 5]
  have halted :
      (performAll askingProgram ([.start reluctant, .run reluctant 5, .run reluctant 5].map
        Request.watched) (init askingProgram (0, []))).halted = true := by
    decide +kernel
  exact ⟨_, rfl, by decide +kernel, inOrder, (still halted).1⟩

end Machine

end Scriptlet
