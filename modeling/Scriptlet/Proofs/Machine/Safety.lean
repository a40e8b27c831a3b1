import Scriptlet.Proofs.Machine.Ticks

/-!
Programs that cannot go wrong. A program is sound if its code consists of bodies whose
statements are complete, jump to statements of the same body and refer to entries that are
there. While a sound program runs, the work of every call on the stack agrees with the code
that its saved address points to. From that no unit of work can fail, except where a call is
too deep or the host fails.
-/
namespace Scriptlet

open Code Actions

/-- The code that runs in one frame, but for the return at its end. -/
structure Body where
  start : Nat
  parameters : Nat
  locals : Nat
  row : List Statement

namespace Body

variable (p : Program) (b : Body)

def slots : VariableScope → Nat
  | .globals => p.globals.size
  | .locals => b.locals
  | .parameters => b.parameters

def HasSlot (a : Address) : Prop := a.index.toNat < b.slots p a.scope ∧ a.index.toNat < 2 ^ 28

def references : References where
  literal place := place < p.literals.size
  slot := b.HasSlot p
  target := b.HasSlot p
  call place _ := place < p.functions.size

structure Sound : Prop where
  placed : Holds p.words b.start (rowWords Target.word (b.row ++ [Statement.final]))
  targets : ∀ x ∈ b.row, ∀ t, x.target? = some t → ∃ a ∈ bounds b.start b.row, t = .ip a
  valid : ∀ x ∈ b.row, x.Valid (b.references p)

def behind : Nat := b.start + rowSize (b.row ++ [Statement.final])

/-- The bodies lie one behind the other, from the one address to the other. -/
def Paves : Nat → List Body → Nat → Prop
  | a, [], z => a = z
  | a, b :: bs, z => b.start = a ∧ Paves b.behind bs z

def Fits : List Frame → Prop
  | [] => b.parameters = 0 ∧ b.locals = 0
  | f :: _ => f.parameters.size = b.parameters ∧ f.locals.size = b.locals

variable {b} in
theorem paves_append {a z : Nat} {bs : List Body} :
    Paves a (bs ++ [b]) z ↔ Paves a bs b.start ∧ b.behind = z := by
  induction bs generalizing a with
  | nil => exact and_congr_left fun _ => eq_comm
  | cons c bs ih => rw [List.cons_append, Paves, Paves, ih, and_assoc]

end Body

structure Program.Sound (p : Program) : Prop where
  words : p.words.size < 2 ^ 32
  literals : p.literals.size ≤ 2 ^ 32
  functions : p.functions.size ≤ 2 ^ 32
  entry : ∃ b : Body, b.start = 0 ∧ b.Fits [] ∧ b.Sound p
  bodies : ∀ (place : Nat) (f : UserFunction), p.functions[place]? = some (.user f) →
    ∃ b : Body, b.start = f.ip.toNat ∧ b.parameters = f.parameters.toNat ∧
      b.locals = f.locals.toNat ∧ b.Sound p

variable {p : Program} {b : Body}

theorem Program.Sound.head_fits (sound : p.Sound) {head : Head} {n : Nat}
    (valid : head.Valid (b.references p) n) : head.Fits n := by
  cases head with
  | call place => exact Nat.lt_of_lt_of_le valid sound.functions
  | element slot => exact valid.2
  | items => trivial
  | zeros => exact valid

theorem Program.Sound.plain_fits (sound : p.Sound) {q : Plain}
    (refers : q.Refers (b.references p)) :
    q.Fits := by
  cases q with
  | call place arguments => exact Nat.lt_of_lt_of_le refers sound.functions
  | returnValue value => trivial
  | assign | assignPath => exact refers.2

theorem Body.Sound.statement_at (sound : b.Sound p) {ip : Nat} (at_ : ip ∈ bounds b.start b.row) :
    ∃ x, Holds p.words ip (x.words Target.word) ∧
      (x = Statement.final ∨ x ∈ b.row ∧ ip + x.size ∈ bounds b.start b.row) := by
  obtain ⟨before, after, split, rfl⟩ := mem_bounds_iff.mp at_
  have placed := sound.placed
  rw [split, List.append_assoc, rowWords_append] at placed
  have here := placed.append.2
  rw [rowWords_length] at here
  cases after with
  | nil =>
    rw [List.nil_append, rowWords_cons] at here
    exact ⟨_, here.append.1, Or.inl rfl⟩
  | cons x after =>
    rw [List.cons_append, rowWords_cons] at here
    refine ⟨x, here.append.1,
      Or.inr ⟨by simp [split], mem_bounds_iff.mpr ⟨before ++ [x], after, ?_, ?_⟩⟩⟩
    · simp [split]
    · simp [Nat.add_assoc]

theorem Body.Sound.inRange (sound : b.Sound p) {a : Nat} (at_ : a ∈ bounds b.start b.row) :
    a ≤ p.words.size := by
  obtain ⟨x, holds, _⟩ := sound.statement_at at_
  have := holds.le_size
  omega

variable (p b) in
/-- What a statement's instruction needs when it is completed with `next` behind it. -/
inductive Settles (next : Nat) : Instruction → Prop where
  | call {ip place k : Nat} : place < p.functions.size → next ∈ bounds b.start b.row →
      Settles next ⟨.callStatement, ip, .function place, k⟩
  | returnValue {ip k : Nat} {operand : Operand} : Settles next ⟨.returnValue, ip, operand, k⟩
  | jump {ip target k : Nat} : target ∈ bounds b.start b.row →
      Settles next ⟨.jump, ip, .address target, k⟩
  | jumpIfFalse {ip target k : Nat} : target ∈ bounds b.start b.row →
      next ∈ bounds b.start b.row → Settles next ⟨.jumpIfFalse, ip, .address target, k⟩
  | assign {ip k : Nat} {slot : Address} : b.HasSlot p slot → next ∈ bounds b.start b.row →
      Settles next ⟨.assign, ip, .slot slot, k⟩
  | assignPath {ip k : Nat} {slot : Address} : b.HasSlot p slot → next ∈ bounds b.start b.row →
      Settles next ⟨.assignPath, ip, .slot slot, k⟩

variable (p b) in
inductive Yields : Instruction → Prop where
  | call {ip place k : Nat} : place < p.functions.size → Yields ⟨.call, ip, .function place, k⟩
  | elementPath {ip k : Nat} {slot : Address} : b.HasSlot p slot →
      Yields ⟨.elementPath, ip, .slot slot, k⟩
  | createList {ip k : Nat} {operand : Operand} : Yields ⟨.createList, ip, operand, k⟩
  | initializeList {ip k : Nat} {operand : Operand} : Yields ⟨.initializeList, ip, operand, k⟩

variable (p b) in
/-- The work of one call, innermost first, agrees with the code from an address on. -/
inductive Resumes : Nat → List Work → Prop where
  | boundary {ip : Nat} : ip ∈ bounds b.start b.row → Resumes ip []
  | statement {ip : Nat} {i : Instruction} {parts : List (List Term)} {values : List Value} :
      Holds p.words ip (partsWords parts) → partsValid (b.references p) parts →
      Settles p b (ip + (partsWords parts).length) i →
      Resumes ip [.instruction i parts.length values]
  | compound {ip n : Nat} {i : Instruction} {parts : List (List Term)}
      {values operands : List Value} {v : Value} {rest : List Work} :
      Holds p.words ip (partsWords parts) → partsValid (b.references p) parts → Yields p b i →
      Resumes (ip + (partsWords parts).length) (.expression n (v :: operands) :: rest) →
      Resumes ip (.instruction i parts.length values :: .expression n operands :: rest)
  | expression {ip n : Nat} {i : Instruction} {ts : List Term} {values operands : List Value}
      {v : Value} {rest : List Work} :
      Holds p.words ip (termsWords ts) → termsValid (b.references p) ts →
      (effect operands.length ts).isSome = true →
      Resumes (ip + (termsWords ts).length) (.instruction i n (v :: values) :: rest) →
      Resumes ip (.expression ts.length operands :: .instruction i n values :: rest)

namespace Resumes

variable {ip n : Nat} {i : Instruction} {rest : List Work} {operands : List Value}

theorem of_values {values : List Value} (resumes : Resumes p b ip (.instruction i n values :: rest))
    (others : List Value) : Resumes p b ip (.instruction i n others :: rest) := by
  cases resumes with
  | statement holds valid settles => exact .statement holds valid settles
  | compound holds valid yields next => exact .compound holds valid yields next

theorem of_operands {others : List Value} (same : others.length = operands.length)
    (resumes : Resumes p b ip (.expression n operands :: rest)) :
    Resumes p b ip (.expression n others :: rest) := by
  cases resumes with
  | expression holds valid enough next => exact .expression holds valid (same ▸ enough) next

theorem of_value {v : Value} (resumes : Resumes p b ip (.expression n (v :: operands) :: rest))
    (w : Value) :
    Resumes p b ip (.expression n (w :: operands) :: rest) :=
  of_operands (by simp) resumes

end Resumes

variable (p b) in
def Awaits (ip : Nat) (work : List Work) : Prop :=
  (work = [] ∧ ip ∈ bounds b.start b.row) ∨
    ∃ n operands rest v, work = .expression n operands :: rest ∧
      Resumes p b ip (.expression n (v :: operands) :: rest)

variable (p) in
/-- The frames, the saved addresses and the work below the innermost call belong together. -/
inductive Callers : List Frame → List Nat → List Work → Prop where
  | nobody : Callers [] [] []
  | call {f : Frame} {frames : List Frame} {ip : Nat} {saved : List Nat} {work below : List Work}
      {b : Body} : f.base = (work ++ below).length → b.Sound p → b.Fits frames →
      Awaits p b ip work → Callers frames saved below →
      Callers (f :: frames) (ip :: saved) (work ++ below)

theorem Callers.of_base {f g : Frame} {frames : List Frame} {saved : List Nat} {below : List Work}
    (callers : Callers p (f :: frames) saved below) (same : g.base = f.base) :
    Callers p (g :: frames) saved below := by
  cases callers with
  | call height sound fits awaits rest => exact .call (same.trans height) sound fits awaits rest

namespace Machine

variable {World : Type} {host : Host World} {m m' : Machine World} {world : World}

variable (p b m) in
structure Inside (work below : List Work) : Prop where
  sound : b.Sound p
  fits : b.Fits m.frames
  globals : m.globals.size = p.globals.size
  working : m.work = work ++ below
  callers : Callers p m.frames m.cursor.saved below

variable (p m) in
def Safe : Prop :=
  m.halted = true ∨ ∃ b work below, m.Inside p b work below ∧ Resumes p b m.cursor.ip work

/-- The faults that a sound program can end with. -/
def Fault.Tolerable (f : Fault) : Prop :=
  f = .callDepthExceeded ∨ ∃ name reason, f = .host name reason

/-- An action that succeeds ends safely, and one that fails fails tolerably. -/
def Secure (p : Program) {α : Type} : EStateM.Result Fault (Machine World) α → Prop :=
  Leaves (Safe p) fun f _ => f.Tolerable

namespace Inside

variable {work below : List Work} {place : Nat}

section

variable (inside : m.Inside p b work below)
include inside

theorem base_eq : m.base = below.length := by
  have callers := inside.callers
  unfold base
  generalize m.frames = frames, m.cursor.saved = saved at callers
  cases callers with
  | nobody => rfl
  | call height sound fits awaits rest => exact height

theorem boundary_iff : m.atBoundary = true ↔ work = [] := by
  rw [atBoundary, decide_eq_true_iff, inside.base_eq, inside.working, List.length_append]
  constructor
  · intro height
    exact List.eq_nil_of_length_eq_zero (by omega)
  · rintro rfl
    simp

theorem resume (ip : Nat) (more : List Work) :
    (m.resume ip (more ++ below)).Inside p b more below :=
  { inside with working := rfl }

theorem safe {ip : Nat} {more : List Work}
    (resumes : Resumes p b ip more) : (m.resume ip (more ++ below)).Safe p :=
  Or.inr ⟨b, more, below, inside.resume ip more, resumes⟩

theorem value? {a : Address} (has : b.HasSlot p a) : ∃ v, m.value? a = some v := by
  obtain ⟨scope, index⟩ := a
  have bound := has.1
  have fits := inside.fits
  unfold Machine.value?
  cases scope with
  | globals =>
    have small : index.toNat < m.globals.size := inside.globals ▸ bound
    exact ⟨_, Array.getElem?_eq_getElem small⟩
  | locals =>
    cases frames : m.frames with
    | nil =>
      rw [frames] at fits
      simp [Body.slots, fits.2] at bound
    | cons f rest =>
      rw [frames] at fits
      have small : index.toNat < f.locals.size := fits.2 ▸ bound
      exact ⟨_, Array.getElem?_eq_getElem small⟩
  | parameters =>
    cases frames : m.frames with
    | nil =>
      rw [frames] at fits
      simp [Body.slots, fits.1] at bound
    | cons f rest =>
      rw [frames] at fits
      have small : index.toNat < f.parameters.size := fits.1 ▸ bound
      exact ⟨_, Array.getElem?_eq_getElem small⟩

theorem setSlot (a : Address) (v : Value) : (m.setSlot a v).Inside p b work below := by
  obtain ⟨cursor, frames, globals, waiting, result, started, halted, world⟩ := m
  obtain ⟨scope, index⟩ := a
  obtain ⟨sound, fits, size, working, callers⟩ := inside
  cases scope with
  | globals => exact ⟨sound, fits, by simpa [Machine.setSlot] using size, working, callers⟩
  | locals | parameters =>
    cases frames with
    | nil => exact ⟨sound, fits, size, working, callers⟩
    | cons f rest =>
      exact ⟨sound, by simpa [Machine.setSlot, Body.Fits] using fits, size, working,
        callers.of_base rfl⟩

end

theorem setSlot_cursor (m : Machine World) (a : Address) (v : Value) :
    (m.setSlot a v).cursor = m.cursor := by
  unfold Machine.setSlot
  split <;> rfl

theorem setWorld (inside : m.Inside p b work below) (world : World) :
    ({ m with world } : Machine World).Inside p b work below :=
  { inside with }

theorem deliver_secure (inside : m.Inside p b work below) (awaits : Awaits p b m.cursor.ip work)
    (waiting : work ≠ []) (v : Value) : Secure p (deliver v m) := by
  rcases awaits with ⟨nothing, _⟩ | ⟨n, operands, rest, w, rfl, resumes⟩
  · exact absurd nothing waiting
  · rw [deliver_expression v inside.working]
    exact inside.safe (resumes.of_value v)

theorem enter_secure (sound : p.Sound) (inside : m.Inside p b work below)
    (awaits : Awaits p b m.cursor.ip work) {f : UserFunction}
    (found : p.functions[place]? = some (.user f)) (arguments : List Value) :
    Secure p (enter p f arguments m) := by
  by_cases deep : maxDepth ≤ m.frames.length
  · rw [enter_deep deep]
    exact Or.inl rfl
  · obtain ⟨c, start, parameters, locals, code⟩ := sound.bodies place f found
    have first : f.ip.toNat ∈ bounds c.start c.row := start ▸ start_mem_bounds _ _
    rw [enter_ok (Nat.not_le.mp deep) (code.inRange first)]
    refine Or.inr ⟨c, [], work ++ below, ⟨code, ?_, inside.globals, inside.working, ?_⟩,
      .boundary first⟩
    · simp only [entered, Frame.ofCall, Body.Fits, List.size_toArray, List.length_append,
        List.length_take, List.length_replicate, Array.size_replicate, parameters, locals, and_true]
      omega
    · refine .call ?_ inside.sound inside.fits awaits inside.callers
      rw [← inside.working]
      rfl

theorem call_secure (sound : p.Sound) (inside : m.Inside p b work below)
    (awaits : Awaits p b m.cursor.ip work) (present : place < p.functions.size)
    {wanted : Bool} (receives : wanted = true ↔ work ≠ []) (arguments : List Value) :
    Secure p (call host p place arguments wanted m) := by
  have answer : ∀ (v : Value) (m' : Machine World), m'.Inside p b work below →
      m'.cursor = m.cursor → Secure p (if wanted then deliver v m' else .ok () m') := by
    intro v m' inside' same
    by_cases waiting : work = []
    · have unwanted : wanted = false := by simpa [waiting] using receives
      rw [unwanted]
      rcases awaits with ⟨_, next⟩ | ⟨n, operands, rest, w, split, _⟩
      · exact Or.inr ⟨b, work, below, inside', waiting ▸ same ▸ .boundary next⟩
      · simp [split] at waiting
    · rw [if_pos (receives.mpr waiting)]
      exact inside'.deliver_secure (same ▸ awaits) waiting v
  have found := Array.getElem?_eq_getElem present
  generalize p.functions[place] = f at found
  cases f with
  | user f =>
    rw [call_user found]
    exact inside.enter_secure sound awaits found arguments
  | native f =>
    rw [call_native found]
    exact answer _ m inside rfl
  | host name arity =>
    rw [call_host found]
    rcases host.call name arguments m.world with ⟨outcome, world⟩
    cases outcome with
    | ok v => exact answer v _ (inside.setWorld world) rfl
    | error reason => exact Or.inr ⟨name, reason, rfl⟩

theorem leave_secure (inside : m.Inside p b [] below) (v : Value) : Secure p (leave host v m) := by
  have callers := inside.callers
  have working : m.work = below := inside.working
  generalize active : m.frames = frames, return_to : m.cursor.saved = saved at callers
  cases callers with
  | nobody =>
    rw [leave_last v active]
    exact Or.inl rfl
  | @call f frames ip saved work below c height sound fits awaits callers =>
    rw [leave_call v active return_to]
    have back : (m.left frames ip saved).Inside p c work below :=
      ⟨sound, fits, inside.globals, working, callers⟩
    by_cases waiting : work = []
    · rw [if_pos (back.boundary_iff.mpr waiting)]
      rcases awaits with ⟨_, next⟩ | ⟨n, operands, rest, w, split, _⟩
      · exact Or.inr ⟨c, work, below,
          { back with },
          waiting ▸ .boundary next⟩
      · simp [split] at waiting
    · rw [if_neg (fun boundary => waiting (back.boundary_iff.mp boundary))]
      exact back.deliver_secure awaits waiting v

theorem settle_secure (sound : p.Sound) (inside : m.Inside p b [] below) {i : Instruction}
    (settles : Settles p b m.cursor.ip i) (values : List Value) :
    Secure p (complete host p i values m) := by
  have goes : ∀ a ∈ bounds b.start b.row, (m.resume a m.work).Safe p := by
    intro a at_
    rw [inside.working]
    exact inside.safe (.boundary at_)
  have stays : ∀ m' : Machine World, m'.Inside p b [] below → m'.cursor = m.cursor →
      m.cursor.ip ∈ bounds b.start b.row → m'.Safe p := by
    intro m' inside' same next
    exact Or.inr ⟨b, [], below, inside', same ▸ .boundary next⟩
  cases settles with
  | call present next =>
    rw [complete]
    exact inside.call_secure sound (Or.inl ⟨rfl, next⟩) present (by simp) _
  | returnValue =>
    rw [complete]
    exact inside.leave_secure _
  | jump there =>
    rw [complete_jump (inside.sound.inRange there)]
    exact goes _ there
  | jumpIfFalse there next =>
    rw [complete_jumpIfFalse (inside.sound.inRange there)]
    split
    · exact stays m inside rfl next
    · exact goes _ there
  | assign known next =>
    obtain ⟨old, found⟩ := inside.value? known
    rw [complete_assign found]
    exact stays _ (inside.setSlot _ _) (setSlot_cursor ..) next
  | assignPath known next =>
    obtain ⟨old, found⟩ := inside.value? known
    rw [complete_assignPath found (Or.inr rfl)]
    exact stays _ (inside.setSlot _ _) (setSlot_cursor ..) next

theorem yield_secure (sound : p.Sound) {n : Nat} {operands : List Value} {rest : List Work}
    {w : Value} (inside : m.Inside p b (.expression n operands :: rest) below)
    (resumes : Resumes p b m.cursor.ip (.expression n (w :: operands) :: rest))
    {i : Instruction} (yields : Yields p b i) (values : List Value) :
    Secure p (complete host p i values m) := by
  cases yields with
  | call present =>
    rw [complete]
    exact inside.call_secure sound (Or.inr ⟨n, operands, rest, w, rfl, resumes⟩) present (by simp) _
  | createList =>
    rw [complete_createList inside.working]
    exact inside.safe (resumes.of_value _)
  | initializeList =>
    rw [complete_initializeList inside.working]
    exact inside.safe (resumes.of_value _)
  | elementPath known =>
    obtain ⟨old, found⟩ := inside.value? known
    rw [complete_elementPath inside.working found (Or.inr rfl)]
    exact inside.safe (resumes.of_value _)

variable {t : Term} {ts : List Term} {operands values : List Value} {i : Instruction} {n : Nat}
  {rest : List Work} {v : Value}

theorem token_secure (sound : p.Sound)
    (inside : m.Inside p b (.expression (t :: ts).length operands :: rest) below)
    (holds : Holds p.words m.cursor.ip t.words) (valid : t.Valid (b.references p))
    (enough : (effect operands.length (t :: ts)).isSome = true)
    (continues : ∀ others : List Value, (effect others.length ts).isSome = true →
      Resumes p b (m.cursor.ip + t.words.length) (.expression ts.length others :: rest)) :
    Secure p (advance host p m) := by
  cases t with
  | literal place =>
    rw [Term.Valid] at valid
    have small : place < 2 ^ 32 := Nat.lt_of_lt_of_le valid sound.literals
    rw [advance_literal inside.working holds small (Array.getElem?_eq_getElem valid)]
    exact inside.safe (continues (_ :: operands) enough)
  | load slot =>
    rw [Term.Valid] at valid
    obtain ⟨v, found⟩ := inside.value? valid
    rw [advance_load inside.working holds valid.2 found]
    exact inside.safe (continues (_ :: operands) enough)
  | binary op =>
    rcases operands with _ | ⟨right, _ | ⟨left, operands⟩⟩
    · simp [effect, Term.effect] at enough
    · simp [effect, Term.effect] at enough
    · rw [advance_binary inside.working holds]
      refine inside.safe (continues (_ :: operands) ?_)
      simpa [effect, Term.effect] using enough
  | unary op =>
    cases operands with
    | nil => simp [effect, Term.effect] at enough
    | cons operand operands =>
      rw [advance_unary inside.working holds]
      refine inside.safe (continues (_ :: operands) ?_)
      simpa [effect, Term.effect] using enough
  | compound head parts =>
    rw [Term.Valid] at valid
    rw [Term.words] at holds continues
    obtain ⟨front, behind⟩ := holds.append
    have few : parts.length < 2 ^ 32 := by
      have := partsWords_length_le parts
      have := behind.le_size
      have := sound.words
      omega
    have fits := sound.head_fits valid.1
    -- What the compound token will do when its parts are there is settled now.
    have yields : Yields p b (head.instruction m.cursor.ip parts.length) := by
      cases head with
      | call place => exact .call valid.1
      | element slot => exact .elementPath valid.1
      | items => exact .initializeList
      | zeros => exact .createList
    have next := continues (Value.zero :: operands) enough
    rw [List.length_append, ← Nat.add_assoc] at next
    rw [advance_compound inside.working front fits few]
    exact inside.safe (.compound behind valid.2 yields next)

theorem open_secure (sound : p.Sound) {f : List Term} {parts : List (List Term)}
    (inside : m.Inside p b (.instruction i (f :: parts).length values :: rest) below)
    (holds : Holds p.words m.cursor.ip (partsWords (f :: parts)))
    (valid : partsValid (b.references p) (f :: parts))
    (next : Resumes p b (m.cursor.ip + 1 + (termsWords f).length)
      (.instruction i parts.length (Value.zero :: values) :: rest)) :
    Secure p (advance host p m) := by
  rw [partsWords] at holds
  rw [partsValid] at valid
  have few : f.length < 2 ^ 32 := by
    have := termsWords_length_le f
    have := holds.tail.append.1.le_size
    have := sound.words
    omega
  have opened : Resumes p b (m.cursor.ip + 1)
      (.expression f.length [] :: .instruction i parts.length values :: rest) :=
    .expression holds.tail.append.1 valid.1.2 valid.1.1 next
  rw [advance_open inside.working few holds]
  exact inside.safe opened

theorem partsWords_rest (ip : Nat) (f : List Term) (parts : List (List Term)) :
    ip + (partsWords (f :: parts)).length = ip + 1 + (termsWords f).length +
      (partsWords parts).length := by
  simp only [partsWords, List.length_cons, List.length_append]
  omega

theorem advance_secure (sound : p.Sound) (inside : m.Inside p b work below)
    (resumes : Resumes p b m.cursor.ip work) (busy : work ≠ []) : Secure p (advance host p m) := by
  cases resumes with
  | boundary next => exact absurd rfl busy
  | @statement _ i parts values holds valid settles =>
    cases parts with
    | nil =>
      rw [advance_complete inside.working]
      exact (inside.resume m.cursor.ip []).settle_secure sound settles values
    | cons f parts =>
      refine inside.open_secure sound holds valid (.statement ?_ ?_ ?_)
      · rw [partsWords] at holds
        exact holds.tail.append.2
      · rw [partsValid] at valid
        exact valid.2
      · rw [← partsWords_rest]
        exact settles
  | @compound _ n i parts values operands v rest holds valid yields next =>
    cases parts with
    | nil =>
      rw [advance_complete inside.working]
      exact (inside.resume m.cursor.ip (.expression n operands :: rest)).yield_secure sound next
        yields values
    | cons f parts =>
      rw [partsWords_rest] at next
      refine inside.open_secure sound holds valid (.compound ?_ ?_ yields next)
      · rw [partsWords] at holds
        exact holds.tail.append.2
      · rw [partsValid] at valid
        exact valid.2
  | @expression _ n i ts values operands v rest holds valid enough next =>
    cases ts with
    | nil =>
      rw [advance_close inside.working]
      exact inside.safe (next.of_values _)
    | cons t ts =>
      rw [termsWords] at holds next
      rw [termsValid] at valid
      refine inside.token_secure sound holds.append.1 valid.1 enough ?_
      intro others enough
      rw [List.length_append, ← Nat.add_assoc] at next
      exact .expression holds.append.2 valid.2 enough next

theorem begin_secure (sound : p.Sound) (inside : m.Inside p b [] below)
    (at_ : m.cursor.ip ∈ bounds b.start b.row) : Secure p (beginStatement p m) := by
  have begun : ∀ (ip : Nat) (i : Instruction) (parts : List (List Term)),
      Holds p.words ip (partsWords parts) → partsValid (b.references p) parts →
      Settles p b (ip + (partsWords parts).length) i →
      (m.resume ip (.instruction i parts.length [] :: m.work)).Safe p := by
    intro ip i parts holds valid settles
    rw [inside.working]
    exact inside.safe (.statement holds valid settles)
  -- The statement is one of the row, or the return behind it.
  obtain ⟨x, holds, final | ⟨member, next⟩⟩ := inside.sound.statement_at at_
  · subst final
    rw [Statement.final, Statement.words, Plain.words] at holds
    rw [beginStatement_plain holds.append.1 trivial (by simp [Plain.parts])]
    refine begun _ _ _ holds.append.2 ?_ .returnValue
    simp [Plain.parts, partsValid, termsValid, effect]
  have valid := inside.sound.valid x member
  cases x with
  | plain q =>
    rw [Statement.words, Plain.words] at holds
    obtain ⟨refers, parts⟩ : q.Refers (b.references p) ∧ partsValid (b.references p) q.parts :=
      valid
    have few : q.parts.length < 2 ^ 32 := by
      have := partsWords_length_le q.parts
      have := holds.append.2.le_size
      have := sound.words
      omega
    have fits := sound.plain_fits refers
    rw [beginStatement_plain holds.append.1 fits few]
    refine begun _ _ _ holds.append.2 parts ?_
    have behind : m.cursor.ip + q.front.length + (partsWords q.parts).length ∈
        bounds b.start b.row := by
      simpa [Statement.size, Statement.words, Plain.words, Nat.add_assoc] using next
    cases q with
    | call place arguments => exact .call refers behind
    | returnValue value => exact .returnValue
    | assign => exact .assign refers behind
    | assignPath => exact .assignPath refers behind
  | jump target =>
    obtain ⟨a, there, rfl⟩ := inside.sound.targets _ member target rfl
    rw [beginStatement_jump (Nat.lt_of_le_of_lt (inside.sound.inRange there) sound.words) holds]
    exact begun _ _ [] holds.tail.tail (by simp [partsValid]) (.jump there)
  | jumpIfFalse target test =>
    obtain ⟨a, there, rfl⟩ := inside.sound.targets _ member target rfl
    rw [Statement.words] at holds
    rw [beginStatement_jumpIfFalse
      (Nat.lt_of_le_of_lt (inside.sound.inRange there) sound.words) holds]
    refine begun _ _ [test] holds.tail.tail valid (.jumpIfFalse there ?_)
    simpa [Statement.size, Statement.words, Nat.add_assoc, Nat.add_comm 2] using next

end Inside

theorem announced_safe (safe : m.Safe p) : (m.announced host).Safe p := by
  unfold announced
  split
  · exact safe
  · rcases safe with halted | ⟨b, work, below, inside, resumes⟩
    · exact Or.inl halted
    · exact Or.inr ⟨b, work, below,
        { inside with }, resumes⟩

theorem safe_upheld (sound : p.Sound) (host : Host World) :
    Upheld host p (Safe p) fun f _ => f.Tolerable where
  announced := announced_safe
  halts := fun _ _ => Or.inl rfl
  begins := by
    intro m safe running boundary
    obtain ⟨b, work, below, inside, resumes⟩ := safe.resolve_left (by simp [running])
    obtain rfl := inside.boundary_iff.mp boundary
    cases resumes with
    | boundary at_ => exact inside.begin_secure sound at_
  advances := by
    intro m safe running busy
    obtain ⟨b, work, below, inside, resumes⟩ := safe.resolve_left (by simp [running])
    refine inside.advance_secure sound resumes fun nothing => ?_
    simp [inside.boundary_iff.mpr nothing] at busy

theorem step_secure (sound : p.Sound) (safe : m.Safe p) : Secure p (step host p m) :=
  (safe_upheld sound host).step safe

/-- The states that a program reaches step by step. -/
inductive Reachable (host : Host World) (p : Program) (world : World) : Machine World → Prop where
  | init : Reachable host p world (Machine.init p world)
  | step {m m' : Machine World} {more : Bool} : Reachable host p world m →
      step host p m = .ok more m' → Reachable host p world m'

theorem init_safe (sound : p.Sound) (world : World) : (Machine.init p world).Safe p := by
  obtain ⟨b, start, fits, code⟩ := sound.entry
  refine Or.inr ⟨b, [], [], ⟨code, fits, rfl, rfl, .nobody⟩, .boundary ?_⟩
  exact start ▸ start_mem_bounds _ _

theorem reachable_safe (sound : p.Sound) (reached : Reachable host p world m) : m.Safe p := by
  induction reached with
  | init => exact init_safe sound world
  | step reached stepped ih =>
    have secure : Secure p (Machine.step host p _) := step_secure sound ih
    rw [stepped] at secure
    exact secure

theorem reachable_fault (sound : p.Sound) (reached : Reachable host p world m) {f : Fault}
    (failed : step host p m = .error f m') : f.Tolerable := by
  have secure : Secure p (step host p m) := step_secure sound (reachable_safe sound reached)
  rw [failed] at secure
  exact secure

theorem runFor_fault (sound : p.Sound) (n : Nat) :
    ∀ {m m' : Machine World} {f : Fault}, Reachable host p world m →
      runFor host p n m = .error f m' → f.Tolerable := by
  induction n with
  | zero =>
    intro m m' f _ failed
    cases failed
  | succ n ih =>
    intro m m' f reached failed
    rcases of_bind_error failed with first | ⟨more, t, stepped, rest⟩
    · exact reachable_fault sound reached first
    · split at rest
      · exact ih (reached.step stepped) rest
      · cases rest

end Machine

end Scriptlet
