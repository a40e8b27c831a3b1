import Scriptlet.Proofs.Machine.Spans

/-!
All that one unit of work can do, whatever the code is. The calls that are active form a stack of
their own: a frame, the address to return to and the work that waits for the value. A unit fails
at words that cannot be read, or goes on with the statement, or completes it: then it passes to
another address, stores a value, ends the program, enters a function or returns from one. Nothing
else changes, and a unit that goes on has the same words left to read as before, less those that
it has read. So every unit keeps the parts of the machine together, whether it succeeds or fails.
-/
namespace Scriptlet

open Actions

def Work.pending : Work → Pending
  | .instruction _ n _ => .parts n
  | .expression n _ => .tokens n

def pendingOf (work : List Work) : List Pending := work.map Work.pending

def bottom : List Work → Option Instruction
  | [] => none
  | [.instruction i _ _] => some i
  | _ :: rest => bottom rest

namespace Instruction

def target? : Instruction → Option Nat
  | ⟨.jump, _, .address target, _⟩ | ⟨.jumpIfFalse, _, .address target, _⟩ => some target
  | _ => none

def slot? : Instruction → Option Address
  | ⟨.assign, _, .slot a, _⟩ | ⟨.assignElement, _, .slot a, _⟩ | ⟨.assignPath, _, .slot a, _⟩ =>
    some a
  | _ => none

end Instruction

theorem bottom_cons (w w' : Work) (rest : List Work) :
    bottom (w :: w' :: rest) = bottom (w' :: rest) := by
  cases w <;> rfl

theorem bottom_instruction (i : Instruction) (n k : Nat) (values others : List Value)
    (rest : List Work) : bottom (.instruction i n values :: rest) =
      bottom (.instruction i k others :: rest) := by
  cases rest with
  | nil => rfl
  | cons w rest => rw [bottom_cons, bottom_cons]

theorem bottom_expression (n k : Nat) (operands others : List Value) (rest : List Work) :
    bottom (.expression n operands :: rest) = bottom (.expression k others :: rest) := by
  cases rest with
  | nil => rfl
  | cons w rest => rw [bottom_cons, bottom_cons]

def Frame.setSlot (f : Frame) (a : Address) (v : Value) : Frame :=
  match a.scope with
  | .globals => f
  | .locals => { f with locals := f.locals.setIfInBounds a.index.toNat v }
  | .parameters => { f with parameters := f.parameters.setIfInBounds a.index.toNat v }

theorem Frame.setSlot_base (f : Frame) (a : Address) (v : Value) :
    (f.setSlot a v).base = f.base := by
  obtain ⟨scope, index⟩ := a
  cases scope <;> rfl

/-- A unit of work that goes on with a statement, from the one address and layer to the other: it
opens an expression, reads a token, closes an expression, or settles a compound token with all its
values, whether that succeeds or fails. -/
inductive Nearer (words : Array UInt32) : Nat → List Work → Nat → List Work → Prop where
  | open_ {a b n count : Nat} {i : Instruction} {values : List Value} {rest : List Work} :
      Layer (.instruction i (n + 1) values :: rest) → (Cursor.number words).Gives a count b →
      Nearer words a (.instruction i (n + 1) values :: rest) b
        (.expression count [] :: .instruction i n values :: rest)
  | token {a b n : Nat} {operands : List Value} {rest : List Work} :
      Layer (.expression (n + 1) operands :: rest) → (Cursor.token words).Gives a none b →
      (others : List Value) →
      Nearer words a (.expression (n + 1) operands :: rest) b (.expression n others :: rest)
  | compound {a b n : Nat} {i : Instruction} {operands : List Value} {rest : List Work} :
      Layer (.expression (n + 1) operands :: rest) → (Cursor.token words).Gives a (some i) b →
      i.op.isStatement = false → Nearer words a (.expression (n + 1) operands :: rest) b
        (.instruction i i.expressions [] :: .expression n operands :: rest)
  | close {a n : Nat} {i : Instruction} {operands values : List Value} {rest : List Work} :
      Layer (.expression 0 operands :: .instruction i n values :: rest) → (v : Value) →
      Nearer words a (.expression 0 operands :: .instruction i n values :: rest) a
        (.instruction i n (v :: values) :: rest)
  | value {a k : Nat} {i : Instruction} {values operands : List Value} {rest : List Work} :
      Layer (.instruction i 0 values :: .expression k operands :: rest) → (others : List Value) →
      Nearer words a (.instruction i 0 values :: .expression k operands :: rest) a
        (.expression k others :: rest)

namespace Nearer

variable {words : Array UInt32} {a b : Nat} {work work' : List Work}

variable (nearer : Nearer words a work b work')
include nearer

theorem busy : work' ≠ [] := by
  cases nearer <;> simp

theorem bottom : Scriptlet.bottom work' = Scriptlet.bottom work := by
  cases nearer with
  | open_ _ _ =>
    rw [bottom_cons]
    exact bottom_instruction ..
  | token _ _ _ => exact bottom_expression ..
  | compound _ _ _ =>
    rw [bottom_cons]
    exact bottom_expression ..
  | close _ _ =>
    rw [bottom_cons]
    exact bottom_instruction ..
  | value _ _ =>
    rw [bottom_cons]
    exact bottom_expression ..

theorem layer : Layer work' := by
  cases nearer with
  | open_ layer _ => exact .expression _ _ (layer.of_values _ _)
  | token layer _ others => exact layer.of_operands _ others
  | compound layer gives kind =>
    exact .compound _ _ (Cursor.token_legal gives) kind (layer.of_operands _ _)
  | close layer v =>
    cases layer with
    | expression _ _ lower => exact lower.of_values _ _
  | value layer others =>
    cases layer with
    | compound _ _ _ _ lower => exact lower.of_operands _ others

theorem spans (c : Nat) : Spans words a (pendingOf work) c ↔ Spans words b (pendingOf work') c := by
  cases nearer with
  | open_ _ gives => exact Spans.open_iff gives
  | token _ gives _ => exact (Spans.token_iff gives).trans Spans.parts_zero
  | compound _ gives _ => exact Spans.token_iff gives
  | close _ _ => exact Spans.tokens_zero
  | value _ _ => exact Spans.parts_zero

theorem progress :
    (a < b ∧ b ≤ words.size ∧ work'.length ≤ work.length + 1) ∨
    (a = b ∧ work'.length < work.length) := by
  cases nearer with
  | open_ _ gives =>
    obtain ⟨far, inside⟩ := Cursor.number_onward.far gives
    exact Or.inl ⟨by omega, by omega, by simp⟩
  | token _ gives _ | compound _ gives _ =>
    obtain ⟨far, inside⟩ := Cursor.token_onward.far gives
    exact Or.inl ⟨by omega, by omega, by simp⟩
  | close | value => exact Or.inr ⟨rfl, by simp⟩

theorem far : a ≤ b := by
  have := nearer.progress
  omega

theorem less (inside : a ≤ words.size) :
    2 * (words.size - b) + work'.length < 2 * (words.size - a) + work.length := by
  have := nearer.progress
  omega

end Nearer

namespace Machine

variable {World : Type} {host : Host World} {p : Program} {gs : List UserFunction}
  {m m' : Machine World} {work : List Work} {below : List Work}

/-- A word could not be read: it is missing, means nothing, or is of the wrong kind. -/
def Fault.Unreadable : Fault → Prop
  | .decode e => e.Unreadable
  | .unexpectedOpcode _ _ _ => True
  | _ => False

/-- Faults that have nothing to do with a word that is read. -/
def Fault.Mild : Fault → Prop
  | .decode (.jumpOutOfRange _ _) => True
  | .decode _ | .unexpectedOpcode _ _ _ => False
  | _ => True

theorem Fault.Mild.both {f : Fault} (mild : f.Mild) : f.Regular ∧ ¬f.Unreadable := by
  cases f with
  | decode e =>
    cases e with
    | jumpOutOfRange target size => exact ⟨by simp [Regular], id⟩
    | _ => cases mild
  | unexpectedOpcode op ip position => cases mild
  | _ => exact ⟨by simp [Regular], id⟩

/-- A word cannot be read, at the address or behind words that can be read. -/
structure Stuck (p : Program) (m : Machine World) (f : Fault) (ip : Nat) : Prop where
  unreadable : f.Unreadable
  regular : f.Regular
  inside : m.cursor.ip = ip ∨ ip ≤ p.words.size

theorem Stuck.decode {e : DecodeError} {ip : Nat} (unreadable : e.Unreadable)
    (inside : m.cursor.ip = ip ∨ ip ≤ p.words.size) : Stuck p m (.decode e) ip := by
  refine ⟨unreadable, ⟨?_, by simp⟩, inside⟩
  rintro ⟨⟩
  exact unreadable

structure Call where
  frame : Frame
  ip : Nat
  work : List Work

def waiting (calls : List Call) : List Work := calls.flatMap (·.work)

/-- Every frame knows how much work waited when its call was entered. -/
inductive Based : List Call → Prop where
  | nobody : Based []
  | call {c : Call} {calls : List Call} : c.frame.base = (waiting (c :: calls)).length →
      Based calls → Based (c :: calls)

structure Stacked (m : Machine World) (work : List Work) (calls : List Call) : Prop where
  working : m.work = work ++ waiting calls
  frames : m.frames = calls.map (·.frame)
  saved : m.cursor.saved = calls.map (·.ip)
  based : Based calls

@[simp] theorem waiting_cons (c : Call) (calls : List Call) :
    waiting (c :: calls) = c.work ++ waiting calls := rfl

theorem Based.height {calls : List Call} (based : Based calls) :
    heightOf (calls.map (·.frame)) = (waiting calls).length := by
  cases based with
  | nobody => rfl
  | call height _ => exact height

theorem nested_calls {frames : List Frame} {saved : List Nat}
    (nested : Nested p gs frames saved below) :
    ∃ calls : List Call, frames = calls.map (·.frame) ∧
      saved = calls.map (·.ip) ∧ below = waiting calls ∧ Based calls := by
  induction nested with
  | nobody => exact ⟨[], rfl, rfl, rfl, .nobody⟩
  | @call g gs f frames ip saved work below height _ _ _ _ _ _ ih =>
    obtain ⟨calls, rfl, rfl, rfl, based⟩ := ih
    exact ⟨⟨f, ip, work⟩ :: calls, rfl, rfl, rfl, .call height based⟩

theorem intact_stacked (intact : Intact p gs m) : ∃ work calls, Stacked m work calls := by
  obtain ⟨work, below, layered⟩ := intact
  obtain ⟨calls, frames, saved, rfl, based⟩ := nested_calls layered.callers
  exact ⟨work, calls, layered.working, frames, saved, based⟩

namespace Stacked

variable {c : Call} {calls : List Call}

section

variable (stacked : Stacked m work calls)
include stacked

theorem base_eq : m.base = (waiting calls).length := by
  rw [Machine.base_eq, stacked.frames, stacked.based.height]

theorem boundary_iff : m.atBoundary = true ↔ work = [] :=
  Machine.boundary_iff stacked.working stacked.base_eq

theorem busy (working : m.atBoundary = false) : work ≠ [] := by
  intro nothing
  rw [stacked.boundary_iff.mpr nothing] at working
  cases working

theorem push {ip : Nat} {w : Work} : Stacked (m.resume ip (w :: m.work)) (w :: work) calls :=
  { stacked with working := congrArg _ stacked.working }

theorem layered (intact : Intact p gs m) : Layered p gs m work (waiting calls) := by
  obtain ⟨top, below, layered⟩ := intact
  have height : below.length = (waiting calls).length := by
    rw [← layered.callers.height, ← Machine.base_eq, stacked.base_eq]
  obtain ⟨rfl, rfl⟩ := List.append_inj' (layered.working.symm.trans stacked.working) height
  exact layered

end

theorem caller (stacked : Stacked m work (c :: calls)) (intact : Intact p gs m) :
    (Waiting c.work ∧ Layer c.work) ∧ c.ip ≤ p.words.size ∧
      Nested p gs.tail (calls.map (·.frame)) (calls.map (·.ip)) (waiting calls) := by
  have callers := (stacked.layered intact).callers
  have outer : Based calls := by
    cases stacked.based
    assumption
  rw [stacked.frames, stacked.saved] at callers
  generalize both : waiting (c :: calls) = below at callers
  cases callers with
  | @call _ _ _ _ _ _ work below _ _ _ inside layer waits next =>
    have height : (waiting calls).length = below.length := by rw [← outer.height, next.height]
    obtain ⟨rfl, rfl⟩ := List.append_inj' both height
    exact ⟨⟨waits, layer⟩, inside, next⟩

end Stacked

theorem Layered.stored (layered : Layered p gs m work below) (a : Address) (v : Value) :
    Layered p gs ((m.resume m.cursor.ip below).setSlot a v) [] below := by
  obtain ⟨cursor, frames, globals, working, result, started, halted, world⟩ := m
  obtain ⟨scope, index⟩ := a
  obtain ⟨-, -, callers, inside, depth⟩ := layered
  cases frames with
  | nil => cases scope <;> exact ⟨rfl, .idle, callers, inside, depth⟩
  | cons f frames =>
    cases scope with
    | globals => exact ⟨rfl, .idle, callers, inside, depth⟩
    | locals =>
      exact ⟨rfl, .idle, callers.of_slots rfl rfl (Array.size_setIfInBounds ..), inside, depth⟩
    | parameters =>
      exact ⟨rfl, .idle, callers.of_slots rfl (Array.size_setIfInBounds ..) rfl, inside, depth⟩

def Ends (r : EStateM.Result Fault (Machine World) Unit) (m' : Machine World) : Prop :=
  ending r = m' ∧ ∀ f ∈ fault? r, f.Mild

theorem Ends.ok (m : Machine World) : Ends (.ok () m) m := ⟨rfl, by simp [fault?]⟩

theorem Ends.error {f : Fault} (m : Machine World) (mild : f.Mild) : Ends (.error f m) m := by
  refine ⟨rfl, fun f' same => ?_⟩
  cases same
  exact mild

def changed (a : Address) (v : Value) (calls : List Call) : List Call :=
  calls.modifyHead fun c => { c with frame := c.frame.setSlot a v }

variable (host p) in
/-- One unit of work on the innermost layer, with what it fails with, if it fails. -/
inductive Turn (m : Machine World) : List Work → List Call → Option Fault → Machine World →
    List Work → List Call → Prop where
  | stuck {work work' : List Work} {calls : List Call} {f : Fault} {ip : Nat} : f.Unreadable →
      (∀ b, ¬Spans p.words m.cursor.ip (pendingOf work) b) →
      Turn m work calls (some f) (m.resume ip (work' ++ waiting calls)) work' calls
  | goes {work work' : List Work} {calls : List Call} {fault : Option Fault} {ip : Nat}
      {world : World} : Nearer p.words m.cursor.ip work ip work' → (∀ f ∈ fault, ¬f.Unreadable) →
      Turn m work calls fault { m.resume ip (work' ++ waiting calls) with world } work' calls
  | passes {i : Instruction} {values : List Value} {calls : List Call} {fault : Option Fault}
      {ip : Nat} {world : World} :
      i.op.isStatement = true → ip = m.cursor.ip ∨ i.target? = some ip →
      (∀ f ∈ fault, ¬f.Unreadable) →
      Turn m [.instruction i 0 values] calls fault { m.resume ip (waiting calls) with world }
        [] calls
  | stores {i : Instruction} {values : List Value} {calls : List Call} {slot : Address}
      {v : Value} :
      i.slot? = some slot →
      Turn m [.instruction i 0 values] calls none
        ((m.resume m.cursor.ip (waiting calls)).setSlot slot v) [] (changed slot v calls)
  | halts {i : Instruction} {values : List Value} : i.op = .returnValue →
      Turn m [.instruction i 0 values] [] none
      { m.resume m.cursor.ip [] with halted := true, world := host.onEnd m.world } [] []
  | enters {i : Instruction} {place : Nat} {wanted : Bool} {values : List Value} {rest : List Work}
      {calls : List Call} {g : UserFunction} {fault : Option Fault} {ip : Nat} :
      i.callee? = some (place, wanted) → p.functions[place]? = some (.user g) →
      m.frames.length < maxDepth →
      fault = none ∧ ip = g.ip.toNat ∨ p.words.size < g.ip.toNat ∧ ip = m.cursor.ip →
      (∀ f ∈ fault, ¬f.Unreadable) →
      Turn m (.instruction i 0 values :: rest) calls fault
        { m with
          cursor := ⟨ip, m.cursor.ip :: m.cursor.saved⟩
          frames := Frame.ofCall g values.reverse (rest ++ waiting calls).length :: m.frames
          work := rest ++ waiting calls }
        [] (⟨Frame.ofCall g values.reverse (rest ++ waiting calls).length, m.cursor.ip,
          rest⟩ :: calls)
  | returns {i : Instruction} {values : List Value} {c : Call} {calls : List Call} :
      i.op = .returnValue → c.work = [] → Turn m [.instruction i 0 values] (c :: calls) none
        { (m.resume c.ip (waiting calls)).left (calls.map (·.frame)) c.ip (calls.map (·.ip)) with
          result := values.headD .zero } [] calls
  | answers {i : Instruction} {values : List Value} {c : Call} {calls : List Call} {n : Nat}
      {operands : List Value} {rest : List Work} : i.op = .returnValue →
      c.work = .expression n operands :: rest →
      Turn m [.instruction i 0 values] (c :: calls) none
        ((m.resume c.ip (.expression n (values.headD .zero :: operands) :: rest ++ waiting
          calls)).left (calls.map (·.frame)) c.ip (calls.map (·.ip)))
        (.expression n (values.headD .zero :: operands) :: rest) calls

theorem setSlot_eq (m : Machine World) (a : Address) (v : Value) :
    m.setSlot a v = { m with
      globals := if a.scope = .globals then m.globals.setIfInBounds a.index.toNat v else m.globals
      frames := m.frames.modifyHead (·.setSlot a v) } := by
  obtain ⟨scope, index⟩ := a
  obtain ⟨cursor, frames, globals, work, result, started, halted, world⟩ := m
  cases scope <;> cases frames <;> rfl

theorem Turn.stacked {calls calls' : List Call} {work' : List Work} {fault : Option Fault}
    (turn : Turn host p m work calls fault m' work' calls') (stacked : Stacked m work calls) :
    Stacked m' work' calls' := by
  obtain ⟨-, frames, saved, based⟩ := stacked
  cases turn with
  | stuck | goes | passes => exact ⟨rfl, frames, saved, based⟩
  | stores _ =>
    rw [setSlot_eq]
    cases based with
    | nobody => exact ⟨rfl, by simp only [resume_frames, frames]; rfl, saved, .nobody⟩
    | call height outer =>
      refine ⟨rfl, by simp only [resume_frames, frames]; rfl, saved, .call ?_ outer⟩
      rw [Frame.setSlot_base]
      exact height
  | halts => exact ⟨rfl, frames, saved, based⟩
  | enters => exact ⟨rfl, congrArg _ frames, congrArg _ saved, .call rfl based⟩
  | returns | answers =>
    cases based with
    | call _ outer => exact ⟨rfl, rfl, rfl, outer⟩

section Reading

variable {α : Type} {reading : Cursor.Reading α} {x : α} {b n : Nat} {e : DecodeError}
  {operands : List Value} {rest : List Work} {op : Opcode}

theorem read_gives (gives : reading.Gives m.cursor.ip x b) :
    read reading m = .ok x (m.resume b m.work) :=
  read_ok (gives m.cursor.saved)

theorem read_fails (fails : reading.Fails m.cursor.ip e b) :
    read reading m = .error (.decode e) (m.resume b m.work) := by
  have failed : reading m.cursor = .error e ⟨b, m.cursor.saved⟩ := fails m.cursor.saved
  rw [read, failed]
  rfl

theorem load_ends (a : Address) (m : Machine World) :
    (∃ v, load a m = .ok v m) ∨ ∃ f, f.Mild ∧ load a m = .error f m := by
  have none_ : m.frames = [] → frame m = .error .noFrame m := by
    intro none_
    rw [frame, get_bind, none_]
    rfl
  have taken : (∃ values, slots a.scope m = .ok values m) ∨
      slots a.scope m = .error .noFrame m := by
    cases a.scope with
    | globals => exact Or.inl ⟨m.globals, rfl⟩
    | locals =>
      cases active : m.frames with
      | nil => exact Or.inr (bind_error _ (none_ active))
      | cons f frames => exact Or.inl ⟨f.locals, bind_ok _ (frame_ok active)⟩
    | parameters =>
      cases active : m.frames with
      | nil => exact Or.inr (bind_error _ (none_ active))
      | cons f frames => exact Or.inl ⟨f.parameters, bind_ok _ (frame_ok active)⟩
  rcases taken with ⟨values, taken⟩ | failed
  · rw [load, bind_ok _ taken]
    cases values[a.index.toNat]? with
    | some v => exact Or.inl ⟨v, rfl⟩
    | none => exact Or.inr ⟨.invalidVariable a, trivial, rfl⟩
  · exact Or.inr ⟨.noFrame, trivial, bind_error _ failed⟩

theorem takeOperand_ends (ip : Nat) (working : m.work = .expression n operands :: rest) :
    (∃ v others, takeOperand ip m = .ok v (m.resume m.cursor.ip (.expression n others :: rest))) ∨
      takeOperand ip m = .error (.stackUnderflow ip) m := by
  rw [takeOperand, get_bind, working]
  cases operands with
  | nil => exact Or.inr rfl
  | cons v others => exact Or.inl ⟨v, others, rfl⟩

theorem await_gives {i : Instruction} (ip : Nat)
    (gives : (Cursor.instruction p.words op ip).Gives m.cursor.ip (some i) b) :
    await p op ip m = .ok () (m.resume b (.instruction i i.expressions [] :: m.work)) :=
  await_ok (gives m.cursor.saved)

theorem await_fails (ip : Nat) (fails : (Cursor.instruction p.words op ip).Fails m.cursor.ip e b) :
    await p op ip m = .error (.decode e) (m.resume b m.work) := by
  rw [await, bind_error _ (read_fails fails)]

theorem token_other {c : Nat} (compound : op.isSimple = false)
    (first : (Cursor.Reading.of (Cursor.opcode p.words)).Gives m.cursor.ip op c) :
    token p m =
      if op.isStatement then .error (.unexpectedOpcode op m.cursor.ip .expression)
        (m.resume c m.work)
      else await p op m.cursor.ip (m.resume c m.work) := by
  rw [token, get_bind, bind_ok _ (by exact read_gives first)]
  cases op with
  | literal | load | binary _ | unary _ => cases compound
  | _ => rfl

theorem putOperand_ends (ip : Nat) (v : Value) (working : m.work = .expression n operands :: rest) :
    Ends (putOperand ip v m) (m.resume m.cursor.ip (.expression n (v :: operands) :: rest)) := by
  rw [putOperand, get_bind, working]
  exact .ok _

theorem token_simple {c : Nat} (simple : op.isSimple = true)
    (first : (Cursor.Reading.of (Cursor.opcode p.words)).Gives m.cursor.ip op c)
    (working : m.work = .expression n operands :: rest) :
    (∃ e b, (Cursor.tokenRest p.words m.cursor.ip op).Fails c e b ∧ e.Unreadable ∧
      (c = b ∨ b ≤ p.words.size) ∧ token p m = .error (.decode e) (m.resume b m.work)) ∨
    ∃ b others, (Cursor.tokenRest p.words m.cursor.ip op).Gives c none b ∧
      Ends (token p m) (m.resume b (.expression n others :: rest)) := by
  rw [token, get_bind, bind_ok _ (by exact read_gives first), working]
  cases op with
  | literal =>
    simp only
    rcases @Cursor.number_onward p.words c with ⟨place, b, -, -, gives⟩ |
      ⟨e, b, unreadable, inside, fails⟩
    · rw [bind_ok _ (by exact read_gives gives)]
      refine Or.inr ⟨b, p.literals[place]?.toList ++ operands, fun _ => bind_ok _ (gives _), ?_⟩
      cases p.literals[place]? with
      | some v => exact putOperand_ends _ v rfl
      | none => exact .error _ trivial
    · exact Or.inl ⟨e, b, fun _ => bind_error _ (fails _), unreadable, inside,
        bind_error _ (by exact read_fails fails)⟩
  | load =>
    simp only
    rcases @Cursor.address_onward p.words c with ⟨a, b, -, -, gives⟩ |
      ⟨e, b, unreadable, inside, fails⟩
    · rw [bind_ok _ (by exact read_gives gives)]
      rcases load_ends a (m.resume b (.expression n operands :: rest)) with ⟨v, loaded⟩ |
        ⟨f, mild, failed⟩
      · refine Or.inr ⟨b, v :: operands, fun _ => bind_ok _ (gives _), ?_⟩
        rw [bind_ok _ (by exact loaded)]
        exact putOperand_ends _ v rfl
      · refine Or.inr ⟨b, operands, fun _ => bind_ok _ (gives _), ?_⟩
        rw [bind_error _ (by exact failed)]
        exact .error _ mild
    · exact Or.inl ⟨e, b, fun _ => bind_error _ (fails _), unreadable, inside,
        bind_error _ (by exact read_fails fails)⟩
  | binary op =>
    right
    simp only
    rcases takeOperand_ends (m := m.resume c (.expression n operands :: rest)) m.cursor.ip rfl with
      ⟨right, others, taken⟩ | failed
    · rw [bind_ok _ (by exact taken)]
      rcases takeOperand_ends (m := m.resume c (.expression n others :: rest)) m.cursor.ip rfl with
        ⟨left, others', taken'⟩ | failed
      · refine ⟨c, op.apply left right :: others', fun _ => rfl, ?_⟩
        rw [bind_ok _ (by exact taken')]
        exact putOperand_ends _ _ rfl
      · refine ⟨c, others, fun _ => rfl, ?_⟩
        rw [bind_error _ (by exact failed)]
        exact .error _ trivial
    · refine ⟨c, operands, fun _ => rfl, ?_⟩
      rw [bind_error _ (by exact failed)]
      exact .error _ trivial
  | unary op =>
    right
    simp only
    rcases takeOperand_ends (m := m.resume c (.expression n operands :: rest)) m.cursor.ip rfl with
      ⟨operand, others, taken⟩ | failed
    · refine ⟨c, op.apply operand :: others, fun _ => rfl, ?_⟩
      rw [bind_ok _ (by exact taken)]
      exact putOperand_ends _ _ rfl
    · refine ⟨c, operands, fun _ => rfl, ?_⟩
      rw [bind_error _ (by exact failed)]
      exact .error _ trivial
  | _ => cases simple

theorem token_reads (working : m.work = .expression n operands :: rest) :
    (∃ e b f, (Cursor.token p.words).Fails m.cursor.ip e b ∧ Stuck p m f b ∧
      token p m = .error f (m.resume b m.work)) ∨
    (∃ b others, (Cursor.token p.words).Gives m.cursor.ip none b ∧
      Ends (token p m) (m.resume b (.expression n others :: rest))) ∨
    ∃ i b, (Cursor.token p.words).Gives m.cursor.ip (some i) b ∧ i.op.isStatement = false ∧
      token p m = .ok () (m.resume b (.instruction i i.expressions [] :: m.work)) := by
  rcases @Cursor.opcode_onward p.words m.cursor.ip with ⟨op, c, -, at_, first⟩ |
    ⟨e, b, unreadable, inside, fails⟩
  · cases simple : op.isSimple with
    | true =>
      rcases token_simple simple first working with ⟨e, b, fails, unreadable, inside, failed⟩ |
        ⟨b, others, gives, ends⟩
      · exact Or.inl ⟨e, b, .decode e, Cursor.headed_fails first fails,
          .decode unreadable (by omega), failed⟩
      · exact Or.inr (Or.inl ⟨b, others, Cursor.headed_gives first gives, ends⟩)
    | false =>
      rw [token_other simple first]
      have rest := @Cursor.tokenRest_compound p.words op m.cursor.ip simple
      cases kind : op.isStatement with
      | true =>
        exact Or.inl ⟨_, c, .unexpectedOpcode op m.cursor.ip .expression,
          Cursor.headed_fails first (Cursor.tokenRest_refused kind),
            ⟨trivial, by simp [Fault.Regular], at_⟩,
          rfl⟩
      | false =>
        rw [kind] at rest
        rcases @Cursor.instruction_onward p.words op m.cursor.ip c with ⟨found, b, -, -, gives⟩ |
          ⟨e, b, unreadable, inside, fails⟩
        · rcases Cursor.instruction_kind (gives []) with ⟨-, simple'⟩ | ⟨i, rfl, -, rfl, -⟩
          · rw [simple] at simple'
            cases simple'
          · exact Or.inr (Or.inr ⟨i, b, Cursor.headed_gives first (rest ▸ gives), kind,
              await_gives _ gives⟩)
        · exact Or.inl ⟨e, b, .decode e, Cursor.headed_fails first (rest ▸ fails),
            .decode unreadable (by omega), await_fails _ fails⟩
  · refine Or.inl ⟨e, b, .decode e, Cursor.headed_missing fails, .decode unreadable inside, ?_⟩
    rw [token, get_bind, bind_error _ (by exact read_fails fails)]

end Reading

section Units

variable {calls : List Call} {i : Instruction} {n : Nat} {values operands : List Value}
  {rest : List Work} {world : World}

section Results

variable {r : EStateM.Result Fault (Machine World) Unit} {work' : List Work}

variable (host p gs m work calls r) in
def Turns : Prop :=
  ∃ work' calls', Turn host p m work calls (fault? r) (ending r) work' calls' ∧
    Intact p (callsAfter p gs m) (ending r) ∧ ∀ f ∈ fault? r, f.Regular

theorem Turns.goes {ip : Nat} (world : World) (layered : Layered p gs m work (waiting calls))
    (called : callsAfter p gs m = gs) (nearer : Nearer p.words m.cursor.ip work ip work')
    (ends : Ends r m') (same : m' = { m.resume ip (work' ++ waiting calls) with world }) :
    Turns host p gs m work calls r := by
  have at_ := layered.inside
  have near := nearer.progress
  refine ⟨work', calls, ?_, ?_, fun f is_ => (ends.2 f is_).both.1⟩
  · rw [ends.1, same]
    exact .goes nearer fun f is_ => (ends.2 f is_).both.2
  · rw [ends.1, same, called]
    exact ⟨work', _, rfl, nearer.layer, layered.callers, by
      simp only [resume_ip]; omega, layered.depth⟩

theorem Turns.stuck {f : Fault} {ip : Nat} (layered : Layered p gs m work (waiting calls))
    (called : callsAfter p gs m = gs) (layer : Layer work') (stuck : Stuck p m f ip)
    (cannot : ∀ b, ¬Spans p.words m.cursor.ip (pendingOf work) b) (failed : r = .error f m')
    (same : m' = m.resume ip (work' ++ waiting calls)) : Turns host p gs m work calls r := by
  have at_ := layered.inside
  have inside := stuck.inside
  rw [failed, same]
  refine ⟨work', calls, .stuck stuck.unreadable cannot, ?_, ?_⟩
  · rw [called]
    exact ⟨work', _, rfl, layer, layered.callers, by simp only [ending, resume_ip]; omega,
      layered.depth⟩
  · rintro _ ⟨⟩
    exact stuck.regular

end Results

theorem open_turns (layered : Layered p gs m (.instruction i (n + 1) values :: rest)
    (waiting calls)) :
    Turns host p gs m (.instruction i (n + 1) values :: rest) calls (advance host p m) := by
  have working : m.work = .instruction i (n + 1) values :: (rest ++ waiting calls) :=
    layered.working
  have called : callsAfter p gs m = gs := by simp only [callsAfter, working]
  have opens : advance host p m =
      (read (Cursor.number p.words) >>= fun count => push (.expression count []))
        (m.resume m.cursor.ip (.instruction i n values :: (rest ++ waiting calls))) := by
    rw [advance, get_bind, working]
    rfl
  rw [opens]
  rcases @Cursor.number_onward p.words m.cursor.ip with ⟨count, c, -, -, gives⟩ |
    ⟨e, c, unreadable, inside, fails⟩
  · rw [bind_ok _ (by exact read_gives gives)]
    exact .goes m.world layered called (.open_ layered.layer gives) (.ok _) rfl
  · rw [bind_error _ (by exact read_fails fails)]
    exact .stuck layered called (layered.layer.of_values n values) (.decode unreadable inside)
      (fun _ => Spans.not_open fails) rfl rfl

theorem token_turns (layered : Layered p gs m (.expression (n + 1) operands :: rest)
    (waiting calls)) :
    Turns host p gs m (.expression (n + 1) operands :: rest) calls (advance host p m) := by
  have working : m.work = .expression (n + 1) operands :: (rest ++ waiting calls) := layered.working
  have called : callsAfter p gs m = gs := by simp only [callsAfter, working]
  rw [advance_expression working]
  rcases @token_reads _ p (m.resume m.cursor.ip (.expression n operands :: (rest ++ waiting calls)))
    n operands (rest ++ waiting calls) rfl with ⟨e, b, f, fails, stuck, failed⟩ |
    ⟨b, others, gives, ends⟩ | ⟨i, b, gives, kind, reads⟩
  · exact .stuck layered called (layered.layer.of_operands n operands)
      { stuck with } (fun _ => Spans.not_token fails) failed rfl
  · exact .goes m.world layered called (.token layered.layer gives others) ends rfl
  · rw [reads]
    exact .goes m.world layered called (.compound layered.layer gives kind) (.ok _) rfl

theorem close_turns
    (layered : Layered p gs m (.expression 0 operands :: .instruction i n values :: rest)
      (waiting calls)) :
    Turns host p gs m (.expression 0 operands :: .instruction i n values :: rest) calls
      (advance host p m) := by
  have working : m.work = .expression 0 operands :: .instruction i n values ::
      (rest ++ waiting calls) :=
    layered.working
  have called : callsAfter p gs m = gs := by simp only [callsAfter, working]
  rw [advance_close working]
  exact .goes m.world layered called (.close layered.layer (operands.headD .zero)) (.ok _) rfl

theorem call_ends {place : Nat} {wanted : Bool} (gs : List UserFunction)
    (calling : i.callee? = some (place, wanted)) (arguments : List Value) (m : Machine World) :
    (∃ g, p.functions[place]? = some (.user g) ∧ m.frames.length < maxDepth ∧
      call host p place arguments wanted m = enter p g arguments m) ∨
    callsBehind p m.frames.length gs i = gs ∧ ∃ world,
      (∃ v, call host p place arguments wanted m =
        if wanted then deliver v { m with world } else .ok () { m with world }) ∨
      ∃ f, f.Mild ∧ call host p place arguments wanted m = .error f { m with world } := by
  simp only [callsBehind, calling]
  cases found : p.functions[place]? with
  | none =>
    refine Or.inr ⟨rfl, m.world, Or.inr ⟨.invalidFunction place, trivial, ?_⟩⟩
    rw [call, found]
    rfl
  | some callee =>
    cases callee with
    | user g =>
      rw [call_user found]
      by_cases shallow : m.frames.length < maxDepth
      · exact Or.inl ⟨g, rfl, shallow, rfl⟩
      · exact Or.inr ⟨if_neg shallow, m.world,
          Or.inr ⟨.callDepthExceeded, trivial, enter_deep (Nat.not_lt.mp shallow)⟩⟩
    | native g => exact Or.inr ⟨rfl, m.world, Or.inl ⟨g.apply arguments, call_native found⟩⟩
    | host name arity =>
      refine Or.inr ⟨rfl, ?_⟩
      rw [call_host found]
      rcases host.call name arguments m.world with ⟨outcome, world⟩
      cases outcome with
      | ok v => exact ⟨world, Or.inl ⟨v, rfl⟩⟩
      | error reason => exact ⟨world, Or.inr ⟨.host name reason, trivial, rfl⟩⟩

theorem enter_turns {place : Nat} {wanted : Bool} {g : UserFunction}
    (layered : Layered p gs m (.instruction i 0 values :: rest) (waiting calls))
    (calling : i.callee? = some (place, wanted)) (layer : Layer rest) (waits : Waiting rest)
    (found : p.functions[place]? = some (.user g)) (shallow : m.frames.length < maxDepth) :
    Turns host p gs m (.instruction i 0 values :: rest) calls
      (enter p g values.reverse (m.resume m.cursor.ip (rest ++ waiting calls))) := by
  let frame := Frame.ofCall g values.reverse (rest ++ waiting calls).length
  have fits : frame.Fits g := by
    simp only [frame, Frame.Fits, Frame.ofCall, List.size_toArray, List.length_append,
      List.length_take, List.length_replicate, Array.size_replicate, and_true]
    omega
  have entered : ∀ ip, ip ≤ p.words.size → Intact p (callsAfter p gs m) { m with
      cursor := ⟨ip, m.cursor.ip :: m.cursor.saved⟩
      frames := frame :: m.frames
      work := rest ++ waiting calls } := by
    intro ip inside
    rw [callsAfter, layered.working]
    simp only [List.cons_append, callsBehind, calling, found, if_pos shallow]
    exact ⟨[], _, rfl, .idle, .call rfl fits (Array.mem_of_getElem? found) layered.inside
      layer waits layered.callers, inside, shallow⟩
  refine ⟨[], ⟨frame, m.cursor.ip, rest⟩ :: calls, ?_⟩
  by_cases inside : g.ip.toNat ≤ p.words.size
  · rw [enter_ok (by exact shallow) inside]
    exact ⟨.enters calling found shallow (Or.inl ⟨rfl, rfl⟩) (by simp [fault?]),
      entered _ inside, by simp [fault?]⟩
  · have outside : p.words.size < g.ip.toNat := Nat.not_le.mp inside
    have failed : enter p g values.reverse (m.resume m.cursor.ip (rest ++ waiting calls)) =
        .error (.decode (.jumpOutOfRange g.ip.toNat p.words.size)) { m with
          cursor := ⟨m.cursor.ip, m.cursor.ip :: m.cursor.saved⟩
          frames := frame :: m.frames
          work := rest ++ waiting calls } := by
      rw [enter, get_bind]
      simp only [resume_frames, Nat.not_le.mpr shallow, ↓reduceIte]
      rw [modify_bind, read, Cursor.Reading.of, Cursor.jump, if_pos outside]
      rfl
    have mild : Fault.Mild (.decode (.jumpOutOfRange g.ip.toNat p.words.size)) := trivial
    rw [failed]
    refine ⟨.enters calling found shallow (Or.inr ⟨outside, rfl⟩) ?_, entered _ layered.inside, ?_⟩
    · rintro _ ⟨⟩
      exact mild.both.2
    · rintro _ ⟨⟩
      exact mild.both.1

theorem compound_turns {k : Nat}
    (layered : Layered p gs m (.instruction i 0 values :: .expression k operands :: rest)
      (waiting calls)) :
    Turns host p gs m (.instruction i 0 values :: .expression k operands :: rest) calls
      (advance host p m) := by
  have working : m.work = .instruction i 0 values :: .expression k operands ::
      (rest ++ waiting calls) :=
    layered.working
  have called : callsAfter p gs m = callsBehind p m.frames.length gs i := by
    simp only [callsAfter, working]
  rw [advance_complete working]
  generalize completing : complete host p i values
    (m.resume m.cursor.ip (.expression k operands :: (rest ++ waiting calls))) = r
  -- A complete token hands its value to the expression below, or fails and leaves that alone.
  have delivers : ∀ v world, callsBehind p m.frames.length gs i = gs →
      r = deliver v { m.resume m.cursor.ip (.expression k operands :: (rest ++ waiting calls)) with
        world } →
      Turns host p gs m (.instruction i 0 values :: .expression k operands :: rest) calls r := by
    rintro v world same rfl
    exact .goes world layered (called.trans same) (.value layered.layer (v :: operands)) (.ok _) rfl
  have fails : ∀ f world, callsBehind p m.frames.length gs i = gs → f.Mild →
      r = .error f { m.resume m.cursor.ip (.expression k operands :: (rest ++ waiting calls)) with
        world } →
      Turns host p gs m (.instruction i 0 values :: .expression k operands :: rest) calls r := by
    rintro f world same mild rfl
    exact .goes world layered (called.trans same) (.value layered.layer operands)
      (.error _ mild) rfl
  obtain ⟨legal, kind, lower⟩ : i.Legal ∧ i.op.isStatement = false ∧
      Layer (.expression k operands :: rest) := by
    cases layered.layer with
    | compound _ _ legal kind lower => exact ⟨legal, kind, lower⟩
  cases legal with
  | call ip place n =>
    rw [complete] at completing
    rcases @call_ends _ host p ⟨.call, ip, .function place, n⟩ place true gs rfl values.reverse
      (m.resume m.cursor.ip (.expression k operands :: (rest ++ waiting calls))) with
        ⟨g, found, shallow, enters⟩ | ⟨same, world, ⟨v, answers⟩ | ⟨f, mild, failed⟩⟩
    · rw [← completing, enters]
      exact enter_turns layered rfl lower (.expression ..) found shallow
    · rw [answers] at completing
      exact delivers v world same completing.symm
    · rw [failed] at completing
      exact fails f world same mild completing.symm
  | createList | initializeList => exact delivers _ m.world rfl completing.symm
  | element ip slot n | elementPath ip slot n =>
    rw [complete] at completing
    rcases load_ends slot (m.resume m.cursor.ip (.expression k operands :: (rest ++ waiting calls)))
      with ⟨v, loaded⟩ | ⟨f, mild, failed⟩
    · rw [bind_ok _ loaded] at completing
      exact delivers _ m.world rfl completing.symm
    · rw [bind_error _ failed] at completing
      exact fails f m.world rfl mild completing.symm
  | _ => cases kind

theorem jump_ends (target : Nat) (m : Machine World) (at_ : m.cursor.ip ≤ p.words.size) :
    ∃ ip, (ip = m.cursor.ip ∨ ip = target) ∧ ip ≤ p.words.size ∧
      Ends (read (.of (Cursor.jump p.words target)) m) (m.resume ip m.work) := by
  by_cases inside : target ≤ p.words.size
  · refine ⟨target, Or.inr rfl, inside, ?_⟩
    rw [jump_ok inside]
    exact .ok _
  · refine ⟨m.cursor.ip, Or.inl rfl, at_, ?_⟩
    rw [read, Cursor.Reading.of, Cursor.jump, if_pos (Nat.not_le.mp inside)]
    exact .error m trivial

theorem leave_turns (intact : Intact p gs m)
    (stacked : Stacked m [.instruction i 0 values] calls) (returns : i.op = .returnValue) :
    Turns host p gs m [.instruction i 0 values] calls
      (leave host (values.headD .zero) (m.resume m.cursor.ip (waiting calls))) := by
  have layered := stacked.layered intact
  have called : callsAfter p gs m = gs.tail := by
    obtain ⟨op, ip, operand, k⟩ := i
    obtain rfl : op = .returnValue := returns
    rw [callsAfter, layered.working]
    rfl
  rw [Turns, called]
  cases calls with
  | nil =>
    rw [leave_last _ (by exact stacked.frames)]
    have none_ : Nested p gs.tail m.frames m.cursor.saved [] := by
      have callers := layered.callers
      rw [stacked.frames, stacked.saved] at callers ⊢
      cases callers
      exact .nobody
    exact ⟨[], [], .halts returns, ⟨[], [], rfl, .idle, none_, layered.inside, layered.depth⟩, by
      simp [fault?]⟩
  | cons c calls =>
    have back : Stacked ((m.resume m.cursor.ip (waiting (c :: calls))).left
        (calls.map (·.frame)) c.ip (calls.map (·.ip))) c.work calls := by
      refine ⟨rfl, rfl, rfl, ?_⟩
      cases stacked.based
      assumption
    obtain ⟨⟨waits, layer⟩, inside, next⟩ := stacked.caller intact
    have shallow : (calls.map (·.frame)).length ≤ maxDepth := by
      have depth := layered.depth
      rw [stacked.frames, List.map_cons, List.length_cons] at depth
      exact Nat.le_of_succ_le depth
    rw [leave_call _ (by exact stacked.frames) (by exact stacked.saved)]
    obtain ⟨frame, ip, work⟩ := c
    -- A caller waits for nothing if the call is a statement, and for an operand if it is a token.
    cases waits with
    | idle =>
      rw [if_pos (back.boundary_iff.mpr rfl)]
      exact ⟨[], calls, .returns returns rfl, ⟨[], _, rfl, .idle, next, inside, shallow⟩, by
        simp [fault?]⟩
    | expression n operands rest =>
      rw [if_neg (mt back.boundary_iff.mp (by simp)), deliver_expression _ (by exact rfl)]
      exact ⟨_, calls, .answers returns rfl,
        ⟨_, _, rfl, layer.of_operands n _, next, inside, shallow⟩,
        by simp [fault?]⟩

theorem statement_turns (intact : Intact p gs m)
    (stacked : Stacked m [.instruction i 0 values] calls) (legal : i.Legal)
    (kind : i.op.isStatement = true) :
    Turns host p gs m [.instruction i 0 values] calls (advance host p m) := by
  have layered := stacked.layered intact
  have working : m.work = .instruction i 0 values :: waiting calls := stacked.working
  have called : callsAfter p gs m = callsBehind p m.frames.length gs i := by
    simp only [callsAfter, working]
  rw [advance_complete working]
  generalize completing : complete host p i values (m.resume m.cursor.ip (waiting calls)) = r
  -- Most statements leave nothing to do, and differ in the address and the world they leave.
  have passes : ∀ ip world, callsBehind p m.frames.length gs i = gs →
      ip = m.cursor.ip ∨ i.target? = some ip → ip ≤ p.words.size →
      Ends r { m.resume ip (waiting calls) with world } →
      Turns host p gs m [.instruction i 0 values] calls r := by
    intro ip world same goes inside ends
    refine ⟨[], calls, ?_, ?_, fun f is_ => (ends.2 f is_).both.1⟩
    · rw [ends.1]
      exact .passes kind goes fun f is_ => (ends.2 f is_).both.2
    · rw [ends.1, called, same]
      exact ⟨[], _, rfl, .idle, layered.callers, inside, layered.depth⟩
  -- A slot that is not there is a fault, and then nothing is stored.
  have stores : ∀ slot (change : Value → Value), callsBehind p m.frames.length gs i = gs →
      i.slot? = some slot → r = (load slot >>= fun old => modify (·.setSlot slot (change old)))
        (m.resume m.cursor.ip (waiting calls)) →
      Turns host p gs m [.instruction i 0 values] calls r := by
    intro slot change same assigns is_
    rcases load_ends slot (m.resume m.cursor.ip (waiting calls)) with ⟨old, loaded⟩ |
      ⟨f, mild, failed⟩
    · rw [bind_ok _ loaded] at is_
      subst is_
      refine ⟨[], _, .stores assigns, ?_, by rintro _ ⟨⟩⟩
      rw [called, same]
      exact ⟨[], _, layered.stored slot _⟩
    · rw [bind_error _ failed] at is_
      subst is_
      exact passes m.cursor.ip m.world same (Or.inl rfl) layered.inside (.error _ mild)
  cases legal with
  | nop =>
    subst completing
    exact passes m.cursor.ip m.world rfl (Or.inl rfl) layered.inside (.ok _)
  | callStatement ip place n =>
    rw [complete] at completing
    rcases @call_ends _ host p ⟨.callStatement, ip, .function place, n⟩ place false gs rfl
      values.reverse (m.resume m.cursor.ip (waiting calls)) with
      ⟨g, found, shallow, enters⟩ | ⟨same, world, ⟨v, answers⟩ | ⟨f, mild, failed⟩⟩
    · rw [← completing, enters]
      exact enter_turns layered rfl .idle .idle found shallow
    · rw [answers] at completing
      subst completing
      exact passes m.cursor.ip world same (Or.inl rfl) layered.inside (.ok _)
    · rw [failed] at completing
      subst completing
      exact passes m.cursor.ip world same (Or.inl rfl) layered.inside (.error _ mild)
  | returnValue =>
    subst completing
    exact leave_turns intact stacked rfl
  | jump _ target _ =>
    obtain ⟨ip, goes, inside, ends⟩ :=
      @jump_ends _ p target (m.resume m.cursor.ip (waiting calls)) layered.inside
    subst completing
    exact passes ip m.world rfl (goes.imp id fun same => congrArg some same.symm) inside ends
  | jumpIfFalse _ target _ =>
    rw [complete] at completing
    cases holds : (values.headD .zero).isTrue with
    | true =>
      rw [holds] at completing
      subst completing
      exact passes m.cursor.ip m.world rfl (Or.inl rfl) layered.inside (.ok _)
    | false =>
      rw [holds] at completing
      obtain ⟨ip, goes, inside, ends⟩ :=
        @jump_ends _ p target (m.resume m.cursor.ip (waiting calls)) layered.inside
      subst completing
      exact passes ip m.world rfl (goes.imp id fun same => congrArg some same.symm) inside ends
  | assign _ slot _ => exact stores slot (fun _ => values.headD .zero) rfl rfl completing.symm
  | assignElement _ slot _ | assignPath _ slot _ =>
    exact stores slot (fun old => old.setPath (values.tail.reverse.map indexOf)
      (values.headD .zero)) rfl rfl completing.symm
  | _ => cases kind

theorem units_turn (intact : Intact p gs m) (stacked : Stacked m work calls) (busy : work ≠ []) :
    Turns host p gs m work calls (advance host p m) := by
  have layered := stacked.layered intact
  cases layered.layer with
  | idle => exact absurd rfl busy
  | statement n values legal kind =>
    cases n with
    | zero => exact statement_turns intact stacked legal kind
    | succ n => exact open_turns layered
  | expression n operands lower =>
    cases n with
    | zero => exact close_turns layered
    | succ n => exact token_turns layered
  | compound n values =>
    cases n with
    | zero => exact compound_turns layered
    | succ n => exact open_turns layered

/-- Every unit of work is one of these. -/
theorem advance_turns (intact : Intact p gs m) (stacked : Stacked m work calls) (busy : work ≠ []) :
    ∃ work' calls', Turn host p m work calls
      (fault? (advance host p m)) (ending (advance host p m)) work' calls' := by
  obtain ⟨work', calls', turn, _⟩ := @units_turn _ host _ _ _ _ _ intact stacked busy
  exact ⟨work', calls', turn⟩

variable (p) in
theorem begin_turns (m : Machine World) :
    (∃ f ip, Stuck p m f ip ∧ (∀ i b, ¬Spans.Statement p.words m.cursor.ip i b) ∧
      beginStatement p m = .error f (m.resume ip m.work)) ∨
    ∃ i c, (Cursor.statement p.words).Gives m.cursor.ip (some i) c ∧ i.op.isStatement = true ∧
      beginStatement p m = .ok () (m.resume c (.instruction i i.expressions [] :: m.work)) := by
  have unspanned : ∀ {e b}, (Cursor.statement p.words).Fails m.cursor.ip e b →
      ∀ i b, ¬Spans.Statement p.words m.cursor.ip i b := by
    rintro e b fails i d ⟨c, gives, _⟩
    exact gives.not_fails fails
  rw [beginStatement, get_bind]
  rcases @Cursor.opcode_onward p.words m.cursor.ip with ⟨op, c, -, at_, first⟩ |
    ⟨e, b, unreadable, inside, fails⟩
  · rw [bind_ok _ (by exact read_gives first)]
    cases kind : op.isStatement with
    | false =>
      exact Or.inl ⟨.unexpectedOpcode op m.cursor.ip .statement, c,
        ⟨trivial, by simp [Fault.Regular], at_⟩,
          unspanned (Cursor.headed_fails first (Cursor.statementRest_refused kind)), rfl⟩
    | true =>
      have rest := @Cursor.statementRest_statement p.words op m.cursor.ip kind
      rcases @Cursor.instruction_onward p.words op m.cursor.ip c with ⟨found, b, -, -, gives⟩ |
        ⟨e, b, unreadable, inside, fails⟩
      · rcases Cursor.instruction_kind (gives []) with ⟨-, simple⟩ | ⟨i, rfl, -, rfl, -⟩
        · rw [Opcode.compound_of_statement kind] at simple
          cases simple
        · exact Or.inr ⟨i, b, Cursor.headed_gives first (rest ▸ gives), kind,
            await_gives _ gives⟩
      · exact Or.inl ⟨.decode e, b, .decode unreadable (by omega),
          unspanned (Cursor.headed_fails first (rest ▸ fails)), await_fails _ fails⟩
  · refine Or.inl ⟨.decode e, b, .decode unreadable inside, unspanned (Cursor.headed_missing fails),
      ?_⟩
    rw [bind_error _ (by exact read_fails fails)]

section

variable (intact : Intact p gs m)
include intact

theorem begin_after (boundary : m.atBoundary = true) :
    After (Intact p gs) (beginStatement p m) := by
  obtain ⟨work, below, layered⟩ := intact
  have at_ := layered.inside
  obtain rfl : work = [] := (boundary_iff layered.working
    ((base_eq m).trans layered.callers.height)).mp boundary
  rcases begin_turns p m with ⟨f, ip, stuck, _, failed⟩ | ⟨i, c, gives, kind, began⟩
  · rw [failed]
    have inside := stuck.inside
    exact ⟨⟨[], below, layered.working, .idle, layered.callers, by
      simp only [resume_ip]; omega, layered.depth⟩, stuck.regular⟩
  · rw [began]
    have inside := (Cursor.statement_onward.far gives).2
    exact ⟨[_], below, congrArg _ layered.working,
      .statement _ _ (Cursor.statement_legal gives) kind, layered.callers, by
        simp only [resume_ip]; omega, layered.depth⟩

theorem advance_after (busy : m.atBoundary = false) :
    After (Intact p (callsAfter p gs m)) (advance host p m) := by
  obtain ⟨work, calls, stacked⟩ := intact_stacked intact
  obtain ⟨_, _, _, intact', regular⟩ := @units_turn _ host _ _ _ _ _ intact stacked
    (stacked.busy busy)
  exact .of_ending regular intact'

theorem begin_intact (boundary : m.atBoundary = true) :
    Intact p gs (ending (beginStatement p m)) := (begin_after intact boundary).ending

theorem advance_intact (busy : m.atBoundary = false) :
    Intact p (callsAfter p gs m) (ending (advance host p m)) := (advance_after intact busy).ending

theorem turn_of_ok (stacked : Stacked m work calls)
    (busy : m.atBoundary = false) (went : advance host p m = .ok () m') :
    ∃ work' calls', Turn host p m work calls none m' work' calls' ∧ Stacked m' work' calls' ∧
      Intact p (callsAfter p gs m) m' := by
  obtain ⟨work', calls', turn⟩ := @advance_turns _ host _ _ _ _ _ intact stacked (stacked.busy busy)
  have intact' := @advance_intact _ host _ _ _ intact busy
  rw [went] at turn intact'
  exact ⟨work', calls', turn, turn.stacked stacked, intact'⟩

theorem turn_of_error {f : Fault} (stacked : Stacked m work calls)
    (busy : m.atBoundary = false) (failed : advance host p m = .error f m') :
    ∃ work' calls', Turn host p m work calls (some f) m' work' calls' ∧
    Stacked m' work' calls' := by
  obtain ⟨work', calls', turn⟩ := @advance_turns _ host _ _ _ _ _ intact stacked (stacked.busy busy)
  rw [failed] at turn
  exact ⟨work', calls', turn, turn.stacked stacked⟩

end

theorem Turn.started {calls' : List Call} {work' : List Work} {fault : Option Fault}
    (turn : Turn host p m work calls fault m' work' calls') : m'.started = m.started := by
  cases turn with
  | stores _ =>
    rw [setSlot_eq]
    rfl
  | _ => rfl

end Units

end Machine

end Scriptlet
