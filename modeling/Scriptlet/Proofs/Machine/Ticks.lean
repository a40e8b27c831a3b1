import Scriptlet.Machine.Step
import Scriptlet.Proofs.Actions
import Scriptlet.Proofs.Code.Rows

/-!
What single units of work do where the code is what a compiler writes. Code stands at an
address as a row of words; reading it moves the address by its length.
-/
namespace Scriptlet

open Actions

theorem Opcode.ofWord?_word (op : Opcode) : Opcode.ofWord? op.word = some op := by
  have small : op.code < 2 ^ 32 := by
    cases op with
    | binary op => cases op with
      | arithmetic op => cases op <;> decide
      | logical c => cases c <;> decide
      | relation r => cases r <;> decide
      | _ => decide
    | unary op => cases op <;> decide
    | _ => decide
  rw [Opcode.ofWord?, Opcode.word, UInt32.toNat_ofNat_of_lt' small, Opcode.ofCode?_code]

namespace Address

variable {a : Address}

theorem flagBits_testBit : ∀ i < 32, (0xF0000000 : UInt32).toNat.testBit i = decide (28 ≤ i) := by
  decide

theorem slotBits_testBit : ∀ i < 28, (0x8FFFFFFF : UInt32).toNat.testBit i = true := by
  decide

theorem flag_testBit (scope : VariableScope) : ∀ i < 28, scope.flag.toNat.testBit i = false := by
  cases scope <;> decide

theorem high_testBit {n k i : Nat} (small : n < 2 ^ k) (high : k ≤ i) : n.testBit i = false :=
  Nat.testBit_lt_two_pow (Nat.lt_of_lt_of_le small (Nat.pow_le_pow_right (by decide) high))

variable (small : a.index.toNat < 2 ^ 28)
include small

theorem pack_toNat : a.pack.toNat = a.scope.flag.toNat ||| a.index.toNat := by
  rw [pack, UInt32.toNat_or, UInt32.toNat_and]
  congr 1
  apply Nat.eq_of_testBit_eq
  intro i
  rw [Nat.testBit_and]
  by_cases low : i < 28
  · rw [slotBits_testBit i low, Bool.and_true]
  · rw [high_testBit small (Nat.not_lt.mp low), Bool.false_and]

theorem pack_flags : a.pack &&& 0xF0000000 = a.scope.flag := by
  apply UInt32.toNat_inj.mp
  rw [UInt32.toNat_and, pack_toNat small]
  apply Nat.eq_of_testBit_eq
  intro i
  rw [Nat.testBit_and, Nat.testBit_or]
  by_cases wide : i < 32
  · rw [flagBits_testBit i wide]
    by_cases low : i < 28
    · simp [flag_testBit a.scope i low, Nat.not_le.mpr low]
    · simp [high_testBit small (Nat.not_lt.mp low), Nat.not_lt.mp low]
  · simp [high_testBit (UInt32.toNat_lt _) (Nat.not_lt.mp wide)]

theorem pack_index : a.pack &&& indexMask = a.index := by
  apply UInt32.toNat_inj.mp
  rw [UInt32.toNat_and, pack_toNat small]
  have mask : indexMask.toNat = 2 ^ 28 - 1 := rfl
  have flag : a.scope.flag.toNat % 2 ^ 28 = 0 := by cases a.scope <;> rfl
  rw [mask, Nat.and_two_pow_sub_one_eq_mod, Nat.or_mod_two_pow, flag, Nat.zero_or,
    Nat.mod_eq_of_lt small]

theorem unpack?_pack : unpack? a.pack = some a := by
  unfold unpack?
  rw [pack_flags small, pack_index small]
  obtain ⟨scope, index⟩ := a
  cases scope <;> rfl

end Address

namespace Code

namespace Head

def opcode : Head → Opcode
  | .call _ => .call
  | .element _ => .elementPath
  | .items => .initializeList
  | .zeros => .createList

def operands (n : Nat) : Head → List UInt32
  | .call place => [.ofNat place, .ofNat n]
  | .element slot => [slot.pack, .ofNat n]
  | .items => [.ofNat n]
  | .zeros => []

theorem words_eq (head : Head) (n : Nat) : head.words n = head.opcode.word :: head.operands n := by
  cases head <;> rfl

def operand : Head → Operand
  | .call place => .function place
  | .element slot => .slot slot
  | .items | .zeros => .none

def instruction (ip n : Nat) (head : Head) : Instruction := ⟨head.opcode, ip, head.operand, n⟩

def Fits (n : Nat) : Head → Prop
  | .call place => place < 2 ^ 32
  | .element slot => slot.index.toNat < 2 ^ 28
  | .items => True
  | .zeros => n = 1

end Head

namespace Plain

def opcode : Plain → Opcode
  | .call _ _ => .callStatement
  | .returnValue _ => .returnValue
  | .assign _ _ => .assign
  | .assignPath _ _ _ => .assignPath

def operands : Plain → List UInt32
  | .call place arguments => [.ofNat place, .ofNat arguments.length]
  | .returnValue _ => []
  | .assign slot _ => [slot.pack]
  | .assignPath slot indexes _ => [slot.pack, .ofNat indexes.length]

theorem front_eq (p : Plain) : p.front = p.opcode.word :: p.operands := by
  cases p <;> rfl

def operand : Plain → Operand
  | .call place _ => .function place
  | .returnValue _ => .none
  | .assign slot _ | .assignPath slot _ _ => .slot slot

def instruction (ip : Nat) (p : Plain) : Instruction := ⟨p.opcode, ip, p.operand, p.parts.length⟩

def Fits : Plain → Prop
  | .call place _ => place < 2 ^ 32
  | .returnValue _ => True
  | .assign slot _ => slot.index.toNat < 2 ^ 28
  | .assignPath slot _ _ => slot.index.toNat < 2 ^ 28

end Plain

end Code

def Holds (code : Array UInt32) (ip : Nat) (ws : List UInt32) : Prop :=
  ∃ before after, code.toList = before ++ (ws ++ after) ∧ before.length = ip

namespace Holds

variable {code : Array UInt32} {ip : Nat} {w : UInt32} {ws vs : List UInt32}

theorem append (holds : Holds code ip (ws ++ vs)) :
    Holds code ip ws ∧ Holds code (ip + ws.length) vs := by
  obtain ⟨before, after, split, start⟩ := holds
  refine ⟨⟨before, vs ++ after, ?_, start⟩, ⟨before ++ ws, after, ?_, ?_⟩⟩
  · simp [split]
  · simp [split]
  · simp [start]

theorem head (holds : Holds code ip (w :: ws)) : code[ip]? = some w := by
  obtain ⟨before, after, split, rfl⟩ := holds
  rw [← Array.getElem?_toList, split]
  simp

theorem tail (holds : Holds code ip (w :: ws)) : Holds code (ip + 1) ws :=
  append (show Holds code ip ([w] ++ ws) from holds) |>.2

theorem le_size (holds : Holds code ip ws) : ip + ws.length ≤ code.size := by
  obtain ⟨before, after, split, rfl⟩ := holds
  rw [← Array.length_toList, split]
  simp

end Holds

namespace Cursor

variable {words : Array UInt32} {ip at_ : Nat} {saved : List Nat} {ws : List UInt32} {target : Nat}

theorem word_ok {w : UInt32} (holds : Holds words ip (w :: ws)) :
    word words ⟨ip, saved⟩ = (.ok w, ⟨ip + 1, saved⟩) := by
  rw [word, holds.head]

theorem number_ok {n : Nat} (small : n < 2 ^ 32) (holds : Holds words ip (.ofNat n :: ws)) :
    number words ⟨ip, saved⟩ = .ok n ⟨ip + 1, saved⟩ := by
  have read : Reading.of (word words) ⟨ip, saved⟩ = .ok (.ofNat n) ⟨ip + 1, saved⟩ := by
    rw [Reading.of, word_ok holds]
  rw [number, bind_ok _ read, UInt32.toNat_ofNat_of_lt' small]
  rfl

theorem address_ok {a : Address} (small : a.index.toNat < 2 ^ 28)
    (holds : Holds words ip (a.pack :: ws)) :
    Reading.of (address words) ⟨ip, saved⟩ = .ok a ⟨ip + 1, saved⟩ := by
  rw [Reading.of, address, word_ok holds]
  simp only [Address.unpack?_pack small]

theorem opcode_ok {op : Opcode} (holds : Holds words ip (op.word :: ws)) :
    Reading.of (opcode words) ⟨ip, saved⟩ = .ok op ⟨ip + 1, saved⟩ := by
  rw [Reading.of, opcode, word_ok holds]
  simp only [Opcode.ofWord?_word]

theorem head_ok {head : Code.Head} {n : Nat} (fits : head.Fits n) (small : n < 2 ^ 32)
    (holds : Holds words ip (head.operands n)) : instruction words head.opcode at_ ⟨ip, saved⟩ =
      .ok (some (head.instruction at_ n)) ⟨ip + (head.operands n).length, saved⟩ := by
  cases head with
  | call place =>
    exact (bind_ok _ (number_ok fits holds)).trans (bind_ok _ (number_ok small holds.tail))
  | element slot =>
    exact (bind_ok _ (address_ok fits holds)).trans (bind_ok _ (number_ok small holds.tail))
  | items =>
    exact bind_ok _ (number_ok small holds)
  | zeros =>
    obtain rfl : n = 1 := fits
    rfl

theorem plain_ok {p : Code.Plain} (fits : p.Fits) (small : p.parts.length < 2 ^ 32)
    (holds : Holds words ip p.operands) : instruction words p.opcode at_ ⟨ip, saved⟩ =
      .ok (some (p.instruction at_)) ⟨ip + p.operands.length, saved⟩ := by
  cases p with
  | call place arguments =>
    exact (bind_ok _ (number_ok fits holds)).trans (bind_ok _ (number_ok small holds.tail))
  | returnValue value => rfl
  | assign slot value =>
    exact bind_ok _ (address_ok fits holds)
  | assignPath slot indexes value =>
    have fewer : indexes.length < 2 ^ 32 := by
      simp only [Code.Plain.parts, List.length_append] at small
      omega
    rw [Code.Plain.opcode, instruction, bind_ok _ (address_ok fits holds),
      bind_ok _ (number_ok fewer holds.tail), Code.Plain.instruction, Code.Plain.parts,
        List.length_append]
    rfl

theorem jump_ok (small : target < 2 ^ 32) (holds : Holds words ip (.ofNat target :: ws)) :
    instruction words .jump at_ ⟨ip, saved⟩ =
      .ok (some ⟨.jump, at_, .address target, 0⟩) ⟨ip + 1, saved⟩ := by
  exact bind_ok _ (number_ok small holds)

theorem jumpIfFalse_ok (small : target < 2 ^ 32) (holds : Holds words ip (.ofNat target :: ws)) :
    instruction words .jumpIfFalse at_ ⟨ip, saved⟩ =
      .ok (some ⟨.jumpIfFalse, at_, .address target, 1⟩) ⟨ip + 1, saved⟩ := by
  exact bind_ok _ (number_ok small holds)

end Cursor

namespace Machine

variable {World : Type} {m : Machine World} {program : Program} {target k ip : Nat}
  {ws : List UInt32} {old v : Value} {a slot : Address} {f : UserFunction} {α : Type} {op : Opcode}

/-- The same calls and variables at another place of the code, with other work. -/
def resume (m : Machine World) (ip : Nat) (work : List Work) : Machine World :=
  { m with cursor := { m.cursor with ip }, work }

@[simp] theorem resume_ip (ip : Nat) (work : List Work) : (m.resume ip work).cursor.ip = ip := rfl

@[simp] theorem resume_work (ip : Nat) (work : List Work) : (m.resume ip work).work = work := rfl

@[simp] theorem resume_frames (ip : Nat) (work : List Work) :
    (m.resume ip work).frames = m.frames := rfl

@[simp] theorem resume_resume (ip ip' : Nat) (work work' : List Work) :
    (m.resume ip work).resume ip' work' = m.resume ip' work' := rfl

theorem resume_self (m : Machine World) : m.resume m.cursor.ip m.work = m := rfl

theorem read_ok {reading : Cursor.Reading α} {a : α}
    (ok : reading m.cursor = .ok a ⟨ip, m.cursor.saved⟩) :
    read reading m = .ok a (m.resume ip m.work) := by
  rw [read, ok]
  rfl

theorem opcode_ok (holds : Holds program.words m.cursor.ip (op.word :: ws)) :
    opcode program m = .ok op (m.resume (m.cursor.ip + 1) m.work) :=
  read_ok (Cursor.opcode_ok holds)

theorem jump_ok (inside : target ≤ program.words.size) :
    read (.of (Cursor.jump program.words target)) m = .ok () (m.resume target m.work) := by
  rw [read, Cursor.Reading.of, Cursor.jump, if_neg (Nat.not_lt.mpr inside)]
  rfl

def value? (m : Machine World) (a : Address) : Option Value :=
  match a.scope, m.frames with
  | .globals, _ => m.globals[a.index.toNat]?
  | .locals, f :: _ => f.locals[a.index.toNat]?
  | .parameters, f :: _ => f.parameters[a.index.toNat]?
  | _, [] => none

theorem frame_ok {f : Frame} {rest : List Frame} (frames : m.frames = f :: rest) :
    frame m = .ok f m := by
  rw [frame, get_bind, frames]
  rfl

theorem load_ok (found : m.value? a = some v) : load a m = .ok v m := by
  obtain ⟨scope, index⟩ := a
  have slots_ok : ∃ values : Array Value,
      slots scope m = .ok values m ∧ values[index.toNat]? = some v := by
    cases scope with
    | globals => exact ⟨m.globals, rfl, found⟩
    | locals =>
      cases frames : m.frames with
      | nil => simp [value?, frames] at found
      | cons f rest =>
        refine ⟨f.locals, ?_, by simpa [value?, frames] using found⟩
        rw [slots]
        exact bind_ok _ (frame_ok frames)
    | parameters =>
      cases frames : m.frames with
      | nil => simp [value?, frames] at found
      | cons f rest =>
        refine ⟨f.parameters, ?_, by simpa [value?, frames] using found⟩
        rw [slots]
        exact bind_ok _ (frame_ok frames)
  obtain ⟨values, taken, at_⟩ := slots_ok
  rw [load, bind_ok _ taken, at_]
  rfl

theorem store_ok (v : Value) (found : m.value? a = some old) :
    store a v m = .ok () (m.setSlot a v) := by
  rw [store, bind_ok _ (load_ok found)]
  rfl

variable {host : Host World} {n : Nat} {operands : List Value} {rest : List Work} {head : Code.Head}
  {depth : Nat}

section

variable (working : m.work = .expression (n + 1) operands :: rest)
include working

theorem advance_expression :
    advance host program m =
      token program (m.resume m.cursor.ip (.expression n operands :: rest)) := by
  rw [advance, get_bind, working]
  rfl

theorem advance_literal {place : Nat}
    (holds : Holds program.words m.cursor.ip (Code.Term.literal place).words)
    (small : place < 2 ^ 32) (found : program.literals[place]? = some v) : advance host program m =
      .ok () (m.resume (m.cursor.ip + 2) (.expression n (v :: operands) :: rest)) := by
  rw [Code.Term.words] at holds
  rw [advance_expression working, token, get_bind,
    bind_ok _ (opcode_ok (by exact holds))]
  simp only
  rw [bind_ok _ (read_ok (Cursor.number_ok small (by exact holds.tail))), found]
  rfl

theorem advance_load
    (holds : Holds program.words m.cursor.ip (Code.Term.load a).words)
    (small : a.index.toNat < 2 ^ 28) (found : m.value? a = some v) : advance host program m =
      .ok () (m.resume (m.cursor.ip + 2) (.expression n (v :: operands) :: rest)) := by
  rw [Code.Term.words] at holds
  rw [advance_expression working, token, get_bind,
    bind_ok _ (opcode_ok (by exact holds))]
  simp only
  rw [bind_ok _ (read_ok (Cursor.address_ok small (by exact holds.tail))),
    bind_ok _ (load_ok (by exact found))]
  rfl

end

theorem advance_binary {op : BinaryOp} {left right : Value}
    (working : m.work = .expression (n + 1) (right :: left :: operands) :: rest)
    (holds : Holds program.words m.cursor.ip (Code.Term.binary op).words) : advance host program m =
      .ok () (m.resume (m.cursor.ip + 1)
        (.expression n (op.apply left right :: operands) :: rest)) := by
  rw [Code.Term.words] at holds
  rw [advance_expression working, token, get_bind,
    bind_ok _ (opcode_ok (by exact holds))]
  rfl

theorem advance_unary {op : UnaryOp} {operand : Value}
    (working : m.work = .expression (n + 1) (operand :: operands) :: rest)
    (holds : Holds program.words m.cursor.ip (Code.Term.unary op).words) : advance host program m =
      .ok () (m.resume (m.cursor.ip + 1)
        (.expression n (op.apply operand :: operands) :: rest)) := by
  rw [Code.Term.words] at holds
  rw [advance_expression working, token, get_bind,
    bind_ok _ (opcode_ok (by exact holds))]
  rfl

theorem await_ok {i : Instruction} {ip' : Nat}
    (reads : Cursor.instruction program.words op ip m.cursor = .ok (some i) ⟨ip', m.cursor.saved⟩) :
    await program op ip m = .ok () (m.resume ip' (.instruction i i.expressions [] :: m.work)) := by
  rw [await, bind_ok _ (read_ok reads)]
  rfl

theorem token_compound (holds : Holds program.words m.cursor.ip (head.opcode.word :: ws)) :
    token program m =
      await program head.opcode m.cursor.ip (m.resume (m.cursor.ip + 1) m.work) := by
  rw [token, get_bind, bind_ok _ (opcode_ok holds)]
  cases head <;> rfl

theorem advance_compound (working : m.work = .expression (n + 1) operands :: rest)
    (holds : Holds program.words m.cursor.ip (head.words k)) (fits : head.Fits k)
    (small : k < 2 ^ 32) :
    advance host program m = .ok () (m.resume (m.cursor.ip + (head.words k).length)
        (.instruction (head.instruction m.cursor.ip k) k [] :: .expression n
          operands :: rest)) := by
  rw [head.words_eq] at holds ⊢
  rw [advance_expression working, token_compound (by exact holds),
    await_ok (Cursor.head_ok fits small (by exact holds.tail))]
  simp [Code.Head.instruction, Nat.add_assoc, Nat.add_comm 1]

theorem beginStatement_plain {p : Code.Plain} (holds : Holds program.words m.cursor.ip p.front)
    (fits : p.Fits) (small : p.parts.length < 2 ^ 32) : beginStatement program m =
      .ok () (m.resume (m.cursor.ip + p.front.length)
        (.instruction (p.instruction m.cursor.ip) p.parts.length [] :: m.work)) := by
  have statement : p.opcode.isStatement = true := by cases p <;> rfl
  rw [p.front_eq] at holds ⊢
  rw [beginStatement, get_bind, bind_ok _ (opcode_ok holds)]
  simp only [statement, Bool.not_true, Bool.false_eq_true, ↓reduceIte]
  rw [await_ok (Cursor.plain_ok fits small (by exact holds.tail))]
  simp [Code.Plain.instruction, Nat.add_assoc, Nat.add_comm 1]

theorem beginStatement_jump (small : target < 2 ^ 32)
    (holds : Holds program.words m.cursor.ip [Opcode.jump.word, .ofNat target]) :
    beginStatement program m =
      .ok () (m.resume (m.cursor.ip + 2)
        (.instruction ⟨.jump, m.cursor.ip, .address target, 0⟩ 0 [] :: m.work)) := by
  rw [beginStatement, get_bind, bind_ok _ (opcode_ok holds)]
  exact await_ok (Cursor.jump_ok small holds.tail)

theorem beginStatement_jumpIfFalse (small : target < 2 ^ 32)
    (holds : Holds program.words m.cursor.ip (Opcode.jumpIfFalse.word :: .ofNat target :: ws)) :
    beginStatement program m =
      .ok () (m.resume (m.cursor.ip + 2)
        (.instruction ⟨.jumpIfFalse, m.cursor.ip, .address target, 1⟩ 1 [] :: m.work)) := by
  rw [beginStatement, get_bind, bind_ok _ (opcode_ok holds)]
  exact await_ok (Cursor.jumpIfFalse_ok small holds.tail)

variable {i : Instruction} {operand : Operand} {values : List Value}

theorem advance_open {count : Nat} (working : m.work = .instruction i (n + 1) values :: rest)
    (small : count < 2 ^ 32) (holds : Holds program.words m.cursor.ip (.ofNat count :: ws)) :
    advance host program m = .ok () (m.resume (m.cursor.ip + 1)
        (.expression count [] :: .instruction i n values :: rest)) := by
  rw [advance, get_bind, working]
  simp only
  rw [set_bind, bind_ok _ (read_ok (Cursor.number_ok small (by exact holds)))]
  rfl

theorem advance_close
    (working : m.work = .expression 0 operands :: .instruction i n values :: rest) :
    advance host program m = .ok () (m.resume m.cursor.ip
        (.instruction i n (operands.headD .zero :: values) :: rest)) := by
  rw [advance, get_bind, working]
  rfl

theorem advance_complete (working : m.work = .instruction i 0 values :: rest) :
    advance host program m = complete host program i values (m.resume m.cursor.ip rest) := by
  rw [advance, get_bind, working]
  rfl

theorem complete_jump (inside : target ≤ program.words.size) :
    complete host program ⟨.jump, ip, .address target, k⟩ values m =
      .ok () (m.resume target m.work) := by
  exact jump_ok inside

theorem complete_jumpIfFalse (inside : target ≤ program.words.size) :
    complete host program ⟨.jumpIfFalse, ip, .address target, k⟩ values m =
      .ok () (if (values.headD .zero).isTrue then m else m.resume target m.work) := by
  change (if !(values.headD .zero).isTrue then
    read (.of (Cursor.jump program.words target)) else pure ()) m = _
  cases (values.headD .zero).isTrue with
  | true => rfl
  | false => exact jump_ok inside

theorem complete_assign (found : m.value? slot = some old) :
    complete host program ⟨.assign, ip, .slot slot, k⟩ values m =
      .ok () (m.setSlot slot (values.headD .zero)) := by
  exact store_ok _ found

theorem complete_assignPath (found : m.value? slot = some old)
    (assigns : op = .assignElement ∨ op = .assignPath) :
    complete host program ⟨op, ip, .slot slot, k⟩ values m = .ok () (m.setSlot slot
        (old.setPath (values.tail.reverse.map indexOf) (values.headD .zero))) := by
  rcases assigns with rfl | rfl <;>
  · change (load slot >>= _) m = _
    rw [bind_ok _ (load_ok found)]
    rfl

theorem deliver_expression (v : Value) (working : m.work = .expression n operands :: rest) :
    deliver v m = .ok () (m.resume m.cursor.ip (.expression n (v :: operands) :: rest)) := by
  have same : m = m.resume m.cursor.ip (.expression n operands :: rest) := by
    rw [← working, resume_self]
  rw [same]
  rfl

section

variable (working : m.work = .expression n operands :: rest)
include working

theorem complete_createList : complete host program ⟨.createList, ip, operand, k⟩ values m =
      .ok () (m.resume m.cursor.ip
        (.expression n (.zeros (indexOf (values.headD .zero)).toNat :: operands) :: rest)) := by
  exact deliver_expression _ working

theorem complete_initializeList : complete host program ⟨.initializeList, ip, operand, k⟩ values m =
      .ok () (m.resume m.cursor.ip (.expression n (.list values.reverse :: operands) :: rest)) := by
  exact deliver_expression _ working

theorem complete_elementPath (found : m.value? slot = some old)
    (selects : op = .element ∨ op = .elementPath) :
    complete host program ⟨op, ip, .slot slot, k⟩ values m = .ok () (m.resume m.cursor.ip
        (.expression n (old.getPath (values.reverse.map indexOf) :: operands) :: rest)) := by
  rcases selects with rfl | rfl <;>
  · change (load slot >>= _) m = _
    rw [bind_ok _ (load_ok found)]
    exact deliver_expression _ working

end

def entered (m : Machine World) (f : UserFunction) (arguments : List Value) : Machine World :=
  { m with
    frames := Frame.ofCall f arguments m.work.length :: m.frames
    cursor := ⟨f.ip.toNat, m.cursor.ip :: m.cursor.saved⟩ }

theorem enter_ok {arguments : List Value} (shallow : m.frames.length < maxDepth)
    (inside : f.ip.toNat ≤ program.words.size) :
    enter program f arguments m = .ok () (m.entered f arguments) := by
  rw [enter, get_bind]
  simp only [Nat.not_le.mpr shallow, ↓reduceIte]
  rw [modify_bind]
  exact jump_ok inside

theorem enter_deep {arguments : List Value} (deep : maxDepth ≤ m.frames.length) :
    enter program f arguments m = .error .callDepthExceeded m := by
  rw [enter, get_bind]
  simp only [deep, ↓reduceIte]
  rfl

def left (m : Machine World) (frames : List Frame) (ip : Nat) (saved : List Nat) : Machine World :=
  { m with frames, cursor := ⟨ip, saved⟩ }

theorem leave_call {f : Frame} {frames : List Frame} {saved : List Nat} (v : Value)
    (active : m.frames = f :: frames) (return_to : m.cursor.saved = ip :: saved) :
    leave host v m =
      if (m.left frames ip saved).atBoundary then
        .ok () { m.left frames ip saved with result := v }
      else deliver v (m.left frames ip saved) := by
  have restore : read (.of Cursor.restore) { m with frames } =
      .ok () (m.left frames ip saved) := by
    rw [read, Cursor.Reading.of, Cursor.restore]
    simp only [return_to]
    rfl
  rw [leave, get_bind, active]
  simp only
  rw [modify_bind, bind_ok _ restore, get_bind]
  split <;> rfl

theorem leave_last (v : Value) (none_active : m.frames = []) :
    leave host v m = .ok () { m with halted := true, world := host.onEnd m.world } := by
  obtain ⟨cursor, frames, globals, work, result, started, halted, world⟩ := m
  cases none_active
  rfl

variable {place : Nat} {arguments : List Value} {wanted : Bool}

theorem call_user (found : program.functions[place]? = some (.user f)) :
    call host program place arguments wanted m = enter program f arguments m := by
  rw [call, found]

theorem call_native {f : NativeFunction} (found : program.functions[place]? = some (.native f)) :
    call host program place arguments wanted m =
      if wanted then deliver (f.apply arguments) m else .ok () m := by
  rw [call, found]
  cases wanted <;> rfl

theorem call_host {name : String} {arity : Arity}
    (found : program.functions[place]? = some (.host name arity)) :
    call host program place arguments wanted m =
      match host.call name arguments m.world with
      | (.ok v, world) =>
        if wanted then deliver v { m with world } else .ok () { m with world }
      | (.error reason, world) => .error (.host name reason) { m with world } := by
  rw [call, found]
  simp only
  rcases answered : host.call name arguments m.world with ⟨answer, world⟩
  cases answer with
  | ok v =>
    have asked : ask host name arguments m = .ok v { m with world } := by
      rw [ask, get_bind, answered]
      rfl
    rw [bind_ok _ asked]
    cases wanted <;> rfl
  | error reason =>
    have asked : ask host name arguments m = .error (.host name reason) { m with world } := by
      rw [ask, get_bind, answered]
      rfl
    rw [bind_error _ asked]

variable (host) in
def announced (m : Machine World) : Machine World :=
  if m.started then m else { m with started := true, world := host.onStart m.world }

theorem announced_halted (m : Machine World) : (m.announced host).halted = m.halted := by
  unfold announced
  split <;> rfl

/-- The part of a step behind the beginning of a statement. -/
def goOn (host : Host World) (program : Program) : Action World Bool := do
  let m ← get
  workOff host program m.frames.length (m.workLeft program)
  return !(← get).halted

theorem step_halted (halted : m.halted = true) : step host program m = .ok false m := by
  rw [step, get_bind]
  simp only [halted, ↓reduceIte]
  rfl

theorem step_announced (running : m.halted = false) :
    step host program m =
      if (m.announced host).atBoundary then
        if (m.announced host).cursor.atEnd program.words then
          (halt host >>= fun _ => pure false) (m.announced host)
        else (beginStatement program >>= fun _ => goOn host program) (m.announced host)
      else goOn host program (m.announced host) := by
  rw [step, get_bind]
  simp only [running, Bool.false_eq_true, ↓reduceIte]
  rw [start, modify_bind, get_bind]
  change (if (m.announced host).atBoundary = true then (_ : Action World Bool) else _) _ = _
  split
  · rw [get_bind]
    change (if (m.announced host).cursor.atEnd program.words = true then
      (_ : Action World Bool) else _) _ = _
    split <;> rfl
  · rfl

def Working (depth : Nat) (m : Machine World) : Prop :=
  m.halted = false ∧ m.frames.length = depth ∧ m.atBoundary = false

theorem working_iff :
    (!m.halted && m.frames.length == depth && !m.atBoundary) = true ↔ Working depth m := by
  simp [Working, and_assoc]

theorem workOff_idle (idle : ¬Working depth m) (fuel : Nat) :
    workOff host program depth fuel m = .ok () m := by
  cases fuel with
  | zero => rfl
  | succ fuel =>
    rw [workOff, get_bind]
    simp only [mt working_iff.mp idle, Bool.false_eq_true, ↓reduceIte]
    rfl

theorem workOff_working (working : Working depth m) (fuel : Nat) :
    workOff host program depth (fuel + 1) m =
      (advance host program >>= fun _ => workOff host program depth fuel) m := by
  rw [workOff, get_bind]
  simp only [working_iff.mpr working, ↓reduceIte]

def Leaves {α : Type} (P : Machine World → Prop) (E : Fault → Machine World → Prop) :
    EStateM.Result Fault (Machine World) α → Prop
  | .ok _ m => P m
  | .error f m => E f m

/-- Every unit of work leaves a machine with the property behind if it succeeds. -/
structure Upheld (host : Host World) (program : Program) (P : Machine World → Prop)
    (E : Fault → Machine World → Prop) : Prop where
  announced : ∀ {m}, P m → P (m.announced host)
  halts : ∀ {m}, P m → m.halted = false → P { m with halted := true, world := host.onEnd m.world }
  begins : ∀ {m}, P m → m.halted = false → m.atBoundary = true →
    Leaves P E (beginStatement program m)
  advances : ∀ {m}, P m → m.halted = false → m.atBoundary = false →
    Leaves P E (advance host program m)

variable {P : Machine World → Prop} {E : Fault → Machine World → Prop}

theorem Leaves.bind {β : Type} {x : Action World α} {f : α → Action World β}
    (first : Leaves P E (x m)) (rest : ∀ a m', P m' → Leaves P E (f a m')) :
    Leaves P E ((x >>= f) m) := by
  cases ran : x m with
  | ok a m' =>
    rw [ran] at first
    rw [bind_ok _ ran]
    exact rest a m' first
  | error e m' =>
    rw [ran] at first
    rw [bind_error _ ran]
    exact first

namespace Upheld

variable (upheld : Upheld host program P E)
include upheld

theorem workOff (depth fuel : Nat) (holds : P m) :
    Leaves P E (Machine.workOff host program depth fuel m) := by
  induction fuel generalizing m with
  | zero => exact holds
  | succ n ih =>
    by_cases working : Working depth m
    · rw [workOff_working working]
      exact (upheld.advances holds working.1 working.2.2).bind fun _ _ => ih
    · rw [workOff_idle working]
      exact holds

theorem goOn (holds : P m) : Leaves P E (Machine.goOn host program m) := by
  rw [Machine.goOn, get_bind]
  exact (upheld.workOff _ _ holds).bind fun _ _ holds' => holds'

theorem step_of_announced (stays : m.halted = true → P m)
    (holds : P (m.announced host)) : Leaves P E (Machine.step host program m) := by
  cases running : m.halted with
  | true =>
    rw [step_halted running]
    exact stays running
  | false =>
    have runs : (m.announced host).halted = false := (announced_halted m).trans running
    rw [step_announced running]
    split
    · rename_i boundary
      split
      · exact upheld.halts holds runs
      · exact (upheld.begins holds runs boundary).bind fun _ _ => upheld.goOn
    · exact upheld.goOn holds

theorem step (holds : P m) : Leaves P E (Machine.step host program m) :=
  upheld.step_of_announced (fun _ => holds) (upheld.announced holds)

theorem runFor_of_step (n : Nat) (first : Leaves P E (Machine.step host program m)) :
    Leaves P E (Machine.runFor host program (n + 1) m) := by
  induction n generalizing m with
  | zero => exact first.bind fun more m' holds => by cases more <;> exact holds
  | succ n ih =>
    refine first.bind fun more m' holds => ?_
    cases more with
    | true => exact ih (upheld.step holds)
    | false => exact holds

theorem runFor (n : Nat) (holds : P m) : Leaves P E (Machine.runFor host program n m) := by
  cases n with
  | zero => exact holds
  | succ n => exact upheld.runFor_of_step n (upheld.step holds)

end Upheld

end Machine

end Scriptlet
