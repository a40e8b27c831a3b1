import Scriptlet.Compile.Expression
import Scriptlet.Proofs.Actions
import Scriptlet.Proofs.Code.Terms

/-!
What the basic steps of compiling do to a session. Tables only grow, code is appended, and
what an expression must leave alone stays as it was. A step that emits words says which, and
how many opcodes of its own level are among them; such statements compose.
-/
namespace Scriptlet

open Actions Code

def Token.cost (t : Token) : Nat := if t.kind = .endOfFile then 0 else 1

namespace TokenStream

def ahead (s : TokenStream) : Nat := s.rest.length + (s.pushed.map Token.cost).getD 0

theorem next_ahead (s : TokenStream) : s.next.2.ahead + s.next.1.cost ≤ s.ahead := by
  unfold next
  cases pushed : s.pushed with
  | some t => simp [ahead, pushed]
  | none =>
    simp only [scan, ahead, pushed, Option.map_none, Option.getD_none, Nat.add_zero]
    by_cases last : (Token.scan s.rest s.line).token.kind = .endOfFile
    · simpa [Token.cost, last] using Token.scan_rest_le s.rest s.line
    · have := Token.scan_rest_lt s.rest s.line last
      simp only [Token.cost, last, ↓reduceIte]
      omega

theorem unget_ahead (s : TokenStream) (t : Token) : (s.unget t).ahead ≤ s.ahead + t.cost := by
  simp only [unget, ahead, Option.map_some, Option.getD_some]
  omega

theorem next_pushed (s : TokenStream) : s.next.2.pushed = none := by
  unfold next
  split <;> rfl

theorem peek_ahead (s : TokenStream) : s.peek.2.ahead ≤ s.ahead := by
  have taken := s.next_ahead
  have back := s.next.2.unget_ahead s.next.1
  change (s.next.2.unget s.next.1).ahead ≤ s.ahead
  omega

theorem nextPastBreaks_ahead (s : TokenStream) :
    s.nextPastBreaks.2.ahead + s.nextPastBreaks.1.cost ≤ s.ahead := by
  fun_induction nextPastBreaks s with
  | case1 s read line_break shorter ih =>
    have taken : read.2.ahead + read.1.cost ≤ s.ahead := s.next_ahead
    omega
  | case2 s read other => exact s.next_ahead

end TokenStream

theorem Arithmetic.onAtom_isList (op : Arithmetic) (a : Atom) (b : Value) :
    (op.onAtom a b).isList = false := by
  unfold onAtom
  split
  · split <;> rfl
  · rfl
  · split <;> rfl

theorem BinaryOp.apply_isList (op : BinaryOp) (a b : Value) : (op.apply a b).isList = false := by
  cases op with
  | arithmetic op =>
    change (op.apply a b).isList = false
    fun_induction Arithmetic.apply op a b with
    | case1 => exact op.onAtom_isList _ _
    | case2 => exact op.onAtom_isList _ _
    | case3 _ _ _ ih => exact ih
  | _ => rfl

theorem UnaryOp.apply_isList (op : UnaryOp) (v : Value) : (op.apply v).isList = false := by
  cases op with
  | negate =>
    change v.negate.isList = false
    fun_induction Value.negate v with
    | case1 a => rfl
    | case2 => rfl
    | case3 v rest ih => exact ih
  | not => rfl

theorem Token.literal?_isList {t : Token} {v : Value} (literal : t.literal? = some v) :
    v.isList = false := by
  unfold literal? at literal
  split at literal <;> cases literal <;> rfl

namespace Compile

variable {name : String} {a : Address} {x : Scope} {k : Constant} {ws : List UInt32} {place i : Nat}
  {t : Token} {u : Unit} {s s' s'' : Session} {kind : Token.Kind} {α : Type} {n arguments : Nat}
  {v : Value} {table : NameTable α}

structure Scope.Grows (x y : Scope) : Prop where
  name : y.name = x.name
  place : y.place = x.place
  ip : y.ip = x.ip
  parameters : y.parameters = x.parameters
  locals : ∃ more, y.locals = x.locals ++ more

theorem Scope.Grows.refl (x : Scope) : Scope.Grows x x := ⟨rfl, rfl, rfl, rfl, [], by simp⟩

theorem Scope.Grows.trans {y z : Scope} (first : Scope.Grows x y) (second : Scope.Grows y z) :
    Scope.Grows x z := by
  obtain ⟨more, locals⟩ := first.locals
  obtain ⟨further, locals'⟩ := second.locals
  refine ⟨second.name.trans first.name, second.place.trans first.place, second.ip.trans first.ip,
    second.parameters.trans first.parameters, more ++ further, ?_⟩
  rw [locals', locals, List.append_assoc]

/-- The tables of a session only grow. New functions are pending, and new literals are no lists. -/
structure Grows (s s' : Session) : Prop where
  functions : ∃ more, s'.functions = s.functions ++ more ∧
    ∀ entry ∈ more, ∃ name, entry.2 = Callee.pending name
  calls : ∃ more, s'.calls.toList = s.calls.toList ++ more
  globals : s'.globals = s.globals
  literals : ∃ more, s'.literals.toList = s.literals.toList ++ more ∧ ∀ v ∈ more, v.isList = false
  scope : Option.Rel Scope.Grows s.scope s'.scope

def Session.quiet (s : Session) :=
  (s.errors, s.maxErrors, s.inHeader, s.unterminated, s.budget, s.writer.outer,
    s.scope.map fun x => (x.labels, x.loops))

def Session.words (s : Session) : List UInt32 := s.writer.entries.toList.map (·.word)

/-- The session appends words, `k` of them opcodes of the level where it is. -/
structure Emits (s s' : Session) (ws : List UInt32) (k : Nat) : Prop where
  grows : Grows s s'
  quiet : s'.quiet = s.quiet
  words : s'.words = s.words ++ ws
  count : s'.writer.count = s.writer.count + k

theorem scope_rel_refl (x : Option Scope) : Option.Rel Scope.Grows x x := by
  cases x with
  | none => exact .none
  | some x => exact .some (.refl x)

theorem scope_rel_trans {x y z : Option Scope} (first : Option.Rel Scope.Grows x y)
    (second : Option.Rel Scope.Grows y z) : Option.Rel Scope.Grows x z := by
  cases first with
  | none => exact second
  | some one =>
    cases second with
    | some two => exact .some (one.trans two)

theorem Grows.refl (s : Session) : Grows s s :=
  ⟨⟨[], by simp⟩, ⟨[], by simp⟩, rfl, ⟨[], by simp⟩, scope_rel_refl _⟩

theorem Grows.trans (first : Grows s s') (second : Grows s' s'') : Grows s s'' := by
  obtain ⟨new, functions, pending⟩ := first.functions
  obtain ⟨new', functions', pending'⟩ := second.functions
  obtain ⟨calls, called⟩ := first.calls
  obtain ⟨calls', called'⟩ := second.calls
  obtain ⟨values, pool, atoms⟩ := first.literals
  obtain ⟨values', pool', atoms'⟩ := second.literals
  refine ⟨⟨new ++ new', ?_, ?_⟩, ⟨calls ++ calls', ?_⟩, second.globals.trans first.globals,
    ⟨values ++ values', ?_, List.forall_mem_append.mpr ⟨atoms, atoms'⟩⟩,
    scope_rel_trans first.scope second.scope⟩
  · rw [functions', functions, List.append_assoc]
  · intro entry member
    rcases List.mem_append.mp member with old | added
    · exact pending entry old
    · exact pending' entry added
  · rw [called', called, List.append_assoc]
  · rw [pool', pool, List.append_assoc]

theorem Emits.refl (s : Session) : Emits s s [] 0 := ⟨.refl s, rfl, by simp, by simp⟩

theorem Emits.trans {vs : List UInt32} {k l : Nat} (first : Emits s s' ws k)
    (second : Emits s' s'' vs l) : Emits s s'' (ws ++ vs) (k + l) := by
  refine ⟨first.grows.trans second.grows, second.quiet.trans first.quiet, ?_, ?_⟩
  · rw [second.words, first.words, List.append_assoc]
  · rw [second.count, first.count, Nat.add_assoc]

def Session.slotCount (s : Session) : VariableScope → Nat
  | .globals => s.globals.length
  | .locals => (s.scope.map (·.locals.length)).getD 0
  | .parameters => (s.scope.map (·.parameters.length)).getD 0

def Session.HasSlot (s : Session) (a : Address) : Prop :=
  ∃ i < s.slotCount a.scope, a = Scope.slot a.scope i

def Session.MayAssign (s : Session) (a : Address) : Prop :=
  a.scope = .globals → (s.globals.entries[a.index.toNat]?).any (·.readOnly) = false

/-- The function is offered and takes so many arguments, or it is not and the call is noted. -/
def Session.Admits (s : Session) (place arguments : Nat) : Prop :=
  place < s.functions.length ∧
    ((∃ f, s.functions.entries[place]? = some (.offered f) ∧
      (f.arity?.getD .any).admits arguments = true) ∨
    (∀ f, s.functions.entries[place]? ≠ some (.offered f)) ∧
      ∃ c ∈ s.calls.toList, c.place = place ∧ c.arguments = arguments)

def Session.references (s : Session) : References where
  literal place := place < s.literals.size
  slot := s.HasSlot
  target a := s.HasSlot a ∧ s.MayAssign a
  call := s.Admits

section

variable (grows : Grows s s')
include grows

theorem Grows.slotCount_le (scope : VariableScope) : s.slotCount scope ≤ s'.slotCount scope := by
  have rel := grows.scope
  cases scope with
  | globals => simp [Session.slotCount, grows.globals]
  | locals =>
    simp only [Session.slotCount]
    generalize s.scope = x, s'.scope = y at rel
    cases rel with
    | none => simp
    | some same =>
      obtain ⟨more, locals⟩ := same.locals
      simp [locals]
  | parameters =>
    simp only [Session.slotCount]
    generalize s.scope = x, s'.scope = y at rel
    cases rel with
    | none => simp
    | some same => simp [same.parameters]

theorem Grows.entries_of_lt (old : place < s.functions.length) :
    s'.functions.entries[place]? = s.functions.entries[place]? := by
  obtain ⟨more, functions, _⟩ := grows.functions
  rw [functions, NameTable.entries, NameTable.entries, List.map_append,
    List.getElem?_append_left (by simpa using old)]

theorem Grows.functions_le : s.functions.length ≤ s'.functions.length := by
  obtain ⟨more, functions, _⟩ := grows.functions
  simp [functions]

theorem Grows.literals_le : s.literals.size ≤ s'.literals.size := by
  obtain ⟨more, literals, _⟩ := grows.literals
  rw [← Array.length_toList, ← Array.length_toList, literals]
  simp

theorem Grows.literal_of {w : Value} (found : s.literals[i]? = some w) :
    s'.literals[i]? = some w := by
  obtain ⟨more, literals, _⟩ := grows.literals
  rw [← Array.getElem?_toList] at found ⊢
  rw [literals, List.getElem?_append_left (List.getElem?_eq_some_iff.mp found).1]
  exact found

theorem Grows.hasSlot (has : s.HasSlot a) : s'.HasSlot a := by
  obtain ⟨i, bound, same⟩ := has
  exact ⟨i, Nat.lt_of_lt_of_le bound (grows.slotCount_le a.scope), same⟩

theorem Grows.admits {place : Nat} (admits : s.Admits place arguments) :
    s'.Admits place arguments := by
  obtain ⟨old, offered | ⟨other, c, noted, same⟩⟩ := admits
  · refine ⟨Nat.lt_of_lt_of_le old grows.functions_le, Or.inl ?_⟩
    rwa [grows.entries_of_lt old]
  · obtain ⟨more, calls⟩ := grows.calls
    refine ⟨Nat.lt_of_lt_of_le old grows.functions_le, Or.inr ⟨?_, c, by simp [calls, noted], same⟩⟩
    rwa [grows.entries_of_lt old]

theorem Grows.within : s.references.Within s'.references where
  literal _ old := Nat.lt_of_lt_of_le old grows.literals_le
  slot _ has := grows.hasSlot has
  target a has := ⟨grows.hasSlot has.1, by
    have may := has.2
    rwa [Session.MayAssign, ← grows.globals] at may⟩
  call _ _ admits := grows.admits admits

end

/-- The variables of the function and the tokens ahead, which new variables are made of. -/
def Session.load (s : Session) : Nat :=
  (s.scope.map fun x => x.parameters.length + x.locals.length).getD 0 + s.tokens.ahead

def Reads (s s' : Session) : Prop :=
  ∃ tokens line, s' = { s with tokens, writer := s.writer.setLine line }

theorem Reads.trans (first : Reads s s') (second : Reads s' s'') : Reads s s'' := by
  obtain ⟨tokens, line, rfl⟩ := first
  obtain ⟨tokens', line', rfl⟩ := second
  exact ⟨tokens', line', rfl⟩

theorem Reads.emits (reads : Reads s s') : Emits s s' [] 0 := by
  obtain ⟨tokens, line, rfl⟩ := reads
  exact ⟨{ Grows.refl s with }, rfl, by simp [Session.words, CodeWriter.setLine], rfl⟩

theorem nextToken_eq (s : Session) :
    nextToken s = .ok s.tokens.next.1
      { s with
        tokens := s.tokens.next.2
        writer := s.writer.setLine s.tokens.next.1.line } := rfl

theorem nextToken_reads (ok : nextToken s = .ok t s') : Reads s s' ∧ s'.load + t.cost ≤ s.load := by
  obtain ⟨rfl, rfl⟩ := EStateM.Result.ok.inj ((nextToken_eq s).symm.trans ok)
  refine ⟨⟨_, _, rfl⟩, ?_⟩
  have := s.tokens.next_ahead
  simp only [Session.load]
  omega

theorem nextPastBreaks_reads (ok : nextPastBreaks s = .ok t s') :
    Reads s s' ∧ s'.load + t.cost ≤ s.load := by
  cases ok
  refine ⟨⟨_, _, rfl⟩, ?_⟩
  have := s.tokens.nextPastBreaks_ahead
  simp only [Session.load]
  omega

theorem unget_reads (ok : unget t s = .ok u s') : Reads s s' ∧ s'.load ≤ s.load + t.cost := by
  cases ok
  refine ⟨⟨_, s.writer.line, rfl⟩, ?_⟩
  have := s.tokens.unget_ahead t
  simp only [Session.load]
  omega

theorem peekKind_eq (s : Session) :
    peekKind s = .ok s.tokens.peek.1.kind { s with tokens := s.tokens.peek.2 } := rfl

theorem peekKind_reads (ok : peekKind s = .ok kind s') : Reads s s' ∧ s'.load ≤ s.load := by
  obtain ⟨rfl, rfl⟩ := EStateM.Result.ok.inj ((peekKind_eq s).symm.trans ok)
  refine ⟨⟨_, s.writer.line, rfl⟩, ?_⟩
  have := s.tokens.peek_ahead
  simp only [Session.load]
  omega

theorem accept_reads {found : Bool} (ok : accept kind s = .ok found s') :
    Reads s s' ∧ s'.load ≤ s.load := by
  obtain ⟨ahead, s₁, peeked, ok⟩ := of_bind_ok ok
  have first := peekKind_reads peeked
  split at ok
  · obtain ⟨t, s₂, taken, ok⟩ := of_bind_ok ok
    cases ok
    have second := nextToken_reads taken
    exact ⟨first.1.trans second.1, by omega⟩
  · cases ok
    exact first

theorem expect_reads {p : Problem} (ok : expect kind p s = .ok t s') :
    Reads s s' ∧ t.kind = kind ∧ s'.load + t.cost ≤ s.load := by
  obtain ⟨t', s₁, taken, ok⟩ := of_bind_ok ok
  have first := nextToken_reads taken
  split at ok
  · cases ok
    exact ⟨first.1, ‹_›, first.2⟩
  · obtain ⟨_, s₂, _, ok⟩ := of_bind_ok ok
    cases ok

theorem cost_of_kind (same : t.kind = kind) (more : kind ≠ .endOfFile) : t.cost = 1 := by
  simp [Token.cost, same, more]

theorem emit_eq (op : Opcode) (s : Session) :
    emit op s = .ok s.writer.ip { s with writer := s.writer.opcode op } := rfl

theorem emitOperand_eq (w : UInt32) (s : Session) :
    emitOperand w s = .ok s.writer.ip { s with writer := s.writer.operand w } := rfl

theorem emitWith_eq (op : Opcode) (w : UInt32) (s : Session) :
    emitWith op w s = .ok () { s with writer := (s.writer.opcode op).operand w } := rfl

theorem patch_eq (address : Nat) (w : UInt32) (s : Session) :
    patch address w s = .ok () { s with writer := s.writer.patch address w } := rfl

theorem words_length (s : Session) : s.words.length = s.writer.ip := by
  simp [Session.words, CodeWriter.ip]

theorem Emits.ip {s s' : Session} {k : Nat} (emits : Emits s s' ws k) :
    s'.writer.ip = s.writer.ip + ws.length := by
  rw [← words_length, ← words_length, emits.words, List.length_append]

theorem writer_emits (s : Session) {writer : CodeWriter} {k : Nat}
    (words : writer.entries.toList.map (·.word) = s.words ++ ws)
    (count : writer.count = s.writer.count + k) (outer : writer.outer = s.writer.outer) :
    Emits s { s with writer } ws k :=
  ⟨{ Grows.refl s with }, by simp [Session.quiet, outer], words, count⟩

theorem opcode_emits (op : Opcode) (s : Session) :
    Emits s { s with writer := s.writer.opcode op } [op.word] 1 :=
  writer_emits s (by simp [CodeWriter.opcode, Session.words]) rfl rfl

theorem operand_emits (w : UInt32) (s : Session) :
    Emits s { s with writer := s.writer.operand w } [w] 0 :=
  writer_emits s (by simp [CodeWriter.operand, Session.words]) rfl rfl

theorem emitWith_emits {op : Opcode} {w : UInt32} (ok : emitWith op w s = .ok u s') :
    Emits s s' [op.word, w] 1 ∧ s'.load = s.load := by
  cases ok
  exact ⟨(opcode_emits op s).trans (operand_emits w _), rfl⟩

theorem replace_words (writer : CodeWriter) (isOpcode : Bool) (address : Nat) (w : UInt32) :
    (writer.replace isOpcode address w).entries.toList.map (·.word) =
      (writer.entries.toList.map (·.word)).set address w := by
  rw [CodeWriter.replace, Array.toList_modify]
  generalize writer.entries.toList = entries
  induction entries generalizing address with
  | nil => simp
  | cons e entries ih =>
    cases address with
    | zero => simp
    | succ n => simpa using ih n

theorem patch_words (writer : CodeWriter) (address : Nat) (w : UInt32) :
    (writer.patch address w).entries.toList.map (·.word) =
      (writer.entries.toList.map (·.word)).set address w :=
  replace_words writer false address w

theorem set_kept (before ws : List UInt32) (w v : UInt32) :
    (before ++ w :: ws).set before.length v = before ++ v :: ws := by
  simp

def Session.opened (s : Session) : Session :=
  { s with writer := (s.writer.operand 0).openScope }

def Session.closed (address : Nat) (s : Session) : Session :=
  { s with writer := s.writer.closeScope.patch address (.ofNat s.writer.count) }

theorem counted_eq (rule : Compile α) (s : Session) :
    counted rule s = match rule s.opened with
      | .ok a s' => .ok a (s'.closed s.writer.ip)
      | .error stop s' => .error stop (s'.closed s.writer.ip) := by
  rw [counted, bind_ok _ (emitOperand_eq 0 s), modifyWriter, modify_bind]
  change (attempt rule >>= _) s.opened = _
  cases ran : rule s.opened with
  | ok a s' =>
    rw [bind_ok _ (show attempt rule s.opened = .ok (.ok a) s' by rw [attempt, ran])]; rfl
  | error e s' =>
    rw [bind_ok _ (show attempt rule s.opened = .ok (.error e) s' by rw [attempt, ran])]; rfl

theorem counted_ok {rule : Compile α} {a : α} (ok : counted rule s = .ok a s') :
    ∃ t, rule s.opened = .ok a t ∧ s' = t.closed s.writer.ip := by
  rw [counted_eq] at ok
  cases ran : rule s.opened with
  | ok b t =>
    rw [ran] at ok
    cases ok
    exact ⟨t, rfl, rfl⟩
  | error e t =>
    rw [ran] at ok
    cases ok

theorem attempt_ok {rule : Compile α} {a : α} (ok : attempt rule s = .ok (.ok a) s') :
    rule s = .ok a s' := by
  rw [attempt] at ok
  cases ran : rule s with
  | ok b t =>
    rw [ran] at ok
    cases ok
    rfl
  | error stop t =>
    rw [ran] at ok
    cases ok

theorem settle_ok {outcome : Except Stop α} {a : α} (ok : settle outcome s = .ok a s') :
    outcome = .ok a ∧ s' = s := by
  cases outcome with
  | ok b =>
    cases ok
    exact ⟨rfl, rfl⟩
  | error stop => cases ok

theorem closed_emits {t : Session} {k : Nat} (emits : Emits s.opened t ws k) :
    Emits s (t.closed s.writer.ip) (.ofNat k :: ws) 0 := by
  have quiet := emits.quiet
  simp only [Session.quiet, Prod.mk.injEq] at quiet
  obtain ⟨errors, maxErrors, inHeader, unterminated, budget, outer, scope⟩ := quiet
  have outer : t.writer.outer = s.writer.count :: s.writer.outer := outer
  have count : t.writer.count = k := by
    simpa [Session.opened, CodeWriter.openScope] using emits.count
  have words : t.words = s.words ++ 0 :: ws := by
    simpa [Session.opened, Session.words, CodeWriter.openScope,
      CodeWriter.operand] using emits.words
  have closed : t.writer.closeScope =
      { t.writer with count := s.writer.count, outer := s.writer.outer } := by
    rw [CodeWriter.closeScope, outer]
  refine ⟨{ emits.grows with }, ?_, ?_, ?_⟩
  · simp only [Session.quiet, Session.closed, CodeWriter.patch, CodeWriter.replace, closed,
      Prod.mk.injEq]
    exact ⟨errors, maxErrors, inHeader, unterminated, budget, trivial, scope⟩
  · rw [Session.words, Session.closed, patch_words, closed, count, ← words_length]
    change t.words.set s.words.length _ = _
    rw [words, set_kept]
  · simp [Session.closed, CodeWriter.patch, CodeWriter.replace, closed]

theorem prefixedByCount_ok {rule : Compile Nat} (ok : prefixedByCount rule s = .ok n s') :
    ∃ t, rule { s with writer := s.writer.operand 0 } = .ok n t ∧
      s' = { t with writer := t.writer.patch s.writer.ip (.ofNat n) } := by
  rw [prefixedByCount, bind_ok _ (emitOperand_eq 0 s)] at ok
  obtain ⟨m, t, ran, ok⟩ := of_bind_ok ok
  cases ok
  exact ⟨t, ran, rfl⟩

theorem prefixed_emits {t : Session}
    (emits : Emits { s with writer := s.writer.operand 0 } t ws 0) :
    Emits s { t with writer := t.writer.patch s.writer.ip (.ofNat n) } (.ofNat n :: ws) 0 := by
  have words : t.words = s.words ++ 0 :: ws := by
    simpa [Session.words, CodeWriter.operand] using emits.words
  refine ⟨{ emits.grows with }, emits.quiet, ?_, emits.count⟩
  rw [Session.words, patch_words, ← words_length]
  change t.words.set s.words.length _ = _
  rw [words, set_kept]

/-- A literal that stands for a value: the value itself or one that is the same. -/
def StandsFor (w v : Value) : Prop := w = v ∨ w.same v = true

def Distinct (pool : Array Value) : Prop := pool.toList.Pairwise fun v w => v.same w = false

/-- What is added to a pool is at these places, and it is the same as nothing in front of it. -/
structure Fills (pool pool' : Array Value) (places : List Nat) : Prop where
  covers : ∀ i, pool.size ≤ i → i < pool'.size → i ∈ places
  distinct : Distinct pool → Distinct pool'

namespace Fills

variable {pool pool' pool'' : Array Value} {places more : List Nat}

theorem refl (pool : Array Value) (places : List Nat) : Fills pool pool places :=
  ⟨fun _ old new => absurd new (Nat.not_lt_of_le old), id⟩

theorem trans (first : Fills pool pool' places) (second : Fills pool' pool'' more) :
    Fills pool pool'' (places ++ more) := by
  refine ⟨fun i old new => ?_, fun distinct => second.distinct (first.distinct distinct)⟩
  by_cases between : i < pool'.size
  · exact List.mem_append_left _ (first.covers i old between)
  · exact List.mem_append_right _ (second.covers i (Nat.le_of_not_lt between) new)

theorem mono (fills : Fills pool pool' places) (wider : ∀ i ∈ places, i ∈ more) :
    Fills pool pool' more :=
  ⟨fun i old new => wider i (fills.covers i old new), fills.distinct⟩

end Fills

theorem Reads.literals (reads : Reads s s') : s'.literals = s.literals := by
  obtain ⟨tokens, line, rfl⟩ := reads
  rfl

theorem intern_ok {place : UInt32} (ok : intern v s = .ok place s') :
    ∃ i w more, place = .ofNat i ∧ s'.literals[i]? = some w ∧ StandsFor w v ∧
      s' = { s with literals := s'.literals } ∧ s'.literals = s.literals ++ more ∧
      (∀ w ∈ more.toList, w = v) ∧ Fills s.literals s'.literals [i] := by
  rw [intern, get_bind] at ok
  cases found : s.literals.findIdx? (·.same v) with
  | some i =>
    rw [found] at ok
    cases ok
    obtain ⟨inside, same, _⟩ := Array.findIdx?_eq_some_iff_getElem.mp found
    exact ⟨i, s.literals[i], #[], rfl, Array.getElem?_eq_getElem inside, Or.inr same, rfl, by simp,
      by simp, .refl _ _⟩
  | none =>
    rw [found] at ok
    cases ok
    refine ⟨s.literals.size, v, #[v], rfl, by simp, Or.inl rfl, rfl, by simp, by simp, ?_, ?_⟩
    · intro i old new
      rw [Array.size_push] at new
      exact List.mem_singleton.mpr (by omega)
    · intro distinct
      have other := Array.findIdx?_eq_none_iff.mp found
      rw [Distinct, Array.toList_push, List.pairwise_append]
      refine ⟨distinct, List.pairwise_singleton _ _, fun w member u last => ?_⟩
      rw [List.mem_singleton.mp last]
      exact other w (Array.mem_toList_iff.mp member)

structure Single (s s' : Session) (k : Constant) : Prop where
  rest : ∃ tokens writer literals, s' = { s with tokens, writer, literals }
  entries : ∃ (i : Nat) (w : Value) (line line' : UInt32), s'.writer.entries =
    (s.writer.entries.push ⟨Opcode.literal.word, true, line⟩).push ⟨.ofNat i, false, line'⟩ ∧
    s'.literals[i]? = some w ∧ StandsFor w k.value ∧
    Fills s.literals s'.literals [i]
  count : s'.writer.count = s.writer.count + 1
  outer : s'.writer.outer = s.writer.outer
  missed : s'.writer.missed = s.writer.missed
  mark : k.mark = s.literals.size
  pool : ∃ more, s'.literals = s.literals ++ more ∧ ∀ v ∈ more.toList, v.isList = false

theorem emitLiteral_ok (atom : v.isList = false) (ok : emitLiteral v s = .ok k s') :
    Single s s' k ∧ k.value = v ∧ s'.tokens = s.tokens := by
  rw [emitLiteral, get_bind] at ok
  obtain ⟨place, t, interned, ok⟩ := of_bind_ok ok
  obtain ⟨i, w, more, rfl, found, same, rest, pool, new, fills⟩ := intern_ok interned
  rw [bind_ok _ (emitWith_eq .literal (.ofNat i) t)] at ok
  cases ok
  generalize t.literals = literals at *
  subst rest
  exact ⟨⟨⟨_, _, _, rfl⟩, ⟨i, w, _, _, rfl, found, same, fills⟩, rfl, rfl, rfl, rfl, more, pool,
    fun u member => new u member ▸ atom⟩, rfl, rfl⟩

theorem Single.of_reads {s t : Session} (reads : Reads s t) (single : Single t s' k) :
    Single s s' k := by
  obtain ⟨tokens, line, rfl⟩ := reads
  exact { single with }

theorem Single.then_reads {t : Session} (single : Single s t k) (reads : Reads t s') :
    Single s s' k := by
  obtain ⟨tokens, line, rfl⟩ := reads
  obtain ⟨⟨_, _, _, rfl⟩, entries, count, outer, missed, mark, pool⟩ := single
  exact ⟨⟨_, _, _, rfl⟩, entries, count, outer, missed, mark, pool⟩

theorem Single.emits (single : Single s s' k) :
    ∃ i w, s'.literals[i]? = some w ∧ StandsFor w k.value ∧
      Emits s s' (termsWords [.literal i]) 1 ∧ Fills s.literals s'.literals [i] := by
  obtain ⟨i, w, line, line', entries, found, stands, fills⟩ := single.entries
  obtain ⟨more, pool, atoms⟩ := single.pool
  have grown : s'.literals.toList = s.literals.toList ++ more.toList := by
    rw [pool, Array.toList_append]
  obtain ⟨tokens, writer, literals, rfl⟩ := single.rest
  have outer : writer.outer = s.writer.outer := single.outer
  refine ⟨i, w, found, stands, ⟨{ Grows.refl s with literals := ⟨more.toList, grown, atoms⟩ },
    by simp [Session.quiet, outer], ?_, single.count⟩, fills⟩
  rw [termsWords_single, Term.words, Session.words, entries]
  simp [Session.words]

theorem undo_literal {w w' : CodeWriter} {word place line line' : UInt32}
    (entries : w'.entries = (w.entries.push ⟨word, true, line⟩).push ⟨place, false, line'⟩)
    (count : w'.count = w.count + 1) :
    w'.undo.undo = { w' with entries := w.entries, count := w.count } := by
  simp [CodeWriter.undo, CodeWriter.last?, entries, count]

theorem takeBack_two (mark : Nat) (s : Session) : takeBack 2 mark s =
      .ok () { s with writer := s.writer.undo.undo, literals := s.literals.take mark } := rfl

theorem takeBack_four (mark : Nat) (s : Session) :
    takeBack 4 mark s =
      .ok () { s with
        writer := s.writer.undo.undo.undo.undo, literals := s.literals.take mark } := rfl

theorem Single.undo (single : Single s s' k) :
    s'.writer.undo.undo = s.writer.setLine s'.writer.line := by
  obtain ⟨i, w, line, line', entries, _⟩ := single.entries
  rw [undo_literal entries single.count, CodeWriter.setLine]
  simp only [single.outer, single.missed]

theorem take_pool (pool more : Array Value) : (pool ++ more).take pool.size = pool := by
  simp [Array.take]

theorem Single.takeBack {k : Constant} (single : Single s s' k) :
    ∃ t, takeBack 2 k.mark s' = .ok () t ∧ Reads s t ∧ t.load = s'.load := by
  obtain ⟨more, pool, _⟩ := single.pool
  refine ⟨_, takeBack_two k.mark s', ⟨s'.tokens, s'.writer.line, ?_⟩, rfl⟩
  rw [single.undo, single.mark, pool, take_pool]
  obtain ⟨tokens, writer, literals, rfl⟩ := single.rest
  rfl

theorem Single.takeBack_both {t u : Session} {l : Constant} (first : Single s t k)
    (between : Reads t u) (second : Single u s' l) :
    ∃ v, Compile.takeBack 4 k.mark s' = .ok () v ∧ Reads s v ∧ v.load = s'.load := by
  obtain ⟨more, pool, _⟩ := first.pool
  obtain ⟨more', pool', _⟩ := second.pool
  obtain ⟨tokens, line, rfl⟩ := between
  refine ⟨_, takeBack_four k.mark s', ⟨s'.tokens, s'.writer.line, ?_⟩, rfl⟩
  have undone : s'.writer.undo.undo.undo.undo = s.writer.setLine s'.writer.line := by
    rw [second.undo]
    exact congrArg (CodeWriter.setLine s'.writer.line) first.undo
  rw [undone, first.mark, pool']
  simp only
  rw [pool, Array.append_assoc, take_pool]
  obtain ⟨_, _, _, rfl⟩ := second.rest
  obtain ⟨_, _, _, rfl⟩ := first.rest
  rfl

theorem place?_lt (found : table.place? name = some i) : i < table.length :=
  (List.findIdx?_eq_some_iff_getElem.mp found).1

theorem find?_of_place? {entry : α} (found : table.place? name = some i)
    (at_ : table.entries[i]? = some entry) :
    table.find? name = some entry := by
  induction table generalizing i with
  | nil => cases found
  | cons pair rest ih =>
    obtain ⟨key, first⟩ := pair
    rw [NameTable.place?, List.findIdx?_cons] at found
    rw [NameTable.find?]
    by_cases same : (key == name) = true
    · simp only [same, ↓reduceIte] at found ⊢
      obtain rfl := Option.some.inj found
      exact at_
    · simp only [same, Bool.false_eq_true, ↓reduceIte] at found ⊢
      obtain ⟨j, later, rfl⟩ := Option.map_eq_some_iff.mp found
      exact ih later at_

theorem idxOf?_lt {names : List String} (found : names.idxOf? name = some i) : i < names.length :=
  (List.findIdx?_eq_some_iff_getElem.mp found).1

theorem resolve?_cases (found : x.resolve? name = some a) :
    (∃ i, x.parameters.idxOf? name = some i ∧ a = Scope.slot .parameters i) ∨
      ∃ i, x.locals.idxOf? name = some i ∧ a = Scope.slot .locals i := by
  unfold Scope.resolve? at found
  split at found
  · exact Or.inl ⟨_, ‹_›, (Option.some.inj found).symm⟩
  · obtain ⟨i, local_, rfl⟩ := Option.map_eq_some_iff.mp found
    exact Or.inr ⟨i, local_, rfl⟩

theorem resolve?_hasSlot (scope : s.scope = some x) (found : x.resolve? name = some a) :
    s.HasSlot a ∧ a.scope ≠ .globals := by
  rcases resolve?_cases found with ⟨i, at_, rfl⟩ | ⟨i, at_, rfl⟩
  · exact ⟨⟨i, by simpa [Session.slotCount, Scope.slot, scope] using idxOf?_lt at_, rfl⟩, by
      simp [Scope.slot]⟩
  · exact ⟨⟨i, by simpa [Session.slotCount, Scope.slot, scope] using idxOf?_lt at_, rfl⟩, by
      simp [Scope.slot]⟩

theorem lookup?_hasSlot (found : s.lookup? name = some a) : s.HasSlot a := by
  have global : (s.globals.place? name).map (Scope.slot .globals) = some a → s.HasSlot a := by
    intro placed
    obtain ⟨i, place, rfl⟩ := Option.map_eq_some_iff.mp placed
    exact ⟨i, place?_lt place, rfl⟩
  unfold Session.lookup? at found
  cases scope : s.scope with
  | none =>
    simp only [scope, Option.bind_none] at found
    exact global found
  | some x =>
    simp only [scope, Option.bind_some] at found
    cases resolved : x.resolve? name with
    | none =>
      simp only [resolved] at found
      exact global found
    | some b =>
      simp only [resolved, Option.some.injEq] at found
      exact found ▸ (resolve?_hasSlot scope resolved).1

theorem declares_eq (x : Scope) (name : String) : x.declares name = (x.resolve? name).isSome := by
  unfold Scope.resolve? Scope.declares
  cases parameter : x.parameters.idxOf? name with
  | some i => simp [List.isSome_idxOf?.mp (Option.isSome_of_eq_some parameter)]
  | none => simp [List.idxOf?_eq_none_iff.mp parameter, ← List.isSome_idxOf?]

def Scope.withLocal (x : Scope) (name : String) : Scope := { x with locals := x.locals ++ [name] }

theorem addLocal_new (new : x.resolve? name = none) :
    x.addLocal name = some (x.nextLocal, x.withLocal name) := by
  rw [Scope.addLocal, declares_eq, new]
  rfl

theorem addLocal_known (known : x.resolve? name = some a) : x.addLocal name = none := by
  rw [Scope.addLocal, declares_eq, known]
  rfl

theorem addLocal_emits (scope : s.scope = some x)
    (added : s' = { s with scope := some (x.withLocal name) }) :
    Emits s s' [] 0 ∧ s'.functions = s.functions ∧ s'.HasSlot x.nextLocal ∧
    s'.load ≤ s.load + 1 := by
  subst added
  refine ⟨⟨{ Grows.refl s with scope := ?_ }, ?_, by simp [Session.words], by simp⟩, rfl,
    ⟨x.locals.length, ?_, rfl⟩, ?_⟩
  · rw [scope]
    exact .some ⟨rfl, rfl, rfl, rfl, [name], rfl⟩
  · simp [Session.quiet, scope, Scope.withLocal]
  · simp [Scope.nextLocal, Scope.slot, Session.slotCount, Scope.withLocal]
  · simp only [Session.load, scope, Scope.withLocal, Option.map_some, Option.getD_some,
      List.length_append, List.length_singleton]
    omega

theorem currentScope_eq (scope : s.scope = some x) : currentScope s = .ok x s := by
  rw [currentScope, get_bind, scope]
  rfl

theorem currentScope_ok (ok : currentScope s = .ok x s') : s' = s ∧ s.scope = some x := by
  rw [currentScope, get_bind] at ok
  cases scope : s.scope with
  | none =>
    rw [scope] at ok
    cases ok
  | some y =>
    rw [scope] at ok
    cases ok
    exact ⟨rfl, rfl⟩

/-- A name that nothing is known of is none of the scope, so that it can be added there. -/
theorem variableAddress_new {name : Token} (found : s.lookup? name.lexeme = none)
    (other : Token.isMain name.lexeme = false) (scope : s.scope = some x) :
    x.resolve? name.lexeme = none ∧
      variableAddress name s = .ok x.nextLocal
        { s with scope := some (x.withLocal name.lexeme) } := by
  have new : x.resolve? name.lexeme = none := by
    unfold Session.lookup? at found
    cases resolved : x.resolve? name.lexeme with
    | none => rfl
    | some b => simp [scope, resolved] at found
  refine ⟨new, ?_⟩
  rw [variableAddress, get_bind, found]
  simp only [other, Bool.false_eq_true, ↓reduceIte]
  rw [bind_ok _ (currentScope_eq scope), addLocal_new new]
  rfl

theorem variableAddress_cases {name : Token} (ok : variableAddress name s = .ok a s') :
    (s.lookup? name.lexeme = some a ∧ s' = s) ∨
      ∃ x, s.scope = some x ∧ x.resolve? name.lexeme = none ∧ a = x.nextLocal ∧
        s' = { s with scope := some (x.withLocal name.lexeme) } := by
  cases found : s.lookup? name.lexeme with
  | some b =>
    rw [variableAddress, get_bind, found] at ok
    cases ok
    exact Or.inl ⟨rfl, rfl⟩
  | none =>
    by_cases main : Token.isMain name.lexeme = true
    · rw [variableAddress, get_bind, found] at ok
      simp only [main, ↓reduceIte] at ok
      cases ok
    have other := Bool.eq_false_iff.mpr main
    cases scope : s.scope with
    | none =>
      rw [variableAddress, get_bind, found] at ok
      simp only [other, Bool.false_eq_true, ↓reduceIte] at ok
      obtain ⟨x, t, current, -⟩ := of_bind_ok ok
      cases scope.symm.trans (currentScope_ok current).2
    | some x =>
      obtain ⟨new, added⟩ := variableAddress_new found other scope
      obtain ⟨rfl, rfl⟩ := EStateM.Result.ok.inj (added.symm.trans ok)
      exact Or.inr ⟨x, rfl, new, rfl, rfl⟩

theorem variableAddress_ok {name : Token} (ok : variableAddress name s = .ok a s') :
    Emits s s' [] 0 ∧ s'.functions = s.functions ∧ s'.HasSlot a ∧ s'.load ≤ s.load + 1 := by
  rcases variableAddress_cases ok with ⟨found, rfl⟩ | ⟨x, scope, new, rfl, added⟩
  · exact ⟨.refl _, rfl, lookup?_hasSlot found, by omega⟩
  · exact addLocal_emits scope added

theorem assignableAddress_cases {name : Token} (ok : assignableAddress name s = .ok a s') :
    variableAddress name s = .ok a s' ∧ s'.MayAssign a := by
  obtain ⟨b, t, found, ok⟩ := of_bind_ok ok
  by_cases global : b.scope = .globals
  · simp only [global, ↓reduceIte] at ok
    rw [get_bind] at ok
    cases readOnly : (t.globals.entries[b.index.toNat]?).any (·.readOnly) with
    | true =>
      simp only [readOnly, ↓reduceIte] at ok
      cases ok
    | false =>
      simp only [readOnly, Bool.false_eq_true, ↓reduceIte] at ok
      cases ok
      exact ⟨found, fun _ => readOnly⟩
  · simp only [global, ↓reduceIte] at ok
    cases ok
    exact ⟨found, fun same => absurd same global⟩

theorem assignableAddress_ok {name : Token} (ok : assignableAddress name s = .ok a s') :
    Emits s s' [] 0 ∧ s'.functions = s.functions ∧ s'.references.target a ∧
    s'.load ≤ s.load + 1 := by
  obtain ⟨found, may⟩ := assignableAddress_cases ok
  obtain ⟨emits, functions, has, load⟩ := variableAddress_ok found
  exact ⟨emits, functions, ⟨has, may⟩, load⟩

def Called (s s' : Session) : Prop :=
  ∀ place name, s'.functions.entries[place]? = some (.pending name) →
    s.functions.entries[place]? = some (.pending name) ∨ ∃ c ∈ s'.calls.toList, c.place = place

theorem Called.refl (s : Session) : Called s s := fun _ _ pending => Or.inl pending

theorem Called.trans {s s' : Session} (first : Called s s') (second : Called s' s'')
    (grows : Grows s' s'') :
    Called s s'' := by
  intro place name pending
  rcases second place name pending with old | called
  · rcases first place name old with older | ⟨c, noted, same⟩
    · exact Or.inl older
    · obtain ⟨more, calls⟩ := grows.calls
      exact Or.inr ⟨c, by simp [calls, noted], same⟩
  · exact Or.inr called

theorem Called.of_eq (same : s'.functions = s.functions) : Called s s' := by
  intro place name pending
  rw [same] at pending
  exact Or.inl pending

theorem Reads.called (reads : Reads s s') : Called s s' := by
  obtain ⟨tokens, line, rfl⟩ := reads
  exact .of_eq rfl

theorem functionPlace_cases (ok : functionPlace name s = .ok place s') :
    ∃ more, s' = { s with functions := s.functions ++ more } ∧
    place < (s.functions ++ more).length ∧
      (∀ entry ∈ more, ∃ name, entry.2 = Callee.pending name) ∧
      ∀ q ≠ place, (NameTable.entries (s.functions ++ more))[q]? = s.functions.entries[q]? := by
  rw [functionPlace, get_bind] at ok
  cases found : s.functions.place? (functionKey name) with
  | some i =>
    rw [found] at ok
    cases ok
    exact ⟨[], by simp, by simpa using place?_lt found, by simp, by simp⟩
  | none =>
    rw [found] at ok
    cases ok
    refine ⟨[(functionKey name, .pending name)], rfl, by simp, by simp, ?_⟩
    intro q other
    simp only [NameTable.entries, List.map_append, List.getElem?_append, List.length_map]
    split
    · rfl
    · rw [List.getElem?_eq_none (by simp; omega), List.getElem?_eq_none (by simp; omega)]

theorem functionPlace_ok (ok : functionPlace name s = .ok place s') :
    Emits s s' [] 0 ∧ s'.load = s.load ∧ place < s'.functions.length ∧ s'.calls = s.calls ∧
      ∀ q pending, s'.functions.entries[q]? = some (.pending pending) →
        s.functions.entries[q]? = some (.pending pending) ∨ q = place := by
  obtain ⟨more, rfl, inside, new, others⟩ := functionPlace_cases ok
  refine ⟨⟨{ Grows.refl s with functions := ⟨more, rfl, new⟩ }, rfl, by simp [Session.words], by
    simp⟩, rfl, inside, rfl, fun q pending there => ?_⟩
  by_cases same : q = place
  · exact Or.inr same
  · exact Or.inl ((others q same).symm.trans there)

theorem checkCall_cases {name : Token} (ok : checkCall place name arguments s = .ok u s') :
    ∃ callee, s.functions.entries[place]? = some callee ∧
      ((∃ f, callee = .offered f ∧ (f.arity?.getD .any).admits arguments = true ∧ s' = s) ∨
        (∀ f, callee ≠ .offered f) ∧
          s' = { s with calls := s.calls.push ⟨place, name.lexeme, arguments, name.line⟩ }) := by
  rw [checkCall, get_bind] at ok
  generalize s.functions.entries[place]? = entry at ok
  rcases entry with _ | callee
  · cases ok
  refine ⟨callee, rfl, ?_⟩
  cases callee with
  | offered f =>
    simp only at ok
    cases violated : (f.arity?.getD .any).violation? arguments with
    | some v =>
      rw [violated] at ok
      cases ok
    | none =>
      rw [violated] at ok
      cases ok
      exact Or.inl ⟨f, rfl, (Arity.violation?_eq_none_iff _ _).mp violated, rfl⟩
  | pending pending | user f =>
    cases ok
    exact Or.inr ⟨by simp, rfl⟩

theorem checkCall_ok {name : Token} (ok : checkCall place name arguments s = .ok u s') :
    Emits s s' [] 0 ∧ s'.load = s.load ∧ s'.functions = s.functions ∧ s'.Admits place arguments ∧
      ∀ pending, s.functions.entries[place]? = some (.pending pending) →
        ∃ c ∈ s'.calls.toList, c.place = place := by
  obtain ⟨callee, entry, checked⟩ := checkCall_cases ok
  have present : place < s.functions.length := by
    simpa [NameTable.entries] using (List.getElem?_eq_some_iff.mp entry).1
  rcases checked with ⟨f, rfl, admits, rfl⟩ | ⟨other, rfl⟩
  · exact ⟨.refl _, rfl, rfl, ⟨present, Or.inl ⟨f, entry, admits⟩⟩, by simp [entry]⟩
  · have none_ : ∀ f, s.functions.entries[place]? ≠ some (.offered f) := by
      simpa [entry] using other
    exact ⟨⟨{ Grows.refl s with calls := ⟨[⟨place, name.lexeme, arguments, name.line⟩], by simp⟩ },
      rfl, by simp [Session.words], by simp⟩, rfl, rfl,
      ⟨present, Or.inr ⟨none_, ⟨place, name.lexeme, arguments, name.line⟩, by simp⟩⟩,
      fun _ _ => ⟨⟨place, name.lexeme, arguments, name.line⟩, by simp⟩⟩

theorem functionPlace_table (ok : functionPlace name s = .ok place s') :
    ∃ functions, s' = { s with functions } ∧ s.functions.length ≤ functions.length ∧
      ∀ q ≠ place, functions.entries[q]? = s.functions.entries[q]? := by
  obtain ⟨more, rfl, _, _, others⟩ := functionPlace_cases ok
  exact ⟨_, rfl, by simp, others⟩

theorem checkCall_calls {name : Token} (ok : checkCall place name arguments s = .ok u s') :
    ∃ calls, s' = { s with calls } := by
  obtain ⟨_, _, ⟨_, _, _, rfl⟩ | ⟨_, rfl⟩⟩ := checkCall_cases ok
  · exact ⟨s'.calls, rfl⟩
  · exact ⟨_, rfl⟩

theorem variableAddress_scope {name : Token} (ok : variableAddress name s = .ok a s') :
    ∃ scope, s' = { s with scope } := by
  rcases variableAddress_cases ok with ⟨_, rfl⟩ | ⟨x, _, _, _, added⟩
  · exact ⟨s'.scope, rfl⟩
  · exact ⟨_, added⟩

theorem assignableAddress_scope {name : Token} (ok : assignableAddress name s = .ok a s') :
    ∃ scope, s' = { s with scope } := variableAddress_scope (assignableAddress_cases ok).1

theorem record_ok {d : Diagnostic} (ok : record d s = .ok u s') :
    s' = { s with errors := s.errors.push d } := by
  rw [record] at ok
  obtain ⟨_, t, pushed, ok⟩ := of_bind_ok ok
  cases pushed
  by_cases fatal : d.isFatal = true
  · simp only [fatal, ↓reduceIte] at ok
    cases ok
  simp only [fatal, Bool.false_eq_true, ↓reduceIte] at ok
  rw [get_bind] at ok
  split at ok
  · cases ok
  · cases ok
    rfl

theorem forM_record_ok {ds : List Diagnostic} {u : PUnit} :
    ∀ {s s' : Session}, ds.forM record s = .ok u s' →
      ∃ errors, s' = { s with errors } ∧ errors.toList = s.errors.toList ++ ds := by
  induction ds with
  | nil =>
    intro s s' ok
    cases ok
    exact ⟨s.errors, rfl, by simp⟩
  | cons d ds ih =>
    intro s s' ok
    obtain ⟨_, t, recorded, ok⟩ := of_bind_ok (x := record d) ok
    obtain ⟨errors, rfl, all⟩ := ih ok
    refine ⟨errors, ?_, ?_⟩
    · rw [record_ok recorded]
    · rw [all, record_ok recorded]
      simp

end Compile

end Scriptlet
