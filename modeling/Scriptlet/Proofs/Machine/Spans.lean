import Scriptlet.Program.Listing
import Scriptlet.Proofs.Machine.Layers

/-!
How far the words of a statement reach. The code of a statement is its instruction and then, one
behind the other, the expressions below it, each a count and as many tokens. What is left to read
at an address is a row of such counts, innermost first, and a row spans the words up to one
address at most. A listing walks over a statement exactly if the statement spans some words, and
ends where they end.
-/
namespace Scriptlet

open Actions

def DecodeError.Unreadable : DecodeError → Prop
  | .endOfStream _ | .invalidOpcode _ _ | .invalidVariable _ _ => True
  | .jumpOutOfRange _ _ | .nothingSaved => False

theorem Opcode.compound_of_statement {op : Opcode} (kind : op.isStatement = true) :
    op.isSimple = false := by
  cases op with
  | literal | load | binary _ | unary _ => cases kind
  | _ => rfl

namespace Cursor

section Onward

variable {α β : Type} {words : Array UInt32} {k a b : Nat} {x : α} {c j : Nat} {reading : Reading α}

/-- What is read at the address, and where that ends, whatever addresses are saved. -/
def Reading.Gives (reading : Reading α) (a : Nat) (x : α) (b : Nat) : Prop :=
  ∀ saved, reading ⟨a, saved⟩ = .ok x ⟨b, saved⟩

def Reading.Fails (reading : Reading α) (a : Nat) (e : DecodeError) (b : Nat) : Prop :=
  ∀ saved, reading ⟨a, saved⟩ = .error e ⟨b, saved⟩

/-- Reads `k` words at least, one behind the other, unless one of them cannot be read. -/
def Reading.Onward (words : Array UInt32) (k : Nat) (reading : Reading α) : Prop :=
  ∀ a, (∃ x b, a + k ≤ b ∧ (a = b ∨ b ≤ words.size) ∧ reading.Gives a x b) ∨
    ∃ e b, e.Unreadable ∧ (a = b ∨ b ≤ words.size) ∧ reading.Fails a e b

theorem Reading.Gives.unique {y : α} (gives : reading.Gives a x b)
    (again : reading.Gives a y c) : x = y ∧ b = c := by
  have same := (gives []).symm.trans (again [])
  cases same
  exact ⟨rfl, rfl⟩

theorem Reading.Gives.not_fails {e : DecodeError} (gives : reading.Gives a x b)
    (fails : reading.Fails a e c) : False := by
  have same := (gives []).symm.trans (fails [])
  cases same

theorem Reading.Onward.pure (x : α) : Reading.Onward words 0 (pure x : Reading α) :=
  fun a => Or.inl ⟨x, a, Nat.le_refl a, Or.inl rfl, fun _ => rfl⟩

theorem Reading.Onward.bind {x : Reading α} {f : α → Reading β} (first : x.Onward words j)
    (then_ : ∀ y, (f y).Onward words k) : (x >>= f).Onward words (j + k) := by
  intro a
  rcases first a with ⟨y, b, far, inside, gives⟩ | ⟨e, b, unreadable, inside, fails⟩
  · rcases then_ y b with ⟨z, c, farther, inside', gives'⟩ | ⟨e, c, unreadable, inside', fails⟩
    · refine Or.inl ⟨z, c, by omega, by omega, fun saved => ?_⟩
      rw [bind_ok _ (gives saved), gives' saved]
    · refine Or.inr ⟨e, c, unreadable, by omega, fun saved => ?_⟩
      rw [bind_ok _ (gives saved), fails saved]
  · exact Or.inr ⟨e, b, unreadable, inside, fun saved => bind_error _ (fails saved)⟩

theorem Reading.Onward.of_ok (onward : reading.Onward words k) {c c' : Cursor}
    (ok : reading c = .ok x c') :
    reading.Gives c.ip x c'.ip ∧ c'.saved = c.saved ∧ c.ip + k ≤ c'.ip ∧
      (c.ip = c'.ip ∨ c'.ip ≤ words.size) := by
  rcases onward c.ip with ⟨y, b, far, inside, gives⟩ | ⟨e, b, _, _, fails⟩
  · have same := ok.symm.trans (gives c.saved)
    cases same
    exact ⟨gives, rfl, far, inside⟩
  · have same := ok.symm.trans (fails c.saved)
    cases same

theorem Reading.Onward.far (onward : reading.Onward words k) (gives : reading.Gives a x b) :
    a + k ≤ b ∧ (a = b ∨ b ≤ words.size) :=
  (onward.of_ok (gives [])).2.2

theorem word_onward : (Reading.of (word words)).Onward words 1 := by
  intro a
  cases found : words[a]? with
  | some w =>
    obtain ⟨before, _⟩ := Array.getElem?_eq_some_iff.mp found
    refine Or.inl ⟨w, a + 1, Nat.le_refl _, Or.inr before, fun saved => ?_⟩
    rw [Reading.of, word, found]
  | none =>
    refine Or.inr ⟨.endOfStream a, a, trivial, Or.inl rfl, fun saved => ?_⟩
    rw [Reading.of, word, found]

theorem number_onward : (number words).Onward words 1 :=
  word_onward.bind fun _ => .pure _

theorem opcode_onward : (Reading.of (opcode words)).Onward words 1 := by
  intro a
  cases found : words[a]? with
  | none =>
    refine Or.inr ⟨.endOfStream a, a, trivial, Or.inl rfl, fun saved => ?_⟩
    simp only [Reading.of, opcode, word, found]
  | some w =>
    obtain ⟨before, _⟩ := Array.getElem?_eq_some_iff.mp found
    cases means : Opcode.ofWord? w with
    | none =>
      refine Or.inr ⟨.invalidOpcode w a, a + 1, trivial, Or.inr before, fun saved => ?_⟩
      simp only [Reading.of, opcode, word, found, means]
    | some op =>
      refine Or.inl ⟨op, a + 1, Nat.le_refl _, Or.inr before, fun saved => ?_⟩
      simp only [Reading.of, opcode, word, found, means]

theorem address_onward : (Reading.of (address words)).Onward words 1 := by
  intro a
  cases found : words[a]? with
  | none =>
    refine Or.inr ⟨.endOfStream a, a, trivial, Or.inl rfl, fun saved => ?_⟩
    simp only [Reading.of, address, word, found]
  | some w =>
    obtain ⟨before, _⟩ := Array.getElem?_eq_some_iff.mp found
    cases means : Address.unpack? w with
    | none =>
      refine Or.inr ⟨.invalidVariable w a, a + 1, trivial, Or.inr before, fun saved => ?_⟩
      simp only [Reading.of, address, word, found, means]
    | some slot =>
      refine Or.inl ⟨slot, a + 1, Nat.le_refl _, Or.inr before, fun saved => ?_⟩
      simp only [Reading.of, address, word, found, means]

theorem Reading.Onward.weaken (onward : reading.Onward words k) (fewer : j ≤ k) :
    reading.Onward words j := by
  intro a
  rcases onward a with ⟨x, b, far, rest⟩ | fails
  · exact Or.inl ⟨x, b, by omega, rest⟩
  · exact Or.inr fails

theorem instruction_onward (op : Opcode) (ip : Nat) : (instruction words op ip).Onward words 0 :=
  instruction_readings (fun r => r.Onward words 0) (fun i => .pure i)
    (fun _ then_ => (number_onward.bind then_).weaken (Nat.zero_le _))
    (fun _ then_ => (address_onward.bind then_).weaken (Nat.zero_le _)) op ip

end Onward

variable (words : Array UInt32)

def tokenRest (ip : Nat) (op : Opcode) : Reading (Option Instruction) := do
  match op with
  | .literal =>
    let _ ← number words
    return none
  | .load =>
    let _ ← Reading.of (address words)
    return none
  | .binary _ | .unary _ => return none
  | _ =>
    if op.isStatement then throw (.invalidOpcode op.word ip)
    instruction words op ip

def statementRest (ip : Nat) (op : Opcode) : Reading (Option Instruction) :=
  if op.isStatement then instruction words op ip else throw (.invalidOpcode op.word ip)

def headed (rest : Nat → Opcode → Reading (Option Instruction)) : Reading (Option Instruction) := do
  let ip := (← get).ip
  rest ip (← Reading.of (opcode words))

def token : Reading (Option Instruction) := headed words (tokenRest words)

def statement : Reading (Option Instruction) := headed words (statementRest words)

variable {words} {a b : Nat} {found : Option Instruction} {i : Instruction} {op : Opcode}

theorem tokenRest_compound (ip : Nat) (compound : op.isSimple = false) :
    tokenRest words ip op =
      if op.isStatement then throw (.invalidOpcode op.word ip) else instruction words op ip := by
  cases op with
  | literal | load | binary _ | unary _ => cases compound
  | _ => rfl

theorem tokenRest_refused {ip c : Nat} (kind : op.isStatement = true) :
    (tokenRest words ip op).Fails c (.invalidOpcode op.word ip) c := by
  rw [tokenRest_compound ip (Opcode.compound_of_statement kind), kind]
  exact fun _ => rfl

theorem statementRest_statement (ip : Nat) (kind : op.isStatement = true) :
    statementRest words ip op = instruction words op ip := by
  rw [statementRest, kind]
  rfl

theorem statementRest_refused {ip c : Nat} (kind : op.isStatement = false) :
    (statementRest words ip op).Fails c (.invalidOpcode op.word ip) c := by
  rw [statementRest, kind]
  exact fun _ => rfl

theorem refused_onward (word : UInt32) (ip : Nat) :
    Reading.Onward words 0 (throw (.invalidOpcode word ip) : Reading (Option Instruction)) :=
  fun a => Or.inr ⟨.invalidOpcode word ip, a, trivial, Or.inl rfl, fun _ => rfl⟩

theorem tokenRest_onward (ip : Nat) (op : Opcode) : (tokenRest words ip op).Onward words 0 := by
  cases simple : op.isSimple with
  | false =>
    rw [tokenRest_compound ip simple]
    cases op.isStatement with
    | true => exact refused_onward op.word ip
    | false => exact instruction_onward op ip
  | true =>
    cases op with
    | literal => exact (number_onward.bind fun _ => .pure none).weaken (Nat.zero_le _)
    | load => exact (address_onward.bind fun _ => .pure none).weaken (Nat.zero_le _)
    | binary | unary => exact .pure none
    | _ => cases simple

theorem statementRest_onward (ip : Nat) (op : Opcode) :
    (statementRest words ip op).Onward words 0 := by
  rw [statementRest]
  cases op.isStatement with
  | true => exact instruction_onward op ip
  | false => exact refused_onward op.word ip

section Headed

variable {rest : Nat → Opcode → Reading (Option Instruction)} {c : Nat} {e : DecodeError}

theorem headed_onward (onward : ∀ ip op, (rest ip op).Onward words 0) :
    (headed words rest).Onward words 1 :=
  fun a => (opcode_onward.bind (onward a)) a

theorem headed_gives (first : (Reading.of (opcode words)).Gives a op c)
    (then_ : (rest a op).Gives c found b) : (headed words rest).Gives a found b := by
  intro saved
  rw [headed, get_bind, bind_ok _ (first saved), then_ saved]

theorem headed_fails (first : (Reading.of (opcode words)).Gives a op c)
    (then_ : (rest a op).Fails c e b) : (headed words rest).Fails a e b := by
  intro saved
  rw [headed, get_bind, bind_ok _ (first saved), then_ saved]

theorem headed_missing (first : (Reading.of (opcode words)).Fails a e b) :
    (headed words rest).Fails a e b := by
  intro saved
  rw [headed, get_bind, bind_error _ (first saved)]

theorem headed_rest (gives : (headed words rest).Gives a found b)
    (first : (Reading.of (opcode words)).Gives a op c) :
    (rest a op).Gives c found b := by
  intro saved
  rw [← gives saved, headed, get_bind, bind_ok _ (first saved)]

end Headed

theorem token_onward : (token words).Onward words 1 := headed_onward tokenRest_onward

theorem statement_onward : (statement words).Onward words 1 := headed_onward statementRest_onward

variable {c : Nat}

theorem opcode_next (gives : (Reading.of (opcode words)).Gives a op b) : b = a + 1 := by
  have read := gives []
  cases there : words[a]? with
  | none =>
    simp only [Reading.of, opcode, word, there] at read
    cases read
  | some w =>
    cases means : Opcode.ofWord? w with
    | none =>
      simp only [Reading.of, opcode, word, there, means] at read
      cases read
    | some op =>
      simp only [Reading.of, opcode, word, there, means] at read
      cases read
      rfl

theorem token_instruction (gives : (token words).Gives a found b)
    (first : (Reading.of (opcode words)).Gives a op c) (compound : op.isSimple = false) :
    ∃ i, found = some i ∧ (instruction words op a).Gives c (some i) b := by
  have rest := headed_rest gives first
  rw [tokenRest_compound a compound] at rest
  split at rest
  · cases rest []
  · rcases instruction_kind (rest []) with ⟨-, simple⟩ | ⟨i, rfl, -⟩
    · rw [compound] at simple
      cases simple
    · exact ⟨i, rfl, rest⟩

theorem token_legal (gives : (token words).Gives a (some i) b) : i.Legal := by
  rcases @opcode_onward words a with ⟨op, c, -, -, first⟩ | ⟨e, c, -, -, fails⟩
  · cases simple : op.isSimple with
    | false =>
      obtain ⟨_, ⟨⟩, rest⟩ := token_instruction gives first simple
      rcases instruction_kind (rest []) with ⟨⟨⟩, -⟩ | ⟨_, ⟨⟩, legal, -⟩
      exact legal
    | true =>
      have rest := headed_rest gives first []
      cases op with
      | literal | load =>
        obtain ⟨_, _, _, last⟩ := of_bind_ok rest
        cases last
      | binary | unary => cases rest
      | _ => cases simple
  · exact (gives.not_fails (headed_missing fails)).elim

theorem statement_instruction (gives : (statement words).Gives a (some i) b)
    (first : (Reading.of (opcode words)).Gives a op c) :
    (instruction words op a).Gives c (some i) b := by
  have rest := headed_rest gives first
  rw [statementRest] at rest
  split at rest
  · exact rest
  · cases rest []

theorem statement_legal (gives : (statement words).Gives a (some i) b) : i.Legal := by
  rcases @opcode_onward words a with ⟨op, c, -, -, first⟩ | ⟨e, c, -, -, fails⟩
  · rcases instruction_kind (statement_instruction gives first []) with ⟨⟨⟩, -⟩ | ⟨_, ⟨⟩, legal, -⟩
    exact legal
  · exact (gives.not_fails (headed_missing fails)).elim

end Cursor

/-- What is left to read of an instruction or of an expression. -/
inductive Pending where
  | parts (n : Nat)
  | tokens (n : Nat)

def expressionsOf : Option Instruction → Nat
  | none => 0
  | some i => i.expressions

open Cursor in
/-- Reading all that is left, innermost first, leads from the one address to the other. -/
inductive Spans (words : Array UInt32) : Nat → List Pending → Nat → Prop where
  | done (a : Nat) : Spans words a [] a
  | parts {a b : Nat} {rest : List Pending} : Spans words a rest b →
      Spans words a (.parts 0 :: rest) b
  | tokens {a b : Nat} {rest : List Pending} : Spans words a rest b →
      Spans words a (.tokens 0 :: rest) b
  | open_ {a b c n count : Nat} {rest : List Pending} : (number words).Gives a count c →
      Spans words c (.tokens count :: .parts n :: rest) b → Spans words a (.parts (n + 1) :: rest) b
  | token {a b c n : Nat} {found : Option Instruction} {rest : List Pending} :
      (token words).Gives a found c →
      Spans words c (.parts (expressionsOf found) :: .tokens n :: rest) b →
      Spans words a (.tokens (n + 1) :: rest) b

def Spans.Statement (words : Array UInt32) (a : Nat) (i : Instruction) (b : Nat) : Prop :=
  ∃ c, (Cursor.statement words).Gives a (some i) c ∧ Spans words c [.parts i.expressions] b

namespace Spans

variable {words : Array UInt32} {a b c n count : Nat} {found : Option Instruction}
  {rest : List Pending} {e : DecodeError} {i : Instruction}

@[simp] theorem nil_iff : Spans words a [] b ↔ a = b := by
  constructor
  · rintro ⟨⟩
    rfl
  · rintro rfl
    exact .done a

@[simp] theorem parts_zero : Spans words a (.parts 0 :: rest) b ↔ Spans words a rest b := by
  constructor
  · intro spans
    cases spans
    assumption
  · exact .parts

@[simp] theorem tokens_zero : Spans words a (.tokens 0 :: rest) b ↔ Spans words a rest b := by
  constructor
  · intro spans
    cases spans
    assumption
  · exact .tokens

theorem open_iff (gives : (Cursor.number words).Gives a count c) :
    Spans words a (.parts (n + 1) :: rest) b ↔
      Spans words c (.tokens count :: .parts n :: rest) b := by
  constructor
  · intro spans
    cases spans with
    | open_ gives' later =>
      obtain ⟨rfl, rfl⟩ := gives.unique gives'
      exact later
  · exact .open_ gives

theorem token_iff (gives : (Cursor.token words).Gives a found c) :
    Spans words a (.tokens (n + 1) :: rest) b ↔
      Spans words c (.parts (expressionsOf found) :: .tokens n :: rest) b := by
  constructor
  · intro spans
    cases spans with
    | token gives' later =>
      obtain ⟨rfl, rfl⟩ := gives.unique gives'
      exact later
  · exact .token gives

theorem not_open (fails : (Cursor.number words).Fails a e c) :
    ¬Spans words a (.parts (n + 1) :: rest) b := by
  intro spans
  cases spans with
  | open_ gives later => exact gives.not_fails fails

theorem not_token (fails : (Cursor.token words).Fails a e c) :
    ¬Spans words a (.tokens (n + 1) :: rest) b := by
  intro spans
  cases spans with
  | token gives later => exact gives.not_fails fails

variable {todo : List Pending}

theorem unique (spans : Spans words a todo b) (again : Spans words a todo c) : b = c := by
  induction spans with
  | done a => exact nil_iff.mp again
  | parts _ ih => exact ih (parts_zero.mp again)
  | tokens _ ih => exact ih (tokens_zero.mp again)
  | open_ gives _ ih => exact ih ((open_iff gives).mp again)
  | token gives _ ih => exact ih ((token_iff gives).mp again)

theorem le (spans : Spans words a todo b) : a ≤ b := by
  induction spans with
  | done a => exact Nat.le_refl a
  | parts _ ih | tokens _ ih => exact ih
  | open_ gives _ ih => exact Nat.le_trans (Nat.le_of_succ_le (Cursor.number_onward.far gives).1) ih
  | token gives _ ih => exact Nat.le_trans (Nat.le_of_succ_le (Cursor.token_onward.far gives).1) ih

theorem Statement.unique {j : Instruction} (spans : Statement words a i b)
    (again : Statement words a j c) :
    i = j ∧ b = c := by
  obtain ⟨_, gives, spans⟩ := spans
  obtain ⟨_, gives', again⟩ := again
  obtain ⟨same, rfl⟩ := gives.unique gives'
  cases same
  exact ⟨rfl, spans.unique again⟩

theorem Statement.lt (spans : Statement words a i b) : a < b := by
  obtain ⟨_, gives, spans⟩ := spans
  exact Nat.lt_of_lt_of_le (Cursor.statement_onward.far gives).1 spans.le

end Spans

open Cursor in
/-- Reading all that is left leads from the one address to the other, and every instruction among
it has the property at its address. -/
inductive Vetted (words : Array UInt32) (Q : Nat → Instruction → Prop) :
    Nat → List Pending → Nat → Prop where
  | done (a : Nat) : Vetted words Q a [] a
  | parts {a b : Nat} {rest : List Pending} : Vetted words Q a rest b →
      Vetted words Q a (.parts 0 :: rest) b
  | tokens {a b : Nat} {rest : List Pending} : Vetted words Q a rest b →
      Vetted words Q a (.tokens 0 :: rest) b
  | open_ {a b c n count : Nat} {rest : List Pending} : (number words).Gives a count c →
      Vetted words Q c (.tokens count :: .parts n :: rest) b →
      Vetted words Q a (.parts (n + 1) :: rest) b
  | token {a b c n : Nat} {found : Option Instruction} {rest : List Pending} :
      (token words).Gives a found c → (∀ i ∈ found, Q a i) →
      Vetted words Q c (.parts (expressionsOf found) :: .tokens n :: rest) b →
      Vetted words Q a (.tokens (n + 1) :: rest) b

namespace Vetted

variable {words : Array UInt32} {Q : Nat → Instruction → Prop} {a b c n count : Nat}
  {found : Option Instruction} {todo rest : List Pending}

def Statement (words : Array UInt32) (Q : Nat → Instruction → Prop) (a : Nat) (i : Instruction)
    (b : Nat) : Prop :=
  ∃ c, (Cursor.statement words).Gives a (some i) c ∧ Q a i ∧
    Vetted words Q c [.parts i.expressions] b

theorem spans (vetted : Vetted words Q a todo b) : Spans words a todo b := by
  induction vetted with
  | done a => exact .done a
  | parts _ ih => exact .parts ih
  | tokens _ ih => exact .tokens ih
  | open_ gives _ ih => exact .open_ gives ih
  | token gives _ _ ih => exact .token gives ih

theorem of_spans (spans : Spans words a todo b) : Vetted words (fun _ _ => True) a todo b := by
  induction spans with
  | done a => exact .done a
  | parts _ ih => exact .parts ih
  | tokens _ ih => exact .tokens ih
  | open_ gives _ ih => exact .open_ gives ih
  | token gives _ ih => exact .token gives (fun _ _ => trivial) ih

theorem Statement.spans {i : Instruction} (vetted : Statement words Q a i b) :
    Spans.Statement words a i b := by
  obtain ⟨c, gives, -, vetted⟩ := vetted
  exact ⟨c, gives, vetted.spans⟩

theorem of_parts_zero (vetted : Vetted words Q a (.parts 0 :: rest) b) :
    Vetted words Q a rest b := by
  cases vetted
  assumption

theorem of_tokens_zero (vetted : Vetted words Q a (.tokens 0 :: rest) b) :
    Vetted words Q a rest b := by
  cases vetted
  assumption

theorem of_open (vetted : Vetted words Q a (.parts (n + 1) :: rest) b)
    (gives : (Cursor.number words).Gives a count c) :
    Vetted words Q c (.tokens count :: .parts n :: rest) b := by
  cases vetted with
  | open_ gives' later =>
    obtain ⟨rfl, rfl⟩ := gives.unique gives'
    exact later

theorem of_token (vetted : Vetted words Q a (.tokens (n + 1) :: rest) b)
    (gives : (Cursor.token words).Gives a found c) :
    (∀ i ∈ found, Q a i) ∧ Vetted words Q c (.parts (expressionsOf found) :: .tokens n :: rest)
      b := by
  cases vetted with
  | token gives' property later =>
    obtain ⟨rfl, rfl⟩ := gives.unique gives'
    exact ⟨property, later⟩

end Vetted

namespace Listing

variable {p : Program} {below : Walking Unit} {a b depth : Nat} {saved : List Nat}
  {es : Array Entry} {α : Type} {op : Opcode} {reading : Cursor.Reading α}
  {Q : Nat → Instruction → Prop} {e : Entry}

theorem read_ok {x : α} (gives : reading.Gives a x b) :
    read reading ⟨⟨a, saved⟩, es⟩ = .ok x ⟨⟨b, saved⟩, es⟩ := by
  rw [read, gives saved]

theorem read_error {e : DecodeError} (fails : reading.Fails a e b) :
    read reading ⟨⟨a, saved⟩, es⟩ = .error e ⟨⟨b, saved⟩, es⟩ := by
  rw [read, fails saved]

theorem times_one (act : Walking Unit) : times act 1 = act := bind_pure act

theorem times_succ (act : Walking Unit) (n : Nat) :
    times act (n + 1) = times act n >>= fun _ => act := by
  induction n with
  | zero => exact times_one act
  | succ n ih =>
    calc times act (n + 2)
      _ = act >>= fun _ => times act n >>= fun _ => act := congrArg (act >>= fun _ => ·) ih
      _ = times act (n + 1) >>= fun _ => act := (bind_assoc ..).symm

/-- The walk fails as reading an instruction does. If it does not, then an entry is noted, and the
expressions of the instruction come next. -/
def Walks (below : Walking Unit) (entry : String → Entry)
    (reading : Cursor.Reading (Option Instruction)) (act : Walking Unit) : Prop :=
  ∀ a saved es, (∃ e b, reading.Fails a e b ∧ act ⟨⟨a, saved⟩, es⟩ = .error e ⟨⟨b, saved⟩, es⟩) ∨
    ∃ i b text, reading.Gives a (some i) b ∧
      act ⟨⟨a, saved⟩, es⟩ = times below i.expressions ⟨⟨b, saved⟩, es.push (entry text)⟩

variable {entry : String → Entry} {i : Instruction} {act : Walking Unit}

theorem Walks.noted (text : String) (acts : act = times below i.expressions) :
    Walks below entry (pure (some i)) (note (entry text) >>= fun _ => act) :=
  fun a _ _ => Or.inr ⟨i, a, text, fun _ => rfl, by rw [acts]; rfl⟩

theorem Walks.bind {k : Nat} {rest : α → Cursor.Reading (Option Instruction)}
    {acts : α → Walking Unit} (onward : reading.Onward p.words k)
    (then_ : ∀ x, Walks below entry (rest x) (acts x)) :
    Walks below entry (reading >>= rest) (read reading >>= acts) := by
  intro a saved es
  rcases onward a with ⟨x, b, -, -, gives⟩ | ⟨e, b, -, -, fails⟩
  · rw [bind_ok _ (read_ok gives)]
    rcases then_ x b saved es with ⟨e, c, fails, walks⟩ | ⟨i, c, text, gives', walks⟩
    · exact Or.inl ⟨e, c, fun saved => (bind_ok _ (gives saved)).trans (fails saved), walks⟩
    · exact Or.inr ⟨i, c, text, fun saved => (bind_ok _ (gives saved)).trans (gives' saved), walks⟩
  · exact Or.inl ⟨e, b, fun saved => bind_error _ (fails saved), bind_error _ (read_error fails)⟩

theorem call_walks {ip : Nat} (calls : op = .callStatement ∨ op = .call) :
    Walks below (⟨ip, depth, op, ·⟩) (Cursor.instruction p.words op ip)
      (call p below ip depth op) := by
  have walks : Walks below (⟨ip, depth, op, ·⟩)
      (Cursor.number p.words >>= fun place => Cursor.number p.words >>= fun n =>
        pure (some ⟨op, ip, .function place, n⟩)) (call p below ip depth op) :=
    .bind Cursor.number_onward fun _ => .bind Cursor.number_onward fun _ => .noted _ rfl
  rcases calls with rfl | rfl <;> exact walks

/-- Both decoders agree on the compound tokens, each with its operands and the number of its
expressions. -/
theorem token_compound {c : Nat} (compound : op.isSimple = false) (kind : op.isStatement = false)
    (first : (Cursor.Reading.of (Cursor.opcode p.words)).Gives a op c) : ∃ act,
      token p below depth ⟨⟨a, saved⟩, es⟩ = act ⟨⟨c, saved⟩, es⟩ ∧
        Walks below (⟨a, depth, op, ·⟩) (Cursor.instruction p.words op a) act := by
  rw [token, get_bind, bind_ok _ (read_ok first)]
  cases op with
  | call => exact ⟨_, rfl, call_walks (Or.inr rfl)⟩
  | createList => exact ⟨_, rfl, .noted "" (times_one below).symm⟩
  | initializeList => exact ⟨_, rfl, .bind Cursor.number_onward fun _ => .noted _ rfl⟩
  | element => exact ⟨_, rfl, .bind Cursor.address_onward fun _ => .noted _ (times_one below).symm⟩
  | elementPath =>
    exact ⟨_, rfl, .bind Cursor.address_onward fun _ => .bind Cursor.number_onward
      fun _ => .noted _ rfl⟩
  | literal | load | binary _ | unary _ => cases compound
  | _ => cases kind

theorem token_refused {c : Nat} (kind : op.isStatement = true)
    (first : (Cursor.Reading.of (Cursor.opcode p.words)).Gives a op c) :
    token p below depth ⟨⟨a, saved⟩, es⟩ = .error (.invalidOpcode op.word a) ⟨⟨c, saved⟩, es⟩ := by
  rw [token, get_bind, bind_ok _ (read_ok first)]
  cases op with
  | nop | callStatement | returnValue | jump | jumpIfFalse | assign | assignElement | assignPath =>
    rfl
  | _ => cases kind

theorem statement_compound {c : Nat} (kind : op.isStatement = true)
    (first : (Cursor.Reading.of (Cursor.opcode p.words)).Gives a op c) : ∃ act,
      statement p ⟨⟨a, saved⟩, es⟩ = act ⟨⟨c, saved⟩, es⟩ ∧
        Walks (expression p (p.words.size + 1) 1) (⟨a, 0, op, ·⟩) (Cursor.instruction p.words op a)
          act := by
  have one := (times_one (expression p (p.words.size + 1) 1)).symm
  rw [statement, get_bind, bind_ok _ (read_ok first)]
  cases op with
  | nop => exact ⟨_, rfl, .noted "" rfl⟩
  | callStatement => exact ⟨_, rfl, call_walks (Or.inl rfl)⟩
  | returnValue => exact ⟨_, rfl, .noted "" one⟩
  | jump => exact ⟨_, rfl, .bind Cursor.number_onward fun _ => .noted _ rfl⟩
  | jumpIfFalse => exact ⟨_, rfl, .bind Cursor.number_onward fun _ => .noted _ one⟩
  | assign => exact ⟨_, rfl, .bind Cursor.address_onward fun _ => .noted _ one⟩
  | assignElement =>
    refine ⟨_, rfl, .bind Cursor.address_onward fun _ => .noted _ ?_⟩
    rw [times_succ, ← one]
  | assignPath =>
    exact ⟨_, rfl, .bind Cursor.address_onward fun _ => .bind Cursor.number_onward fun n =>
      .noted _ (times_succ _ n).symm⟩
  | _ => cases kind

theorem statement_refused {c : Nat} (kind : op.isStatement = false)
    (first : (Cursor.Reading.of (Cursor.opcode p.words)).Gives a op c) :
    statement p ⟨⟨a, saved⟩, es⟩ = .error (.invalidOpcode op.word a) ⟨⟨c, saved⟩, es⟩ := by
  rw [statement, get_bind, bind_ok _ (read_ok first)]
  cases op with
  | nop | callStatement | returnValue | jump | jumpIfFalse | assign | assignElement | assignPath =>
    cases kind
  | _ => rfl

theorem operand_walks {k : Nat} (onward : reading.Onward p.words k) (shown : α → Entry) :
    (∃ e b, (reading >>= fun _ => pure none : Cursor.Reading (Option Instruction)).Fails a e b ∧
      (read reading >>= fun x => note (shown x)) ⟨⟨a, saved⟩, es⟩ = .error e ⟨⟨b, saved⟩, es⟩) ∨
    ∃ b x, (reading >>= fun _ => pure none : Cursor.Reading (Option Instruction)).Gives a none b ∧
      (read reading >>= fun x => note (shown x)) ⟨⟨a, saved⟩, es⟩ =
        .ok () ⟨⟨b, saved⟩, es.push (shown x)⟩ := by
  rcases onward a with ⟨x, b, -, -, gives⟩ | ⟨e, b, -, -, fails⟩
  · exact Or.inr ⟨b, x, fun saved => bind_ok _ (gives saved), bind_ok _ (read_ok gives)⟩
  · exact Or.inl ⟨e, b, fun saved => bind_error _ (fails saved), bind_error _ (read_error fails)⟩

variable (p) in
def Notes (a : Nat) (entry : Entry) : Prop :=
  entry.ip = a ∧ ∃ c, (Cursor.Reading.of (Cursor.opcode p.words)).Gives a entry.op c

variable (p Q) in
def Vouched (e : Entry) : Prop :=
  Notes p e.ip e ∧ (e.op.isSimple = false → ∃ i b,
    (Cursor.instruction p.words e.op e.ip).Gives (e.ip + 1) (some i) b ∧ Q e.ip i)

theorem vouched_token {found : Option Instruction} (notes : Notes p a e)
    (gives : (Cursor.token p.words).Gives a found b) (property : ∀ i ∈ found, Q a i) :
    Vouched p Q e := by
  obtain ⟨rfl, c, first⟩ := notes
  refine ⟨⟨rfl, c, first⟩, fun compound => ?_⟩
  obtain ⟨i, rfl, rest⟩ := Cursor.token_instruction gives first compound
  obtain rfl := Cursor.opcode_next first
  exact ⟨i, b, rest, property i rfl⟩

theorem token_walks : (∃ e b, (Cursor.token p.words).Fails a e b ∧
      token p below depth ⟨⟨a, saved⟩, es⟩ = .error e ⟨⟨b, saved⟩, es⟩) ∨
    ∃ found b entry, (Cursor.token p.words).Gives a found b ∧ Notes p a entry ∧
      token p below depth ⟨⟨a, saved⟩, es⟩ =
        times below (expressionsOf found) ⟨⟨b, saved⟩, es.push entry⟩ := by
  rcases @Cursor.opcode_onward p.words a with ⟨op, c, -, -, first⟩ | ⟨e, b, -, -, fails⟩
  · cases simple : op.isSimple with
    | false =>
      have rest := @Cursor.tokenRest_compound p.words op a simple
      cases kind : op.isStatement with
      | true =>
        exact Or.inl ⟨_, c, Cursor.headed_fails first (Cursor.tokenRest_refused kind),
          token_refused kind first⟩
      | false =>
        rw [kind] at rest
        obtain ⟨act, acts, walks⟩ := @token_compound p below a depth saved es op c simple kind first
        rw [acts]
        rcases walks c saved es with ⟨e, b, fails, walks⟩ | ⟨i, b, text, gives, walks⟩
        · exact Or.inl ⟨e, b, Cursor.headed_fails first (rest ▸ fails), walks⟩
        · exact Or.inr ⟨some i, b, _, Cursor.headed_gives first (rest ▸ gives),
            ⟨rfl, c, first⟩, walks⟩
    | true =>
      rw [token, get_bind, bind_ok _ (read_ok first)]
      cases op with
      | literal =>
        rcases operand_walks Cursor.number_onward _ with ⟨e, b, fails, walks⟩ | ⟨b, _, gives, walks⟩
        · exact Or.inl ⟨e, b, Cursor.headed_fails first fails, walks⟩
        · exact Or.inr ⟨none, b, _, Cursor.headed_gives first gives, ⟨rfl, c, first⟩, walks⟩
      | load =>
        rcases operand_walks Cursor.address_onward _ with ⟨e, b, fails, walks⟩ | ⟨b, _,
          gives, walks⟩
        · exact Or.inl ⟨e, b, Cursor.headed_fails first fails, walks⟩
        · exact Or.inr ⟨none, b, _, Cursor.headed_gives first gives, ⟨rfl, c, first⟩, walks⟩
      | binary | unary =>
        exact Or.inr ⟨none, c, _, Cursor.headed_gives first fun _ => rfl, ⟨rfl, c, first⟩, rfl⟩
      | _ => cases simple
  · refine Or.inl ⟨e, b, Cursor.headed_missing fails, ?_⟩
    rw [token, get_bind, bind_error _ (read_error fails)]

theorem statement_walks : (∃ e b, (Cursor.statement p.words).Fails a e b ∧
      statement p ⟨⟨a, saved⟩, es⟩ = .error e ⟨⟨b, saved⟩, es⟩) ∨
    ∃ i b op text, (Cursor.statement p.words).Gives a (some i) b ∧
      (∃ c, (Cursor.Reading.of (Cursor.opcode p.words)).Gives a op c) ∧
      statement p ⟨⟨a, saved⟩, es⟩ = times (expression p (p.words.size + 1) 1) i.expressions
        ⟨⟨b, saved⟩, es.push ⟨a, 0, op, text⟩⟩ := by
  rcases @Cursor.opcode_onward p.words a with ⟨op, c, -, -, first⟩ | ⟨e, b, -, -, fails⟩
  · cases kind : op.isStatement with
    | false =>
      exact Or.inl ⟨_, c, Cursor.headed_fails first (Cursor.statementRest_refused kind),
        statement_refused kind first⟩
    | true =>
      have rest := @Cursor.statementRest_statement p.words op a kind
      obtain ⟨act, acts, walks⟩ := @statement_compound p a saved es op c kind first
      rw [acts]
      rcases walks c saved es with ⟨e, b, fails, walks⟩ | ⟨i, b, text, gives, walks⟩
      · exact Or.inl ⟨e, b, Cursor.headed_fails first (rest ▸ fails), walks⟩
      · exact Or.inr ⟨i, b, op, text, Cursor.headed_gives first (rest ▸ gives), ⟨c, first⟩, walks⟩
  · refine Or.inl ⟨e, b, Cursor.headed_missing fails, ?_⟩
    rw [statement, get_bind, bind_error _ (read_error fails)]

section Follows

variable {act : Walking Unit} {later : Nat → Pending}

variable (p) in
/-- Whoever has walked this far has read a part of what was left to read. If that has a property,
then so have the instructions of the entries that were added. -/
def Follows (act : Walking Unit) (before after : Pending) : Prop :=
  ∀ {a : Nat} {saved : List Nat} {es : Array Entry} {w : Walk}, act ⟨⟨a, saved⟩, es⟩ = .ok () w →
    w.cursor.saved = saved ∧ (∀ e ∈ es, e ∈ w.entries) ∧
      (∀ {rest b}, Spans p.words w.cursor.ip (after :: rest) b →
        Spans p.words a (before :: rest) b) ∧
      ∀ {Q rest b}, Vetted p.words Q a (before :: rest) b →
        Vetted p.words Q w.cursor.ip (after :: rest) b ∧ ∀ e ∈ w.entries, e ∈ es ∨ Vouched p Q e

theorem times_follows (follows : ∀ n, Follows p act (later (n + 1)) (later n)) (k : Nat) :
    Follows p (times act k) (later k) (later 0) := by
  induction k with
  | zero =>
    intro a saved es w walked
    cases walked
    exact ⟨rfl, fun _ => id, id, fun vetted => ⟨vetted, fun _ => Or.inl⟩⟩
  | succ k ih =>
    intro a saved es w walked
    obtain ⟨_, ⟨⟨c, saved'⟩, es'⟩, first, walked⟩ := of_bind_ok walked
    obtain ⟨same, kept, reads, vouches⟩ := follows k first
    obtain ⟨same', kept', reads', vouches'⟩ := ih walked
    refine ⟨same'.trans same, fun e member => kept' e (kept e member),
      fun spans => reads (reads' spans), fun vetted => ?_⟩
    obtain ⟨vetted, new⟩ := vouches vetted
    obtain ⟨vetted, new'⟩ := vouches' vetted
    exact ⟨vetted, fun e member => (new' e member).elim (new e) Or.inr⟩

theorem token_follows (follows : ∀ n, Follows p below (.parts (n + 1)) (.parts n)) (n : Nat) :
    Follows p (token p below depth) (.tokens (n + 1)) (.tokens n) := by
  intro a saved es w walked
  rcases token_walks with ⟨e, b, -, walks⟩ | ⟨found, c, entry, gives, notes, walks⟩
  · rw [walks] at walked
    cases walked
  · rw [walks] at walked
    obtain ⟨same, kept, reads, vouches⟩ := times_follows follows (expressionsOf found) walked
    refine ⟨same, fun e member => kept e (Array.mem_push_of_mem _ member),
      fun spans => (Spans.token_iff gives).mpr (reads (.parts spans)), fun vetted => ?_⟩
    obtain ⟨property, vetted⟩ := vetted.of_token gives
    obtain ⟨vetted, new⟩ := vouches vetted
    refine ⟨vetted.of_parts_zero, fun e member => (new e member).elim (fun old => ?_) Or.inr⟩
    rcases Array.mem_push.mp old with old | rfl
    · exact Or.inl old
    · exact Or.inr (vouched_token notes gives property)

theorem expression_follows (levels depth n : Nat) :
    Follows p (expression p levels depth) (.parts (n + 1)) (.parts n) := by
  induction levels generalizing depth n with
  | zero =>
    intro a saved es w walked
    cases walked
  | succ levels ih =>
    intro a saved es w walked
    rcases @Cursor.number_onward p.words a with ⟨count, c, -, -, gives⟩ | ⟨e, b, -, -, fails⟩
    · rw [expression, bind_ok _ (read_ok gives)] at walked
      obtain ⟨same, kept, reads, vouches⟩ := times_follows (token_follows (ih (depth + 1)))
        count walked
      refine ⟨same, kept, fun spans => (Spans.open_iff gives).mpr (reads (.tokens spans)),
        fun vetted => ?_⟩
      obtain ⟨vetted, new⟩ := vouches (vetted.of_open gives)
      exact ⟨vetted.of_tokens_zero, new⟩
    · rw [expression, bind_error _ (read_error fails)] at walked
      cases walked

theorem statement_follows {w : Walk} (walked : statement p ⟨⟨a, saved⟩, es⟩ = .ok () w) :
    w.cursor.saved = saved ∧ (∀ e ∈ es, e ∈ w.entries) ∧
    (∃ i, Spans.Statement p.words a i w.cursor.ip) ∧
      ∃ op c text, (Cursor.Reading.of (Cursor.opcode p.words)).Gives a op c ∧
        ⟨a, 0, op, text⟩ ∈ w.entries := by
  rcases statement_walks with ⟨e, b, -, walks⟩ | ⟨i, b, op, text, gives, ⟨c, first⟩, walks⟩
  · rw [walks] at walked
    cases walked
  · rw [walks] at walked
    obtain ⟨same, kept, reads, -⟩ :=
      times_follows (expression_follows (p.words.size + 1) 1) i.expressions walked
    exact ⟨same, fun e member => kept e (Array.mem_push_of_mem _ member),
      ⟨i, b, gives, reads (.parts (.done _))⟩, op, c, text, first, kept _ Array.mem_push_self⟩

end Follows

section Carries

variable {act : Walking Unit} {later : Nat → Pending} {bound : Nat}

variable (p) in
/-- What is left to read can be walked over, from addresses that are near enough to the end. -/
def Carries (bound : Nat) (act : Walking Unit) (before after : Pending) : Prop :=
  ∀ {a b : Nat} (saved : List Nat) (es : Array Entry) {rest : List Pending},
    p.words.size < bound + a → Spans p.words a (before :: rest) b →
    ∃ c es', act ⟨⟨a, saved⟩, es⟩ = .ok () ⟨⟨c, saved⟩, es'⟩ ∧ a ≤ c ∧
      Spans p.words c (after :: rest) b

theorem times_carries (carries : ∀ n, Carries p bound act (later (n + 1)) (later n)) (k : Nat) :
    Carries p bound (times act k) (later k) (later 0) := by
  induction k with
  | zero =>
    intro a b saved es rest near spans
    exact ⟨a, es, rfl, Nat.le_refl a, spans⟩
  | succ k ih =>
    intro a b saved es rest near spans
    obtain ⟨c, es', first, far, spans⟩ := carries k saved es near spans
    obtain ⟨d, es'', walks, farther, spans⟩ := ih saved es' (by omega) spans
    exact ⟨d, es'', (bind_ok _ first).trans walks, by omega, spans⟩

theorem token_carries (carries : ∀ n, Carries p bound below (.parts (n + 1)) (.parts n)) (n : Nat) :
    Carries p bound (token p below depth) (.tokens (n + 1)) (.tokens n) := by
  intro a b saved es rest near spans
  rcases token_walks with ⟨e, c, fails, -⟩ | ⟨found, c, entry, gives, -, walks⟩
  · exact absurd spans (Spans.not_token fails)
  · have far := (Cursor.token_onward.far gives).1
    rw [Spans.token_iff gives] at spans
    obtain ⟨d, es', walked, farther, spans⟩ :=
      times_carries carries (expressionsOf found) saved (es.push entry) (by omega) spans
    exact ⟨d, es', walks.trans walked, by omega, Spans.parts_zero.mp spans⟩

theorem expression_carries (levels depth n : Nat) :
    Carries p levels (expression p levels depth) (.parts (n + 1)) (.parts n) := by
  induction levels generalizing depth n with
  | zero =>
    intro a b saved es rest near spans
    cases spans with
    | open_ gives _ =>
      have := Cursor.number_onward.far gives
      omega
  | succ levels ih =>
    intro a b saved es rest near spans
    rcases @Cursor.number_onward p.words a with ⟨count, c, far, -, gives⟩ | ⟨e, b, -, -, fails⟩
    · rw [Spans.open_iff gives] at spans
      obtain ⟨d, es', walked, farther, spans⟩ :=
        times_carries (token_carries (ih (depth + 1))) count saved es (by omega) spans
      refine ⟨d, es', ?_, by omega, Spans.tokens_zero.mp spans⟩
      rw [expression, bind_ok _ (read_ok gives), walked]
    · exact absurd spans (Spans.not_open fails)

theorem statement_carries {i : Instruction} (saved : List Nat) (es : Array Entry)
    (spans : Spans.Statement p.words a i b) :
    ∃ es', statement p ⟨⟨a, saved⟩, es⟩ = .ok () ⟨⟨b, saved⟩, es'⟩ := by
  obtain ⟨c, gives, spans⟩ := spans
  rcases @statement_walks p a saved es with ⟨e, d, fails, -⟩ | ⟨j, d, op, text, gives', -, walks⟩
  · exact absurd fails gives.not_fails
  · obtain ⟨same, rfl⟩ := gives.unique gives'
    cases same
    obtain ⟨d, es', walked, -, spans⟩ :=
      times_carries (expression_carries (p.words.size + 1) 1) i.expressions saved
        (es.push ⟨a, 0, op, text⟩) (by omega) spans
    obtain rfl := Spans.nil_iff.mp (Spans.parts_zero.mp spans)
    exact ⟨es', walks.trans walked⟩

end Carries

end Listing

end Scriptlet
