import Scriptlet.Proofs.Machine.Safety
import Scriptlet.Proofs.Machine.Turns

/-!
Where statements start in the code of sound bodies. The words of a compiled statement are those that
its instruction spans, so the statements of a body lie one behind the other, and those of bodies
that lie one behind the other do so too. A listing goes through all of them and stops at the end of
the words.
-/
namespace Scriptlet

open Code

variable {p : Program} {b : Body} {ip c n : Nat} {rest : List Pending} {x : Statement}
  {Q : Instruction → Prop}

section Readings

variable {words : Array UInt32} {ws : List UInt32} {op : Opcode}

theorem Cursor.number_gives (small : n < 2 ^ 32) (holds : Holds words ip (.ofNat n :: ws)) :
    (Cursor.number words).Gives ip n (ip + 1) :=
  fun _ => Cursor.number_ok small holds

theorem Cursor.opcode_gives (holds : Holds words ip (op.word :: ws)) :
    (Cursor.Reading.of (Cursor.opcode words)).Gives ip op (ip + 1) :=
  fun _ => Cursor.opcode_ok holds

theorem Cursor.literal_gives (small : n < 2 ^ 32)
    (holds : Holds words ip [Opcode.literal.word, .ofNat n]) :
    (Cursor.token words).Gives ip none (ip + 2) := by
  refine Cursor.headed_gives (Cursor.opcode_gives holds) fun saved => ?_
  rw [Cursor.tokenRest, Actions.bind_ok _ (Cursor.number_ok small holds.tail)]
  rfl

theorem Cursor.load_gives {a : Address} (small : a.index.toNat < 2 ^ 28)
    (holds : Holds words ip [Opcode.load.word, a.pack]) :
    (Cursor.token words).Gives ip none (ip + 2) := by
  refine Cursor.headed_gives (Cursor.opcode_gives holds) fun saved => ?_
  rw [Cursor.tokenRest, Actions.bind_ok _ (Cursor.address_ok small holds.tail)]
  rfl

theorem Cursor.head_gives {head : Head} (fits : head.Fits n) (small : n < 2 ^ 32)
    (holds : Holds words ip (head.words n)) :
    (Cursor.token words).Gives ip (some (head.instruction ip n)) (ip + (head.words n).length) := by
  rw [head.words_eq] at holds ⊢
  refine Cursor.headed_gives (Cursor.opcode_gives holds) fun saved => ?_
  have rest : Cursor.tokenRest words ip head.opcode = Cursor.instruction words head.opcode ip := by
    cases head <;> rfl
  rw [rest, Cursor.head_ok fits small holds.tail, List.length_cons, Nat.add_assoc, Nat.add_comm 1]

theorem Cursor.statement_gives {i : Instruction} (kind : op.isStatement = true)
    (holds : Holds words ip (op.word :: ws))
    (rest : ∀ saved, Cursor.instruction words op ip ⟨ip + 1, saved⟩ = .ok (some i) ⟨c, saved⟩) :
    (Cursor.statement words).Gives ip (some i) c := by
  refine Cursor.headed_gives (Cursor.opcode_gives holds) fun saved => ?_
  rw [Cursor.statementRest_statement ip kind, rest]

end Readings

theorem few_of_holds (sound : p.Sound) {ws : List UInt32} (holds : Holds p.words ip ws)
    (few : n ≤ ws.length) : n < 2 ^ 32 := by
  have := holds.le_size
  have := sound.words
  omega

section Expressions

def Grants (r : References) (Q : Nat → Instruction → Prop) : Prop :=
  ∀ (a : Nat) (head : Head) (n : Nat), head.Valid r n → Q a (head.instruction a n)

variable {r : References} {Q : Nat → Instruction → Prop}

mutual

theorem vetted_term (sound : p.Sound) (within : r.Within (b.references p)) (heads : Grants r Q) :
    (t : Term) → {ip c n : Nat} → {rest : List Pending} → Holds p.words ip t.words → t.Valid r →
    Vetted p.words Q (ip + t.words.length) (.tokens n :: rest) c →
    Vetted p.words Q ip (.tokens (n + 1) :: rest) c
  | .literal place, ip, c, n, rest, holds, valid, later => by
    rw [Term.words] at holds later
    rw [Term.Valid] at valid
    have small := Nat.lt_of_lt_of_le (within.literal place valid) sound.literals
    exact .token (Cursor.literal_gives small holds) (by simp) (.parts later)
  | .load slot, ip, c, n, rest, holds, valid, later => by
    rw [Term.words] at holds later
    rw [Term.Valid] at valid
    exact .token (Cursor.load_gives (within.slot slot valid).2 holds) (by simp) (.parts later)
  | .binary op, ip, c, n, rest, holds, _, later => by
    rw [Term.words] at holds later
    exact .token (Cursor.headed_gives (Cursor.opcode_gives holds) fun _ => rfl) (by simp)
      (.parts later)
  | .unary op, ip, c, n, rest, holds, _, later => by
    rw [Term.words] at holds later
    exact .token (Cursor.headed_gives (Cursor.opcode_gives holds) fun _ => rfl) (by simp)
      (.parts later)
  | .compound head parts, ip, c, n, rest, holds, valid, later => by
    rw [Term.words] at holds later
    rw [Term.Valid] at valid
    obtain ⟨front, behind⟩ := holds.append
    rw [List.length_append, ← Nat.add_assoc] at later
    have fits := sound.head_fits (valid.1.mono within)
    have few := few_of_holds sound behind (partsWords_length_le parts)
    refine .token (Cursor.head_gives fits few front) (by simpa using heads ip head _ valid.1) ?_
    exact vetted_parts sound within heads parts behind valid.2 later

theorem vetted_terms (sound : p.Sound) (within : r.Within (b.references p)) (heads : Grants r Q) :
    (ts : List Term) → {ip c : Nat} → {rest : List Pending} → Holds p.words ip (termsWords ts) →
    termsValid r ts →
    Vetted p.words Q (ip + (termsWords ts).length) rest c →
    Vetted p.words Q ip (.tokens ts.length :: rest) c
  | [], ip, c, rest, _, _, later => by
    rw [termsWords] at later
    exact .tokens later
  | t :: ts, ip, c, rest, holds, valid, later => by
    rw [termsWords] at holds later
    rw [termsValid] at valid
    rw [List.length_append, ← Nat.add_assoc] at later
    exact vetted_term sound within heads t holds.append.1 valid.1
      (vetted_terms sound within heads ts holds.append.2 valid.2 later)

theorem vetted_parts (sound : p.Sound) (within : r.Within (b.references p)) (heads : Grants r Q) :
    (fs : List (List Term)) → {ip c : Nat} → {rest : List Pending} →
    Holds p.words ip (partsWords fs) → partsValid r fs →
    Vetted p.words Q (ip + (partsWords fs).length) rest c →
    Vetted p.words Q ip (.parts fs.length :: rest) c
  | [], ip, c, rest, _, _, later => by
    rw [partsWords] at later
    exact .parts later
  | f :: fs, ip, c, rest, holds, valid, later => by
    rw [Machine.Inside.partsWords_rest] at later
    rw [partsWords] at holds
    rw [partsValid] at valid
    obtain ⟨first, others⟩ := holds.tail.append
    refine .open_ (Cursor.number_gives (few_of_holds sound first (termsWords_length_le f)) holds) ?_
    exact vetted_terms sound within heads f first valid.1.2
      (vetted_parts sound within heads fs others valid.2 later)

end

end Expressions

namespace Code

def Target.address : Target → Nat
  | .ip a => a
  | _ => 0

def Statement.instruction (ip : Nat) : Statement → Instruction
  | .plain q => q.instruction ip
  | .jump target => ⟨.jump, ip, .address target.address, 0⟩
  | .jumpIfFalse target _ => ⟨.jumpIfFalse, ip, .address target.address, 1⟩

theorem Statement.instruction_target? (ip : Nat) (x : Statement) :
    (x.instruction ip).target? = x.target?.map Target.address := by
  cases x with
  | plain q => cases q <;> rfl
  | jump | jumpIfFalse => rfl

theorem Statement.instruction_expressions (ip : Nat) (x : Statement) :
    (x.instruction ip).expressions = x.parts.length := by
  cases x <;> rfl

variable {r : References}

theorem Statement.Valid.parts (valid : x.Valid r) : partsValid r x.parts := by
  cases x with
  | plain q => exact valid.2
  | jump target => simp only [Statement.parts, partsValid]
  | jumpIfFalse target test => exact valid

theorem Statement.Valid.slot (valid : x.Valid r) {slot : Address}
    (stores : (x.instruction ip).slot? = some slot) : r.target slot := by
  cases x with
  | plain q =>
    cases q with
    | call | returnValue => cases stores
    | assign | assignPath =>
      cases stores
      exact valid.1
  | jump | jumpIfFalse => cases stores

end Code

theorem statement_front (sound : p.Sound) (holds : Holds p.words ip (x.words Target.word))
    (valid : x.Valid (b.references p)) (inside : ∀ t, x.target? = some t → ∃ a ≤ p.words.size,
      t = .ip a) :
    ∃ c, (Cursor.statement p.words).Gives ip (some (x.instruction ip)) c ∧
      Holds p.words c (partsWords x.parts) ∧ c + (partsWords x.parts).length = ip + x.size := by
  rw [← x.words_length Target.word]
  cases x with
  | plain q =>
    rw [Statement.words, Plain.words] at holds ⊢
    obtain ⟨front, behind⟩ := holds.append
    have few := few_of_holds sound behind (partsWords_length_le q.parts)
    refine ⟨ip + q.front.length, ?_, behind, by rw [List.length_append, Nat.add_assoc]; rfl⟩
    rw [q.front_eq] at front ⊢
    refine Cursor.statement_gives (by cases q <;> rfl) front fun saved => ?_
    rw [Cursor.plain_ok (sound.plain_fits valid.1) few front.tail, List.length_cons, Nat.add_assoc,
      Nat.add_comm 1]
    rfl
  | jump target =>
    obtain ⟨a, bound, rfl⟩ := inside target rfl
    have small := Nat.lt_of_le_of_lt bound sound.words
    exact ⟨ip + 2, Cursor.statement_gives rfl holds fun _ => Cursor.jump_ok small holds.tail,
      holds.tail.tail, rfl⟩
  | jumpIfFalse target test =>
    obtain ⟨a, bound, rfl⟩ := inside target rfl
    have small := Nat.lt_of_le_of_lt bound sound.words
    refine ⟨ip + 2, Cursor.statement_gives rfl holds fun _ =>
      Cursor.jumpIfFalse_ok small holds.tail, holds.tail.tail, ?_⟩
    rw [Statement.words, List.length_cons, List.length_cons, Nat.add_assoc, Nat.add_comm 2]
    rfl

theorem statement_vetted (sound : p.Sound) {r : References} {Q : Nat → Instruction → Prop}
    (within : r.Within (b.references p)) (heads : Grants r Q)
    (holds : Holds p.words ip (x.words Target.word)) (valid : x.Valid r)
    (inside : ∀ t, x.target? = some t → ∃ a ≤ p.words.size, t = .ip a)
    (property : Q ip (x.instruction ip)) :
    Vetted.Statement p.words Q ip (x.instruction ip) (ip + x.size) := by
  obtain ⟨c, gives, parts, size⟩ := statement_front sound holds (valid.mono within) inside
  refine ⟨c, gives, property, ?_⟩
  rw [x.instruction_expressions]
  exact vetted_parts sound within heads x.parts parts valid.parts (size ▸ .done _)

theorem statement_spans (sound : p.Sound) (holds : Holds p.words ip (x.words Target.word))
    (valid : x.Valid (b.references p)) (inside : ∀ t, x.target? = some t → ∃ a ≤ p.words.size,
      t = .ip a) :
    Spans.Statement p.words ip (x.instruction ip) (ip + x.size) := by
  have vetted : Vetted.Statement p.words (fun _ _ => True) ip (x.instruction ip) (ip + x.size) :=
    statement_vetted sound (.refl (b.references p)) (fun _ _ _ _ => trivial) holds valid
      inside trivial
  exact vetted.spans

/-- From the address to the end of the words there are statements at these addresses, and all their
instructions have the property. -/
inductive Chained (words : Array UInt32) (Q : Instruction → Prop) : Nat → List Nat → Prop where
  | done : Chained words Q words.size []
  | statement {a b : Nat} {i : Instruction} {starts : List Nat} : Spans.Statement words a i b →
      Q i → Chained words Q b starts → Chained words Q a (a :: starts)

namespace Chained

variable {words : Array UInt32} {Q : Instruction → Prop} {a : Nat} {starts : List Nat}

theorem length_le (chained : Chained words Q a starts) : a + starts.length ≤ words.size := by
  induction chained with
  | done => exact Nat.le_refl _
  | statement spans _ _ ih =>
    have := spans.lt
    rw [List.length_cons]
    omega

theorem mem_lt (chained : Chained words Q a starts) (member : c ∈ starts) : c < words.size := by
  induction chained with
  | done => cases member
  | statement spans _ later ih =>
    rcases List.mem_cons.mp member with rfl | member
    · exact Nat.lt_of_lt_of_le spans.lt (Nat.le_trans (Nat.le_add_right _ _) later.length_le)
    · exact ih member

theorem first (chained : Chained words Q a starts) : a ∈ starts ∨ a = words.size := by
  cases chained with
  | done => exact Or.inr rfl
  | statement _ _ _ => exact Or.inl List.mem_cons_self

theorem statement_at (chained : Chained words Q a starts) (member : c ∈ starts) :
    ∃ i d, Spans.Statement words c i d ∧ Q i ∧ (d ∈ starts ∨ d = words.size) := by
  induction chained with
  | done => cases member
  | statement spans property later ih =>
    rcases List.mem_cons.mp member with rfl | member
    · exact ⟨_, _, spans, property, later.first.imp_left (List.mem_cons_of_mem _)⟩
    · obtain ⟨i, d, spans, property, next⟩ := ih member
      exact ⟨i, d, spans, property, next.imp_left (List.mem_cons_of_mem _)⟩

end Chained

theorem row_chained (sound : p.Sound) (final : ∀ ip, Q (Statement.final.instruction ip))
    {starts : List Nat} (row : List Statement) :
    ∀ {start : Nat}, Holds p.words start (rowWords Target.word (row ++ [Statement.final])) →
      (∀ x ∈ row, x.Valid (b.references p) ∧
        (∀ t, x.target? = some t → ∃ a ≤ p.words.size, t = .ip a) ∧ ∀ ip, Q (x.instruction ip)) →
      Chained p.words Q (start + rowSize (row ++ [Statement.final])) starts →
      Chained p.words Q start (bounds start row ++ starts) := by
  induction row with
  | nil =>
    intro start holds _ later
    rw [List.nil_append, rowWords_cons] at holds
    rw [List.nil_append, rowSize_cons, rowSize_nil, Nat.add_zero] at later
    have spans := statement_spans sound holds.append.1 (Statement.final_valid (b.references p))
      (by simp [Statement.final, Statement.target?])
    exact .statement spans (final start) later
  | cons x row ih =>
    intro start holds all later
    obtain ⟨⟨valid, inside, property⟩, others⟩ := List.forall_mem_cons.mp all
    rw [List.cons_append, rowWords_cons] at holds
    rw [List.cons_append, rowSize_cons, ← Nat.add_assoc] at later
    have spans := statement_spans sound holds.append.1 valid inside
    have behind := holds.append.2
    rw [x.words_length] at behind
    exact .statement spans (property start) (ih behind others later)

/-- The addresses of the statements of all bodies. -/
def boundaries (bs : List Body) : List Nat := bs.flatMap fun b => bounds b.start b.row

theorem bodies_chained (sound : p.Sound) (final : ∀ ip, Q (Statement.final.instruction ip))
    {bs : List Body} {a : Nat}
    (paves : Body.Paves a bs p.words.size) (sounds : ∀ b ∈ bs, b.Sound p)
    (all : ∀ b ∈ bs, ∀ x ∈ b.row, ∀ ip, Q (x.instruction ip)) :
    Chained p.words Q a (boundaries bs) := by
  induction bs generalizing a with
  | nil =>
    obtain rfl : a = p.words.size := paves
    exact .done
  | cons b bs ih =>
    obtain ⟨rfl, paves⟩ := paves
    obtain ⟨body, sounds⟩ := List.forall_mem_cons.mp sounds
    obtain ⟨here, all⟩ := List.forall_mem_cons.mp all
    refine row_chained (b := b) sound final b.row body.placed (fun x member => ?_)
      (ih paves sounds all)
    refine ⟨body.valid x member, fun t aims => ?_, here x member⟩
    obtain ⟨a, there, rfl⟩ := body.targets x member t aims
    exact ⟨a, body.inRange there, rfl⟩

namespace Listing

theorem statements_done (n : Nat) (saved : List Nat) (es : Array Entry) :
    statements p n ⟨⟨p.words.size, saved⟩, es⟩ = .ok () ⟨⟨p.words.size, saved⟩, es⟩ := by
  cases n with
  | zero => rfl
  | succ n =>
    have ended : Cursor.atEnd p.words ⟨p.words.size, saved⟩ = true := by simp [Cursor.atEnd]
    rw [statements, Actions.get_bind]
    simp only [ended]
    rfl

theorem statements_more {a n : Nat} {saved : List Nat} {es : Array Entry} {w : Walk}
    (inside : a < p.words.size) (walked : statement p ⟨⟨a, saved⟩, es⟩ = .ok () w) :
    statements p (n + 1) ⟨⟨a, saved⟩, es⟩ = statements p n w := by
  have more : Cursor.atEnd p.words ⟨a, saved⟩ = false := by simp [Cursor.atEnd, inside]
  rw [statements, Actions.get_bind]
  simp only [more, Bool.not_false, ↓reduceIte]
  rw [Actions.bind_ok _ walked]

theorem statements_chained {a : Nat} {starts : List Nat}
    (chained : Chained p.words Q a starts) : ∀ {n : Nat}, starts.length ≤ n →
      ∀ (saved : List Nat) (es : Array Entry), ∃ es',
        statements p n ⟨⟨a, saved⟩, es⟩ = .ok () ⟨⟨p.words.size, saved⟩, es'⟩ ∧
        (∀ e ∈ es, e ∈ es') ∧ ∀ c ∈ starts, ∃ op d text,
          (Cursor.Reading.of (Cursor.opcode p.words)).Gives c op d ∧ ⟨c, 0, op, text⟩ ∈ es' := by
  induction chained with
  | done =>
    intro n _ saved es
    exact ⟨es, statements_done n saved es, fun _ => id, by simp⟩
  | @statement a b i starts spans _ later ih =>
    intro n enough saved es
    obtain ⟨n, rfl⟩ : ∃ k, n = k + 1 := Nat.exists_eq_succ_of_ne_zero (by
      rw [List.length_cons] at enough
      omega)
    have inside := Nat.lt_of_lt_of_le spans.lt (Nat.le_trans (Nat.le_add_right _ _) later.length_le)
    obtain ⟨es₁, walked⟩ := statement_carries saved es spans
    obtain ⟨-, kept, -, op, d, text, first, noted⟩ := statement_follows walked
    obtain ⟨es₂, rest, kept₂, entries⟩ := ih (Nat.le_of_succ_le_succ enough) saved es₁
    refine ⟨es₂, ?_, fun e member => kept₂ e (kept e member), ?_⟩
    · rw [statements_more inside walked, rest]
    · exact List.forall_mem_cons.mpr ⟨⟨op, d, text, first, kept₂ _ noted⟩, entries⟩

end Listing

end Scriptlet
