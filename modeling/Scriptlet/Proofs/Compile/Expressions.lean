import Scriptlet.Proofs.Compile.Emission

/-!
What the rules of expressions write. A rule that succeeds appends a row of tokens that leaves one
more operand and refers only to what is there. Arguments, indexes and items of lists are rows of
their own behind their counts. Folding takes back operands that are literals and writes their
result, which is again a literal.
-/
namespace Scriptlet.Compile

open Actions Code

variable {s s' t : Session} {ws : List UInt32} {k : Constant} {ts us : List Term}
  {fs : List (List Term)} {c r : Option Constant} {v : Value}

structure Writes (s s' : Session) (ts : List Term) : Prop where
  emits : Emits s s' (termsWords ts) ts.length
  called : Called s s'
  valid : termsValid s'.references ts
  fills : Fills s.literals s'.literals (termsLiterals ts)

structure WritesParts (s s' : Session) (fs : List (List Term)) : Prop where
  emits : Emits s s' (partsWords fs) 0
  called : Called s s'
  valid : partsValid s'.references fs
  fills : Fills s.literals s'.literals (partsLiterals fs)

structure Outcome (s s' : Session) (c : Option Constant) (ts : List Term) : Prop where
  writes : Writes s s' ts
  pushes : Pushes ts
  single : ∀ k, c = some k → Single s s' k
  load : s'.load ≤ s.load

theorem Emits.of_reads {k : Nat} (reads : Reads s t) (emits : Emits t s' ws k) :
    Emits s s' ws k := by
  simpa using reads.emits.trans emits

theorem Emits.then_reads {k : Nat} (emits : Emits s t ws k) (reads : Reads t s') :
    Emits s s' ws k := by
  simpa using emits.trans reads.emits

theorem Writes.append (first : Writes s t ts) (second : Writes t s' us) :
    Writes s s' (ts ++ us) := by
  refine ⟨?_, first.called.trans second.called second.emits.grows, ?_, ?_⟩
  · rw [termsWords_append, List.length_append]
    exact first.emits.trans second.emits
  · exact termsValid_append.mpr
      ⟨termsValid_mono second.emits.grows.within _ first.valid, second.valid⟩
  · rw [termsLiterals_append]
    exact first.fills.trans second.fills

theorem Writes.of_reads (reads : Reads s t) (writes : Writes t s' ts) : Writes s s' ts :=
  ⟨writes.emits.of_reads reads, reads.called.trans writes.called writes.emits.grows, writes.valid,
    reads.literals ▸ writes.fills⟩

theorem Writes.then_reads (writes : Writes s t ts) (reads : Reads t s') : Writes s s' ts :=
  ⟨writes.emits.then_reads reads, writes.called.trans reads.called reads.emits.grows,
    termsValid_mono reads.emits.grows.within _ writes.valid, reads.literals ▸ writes.fills⟩

theorem WritesParts.nil (s : Session) : WritesParts s s [] :=
  ⟨by simpa [partsWords] using Emits.refl s, .refl s, by simp [partsValid], .refl _ _⟩

theorem WritesParts.append {gs : List (List Term)} (first : WritesParts s t fs)
    (second : WritesParts t s' gs) : WritesParts s s' (fs ++ gs) := by
  refine ⟨?_, first.called.trans second.called second.emits.grows, ?_, ?_⟩
  · rw [partsWords_append]
    exact first.emits.trans second.emits
  · exact partsValid_append.mpr
      ⟨partsValid_mono second.emits.grows.within _ first.valid, second.valid⟩
  · rw [partsLiterals_append]
    exact first.fills.trans second.fills

theorem WritesParts.of_reads (reads : Reads s t) (writes : WritesParts t s' fs) :
    WritesParts s s' fs :=
  ⟨writes.emits.of_reads reads, reads.called.trans writes.called writes.emits.grows, writes.valid,
    reads.literals ▸ writes.fills⟩

theorem WritesParts.then_reads (writes : WritesParts s t fs) (reads : Reads t s') :
    WritesParts s s' fs :=
  ⟨writes.emits.then_reads reads, writes.called.trans reads.called reads.emits.grows,
    partsValid_mono reads.emits.grows.within _ writes.valid, reads.literals ▸ writes.fills⟩

theorem Outcome.of_reads (reads : Reads s t)
    (load : t.load ≤ s.load) (outcome : Outcome t s' c ts) : Outcome s s' c ts :=
  ⟨outcome.writes.of_reads reads, outcome.pushes,
    fun k same => (outcome.single k same).of_reads reads, Nat.le_trans outcome.load load⟩

theorem Outcome.then_reads (outcome : Outcome s t c ts)
    (reads : Reads t s') (load : s'.load ≤ t.load) : Outcome s s' c ts :=
  ⟨outcome.writes.then_reads reads, outcome.pushes,
    fun k same => (outcome.single k same).then_reads reads, Nat.le_trans load outcome.load⟩

theorem Single.load_eq (single : Single s s' k) (tokens : s'.tokens = s.tokens) :
    s'.load = s.load := by
  obtain ⟨_, _, _, rfl⟩ := single.rest
  simp only at tokens
  simp [Session.load, tokens]

/-- All that was done is to write a literal that stands for `v`. -/
structure WritesLiteral (s s' : Session) (k : Constant) (v : Value) : Prop where
  value : k.value = v
  outcome : ∃ i w, Outcome s s' (some k) [.literal i] ∧ s'.literals[i]? = some w ∧ StandsFor w v

theorem WritesLiteral.of_reads (reads : Reads s t)
    (load : t.load ≤ s.load) (writes : WritesLiteral t s' k v) : WritesLiteral s s' k v := by
  obtain ⟨i, w, outcome, found⟩ := writes.outcome
  exact ⟨writes.value, i, w, outcome.of_reads reads load, found⟩

theorem emitLiteral_writes (atom : v.isList = false)
    (ok : emitLiteral v s = .ok k s') : WritesLiteral s s' k v := by
  obtain ⟨single, rfl, tokens⟩ := emitLiteral_ok atom ok
  obtain ⟨i, w, found, stands, emits, fills⟩ := single.emits
  refine ⟨rfl, i, w, ⟨⟨emits, ?_, ?_, fills⟩, pushes_literal i, ?_,
    Nat.le_of_eq (single.load_eq tokens)⟩, found, stands⟩
  · obtain ⟨_, _, _, rfl⟩ := single.rest
    exact .of_eq rfl
  · simp only [termsValid, Term.Valid, and_true]
    exact (Array.getElem?_eq_some_iff.mp found).1
  · intro l same
    exact Option.some.inj same ▸ single

theorem emit_writes (term : Term) (op : Opcode) (word : term.words = [op.word])
    (valid : term.Valid s.references) :
    Writes s { s with writer := s.writer.opcode op } [term] := by
  have emits := opcode_emits op s
  refine ⟨?_, .of_eq rfl, ?_, .refl _ _⟩
  · rwa [termsWords_single, word]
  · simpa [termsValid] using Term.Valid.mono emits.grows.within term valid

theorem foldUnary_ok {op : UnaryOp} (operand : Outcome s t c ts)
    (ok : foldUnary op c t = .ok r s') :
    (c = none ∧ r = none ∧ s' = { t with writer := t.writer.opcode (.unary op) } ∧
      Outcome s s' none (ts ++ [.unary op])) ∨
    ∃ k l, c = some k ∧ r = some l ∧ WritesLiteral s s' l (op.apply k.value) := by
  cases c with
  | none =>
    rw [foldUnary, bind_ok _ (emit_eq _ t)] at ok
    cases ok
    refine Or.inl ⟨rfl, rfl, rfl, ?_, pushes_unary op operand.pushes, by simp, operand.load⟩
    exact operand.writes.append (emit_writes (.unary op) _ rfl trivial)
  | some k =>
    obtain ⟨u, taken, reads, load⟩ := (operand.single k rfl).takeBack
    rw [foldUnary, bind_ok _ taken] at ok
    obtain ⟨l, v, written, done⟩ := of_bind_ok ok
    cases done
    exact Or.inr ⟨k, l, rfl, rfl, (emitLiteral_writes (op.apply_isList _) written).of_reads reads
      (load ▸ operand.load)⟩

theorem foldBinary_ok {u v : Session} {op : BinaryOp} {a b : Option Constant}
    (left : Outcome s t a ts) (between : Reads t u) (spent : u.load ≤ t.load)
    (right : Outcome u v b us) (ok : foldBinary op a b v = .ok r s') :
    (r = none ∧ s' = { v with writer := v.writer.opcode (.binary op) } ∧
      Outcome s s' none (ts ++ us ++ [.binary op])) ∨ ∃ k l m, a = some k ∧ b = some l ∧
      r = some m ∧ WritesLiteral s s' m (op.apply k.value l.value) := by
  have load : v.load ≤ s.load := by
    have := left.load
    have := right.load
    omega
  have unfolded : foldBinary op a b v = (do let _ ← emit (.binary op); pure none) v →
      r = none ∧ s' = { v with writer := v.writer.opcode (.binary op) } ∧
        Outcome s s' none (ts ++ us ++ [.binary op]) := by
    intro same
    rw [same, bind_ok _ (emit_eq _ v)] at ok
    cases ok
    refine ⟨rfl, rfl, ?_, pushes_binary op left.pushes right.pushes, by simp, load⟩
    exact ((left.writes.then_reads between).append right.writes).append
      (emit_writes (.binary op) _ rfl trivial)
  match a, b, left.single, right.single, ok with
  | none, _, _, _, _ => exact Or.inl (unfolded rfl)
  | some _, none, _, _, _ => exact Or.inl (unfolded rfl)
  | some k, some l, first, second, ok =>
    obtain ⟨w, taken, reads, same⟩ := (first k rfl).takeBack_both between (second l rfl)
    rw [foldBinary, bind_ok _ taken] at ok
    obtain ⟨m, x, written, done⟩ := of_bind_ok ok
    cases done
    exact Or.inr ⟨k, l, m, rfl, rfl, rfl,
      (emitLiteral_writes (op.apply_isList _ _) written).of_reads reads (same ▸ load)⟩

theorem call_emits {op : Opcode} {name : Token} {place : Nat} {s₁ s₂ s₃ : Session} {u v : Unit}
    (entered : functionPlace name.lexeme s = .ok place s₁)
    (written : emitWith op (.ofNat place) s₁ = .ok u s₂)
    (parts : Emits s₂ s₃ (.ofNat fs.length :: partsWords fs) 0) (called : Called s₂ s₃)
    (valid : partsValid s₃.references fs) (fills : Fills s₂.literals s₃.literals (partsLiterals fs))
    (checked : checkCall place name fs.length s₃ = .ok v s') :
    Emits s s' (op.word :: .ofNat place :: .ofNat fs.length :: partsWords fs) 1 ∧
      Called s s' ∧ s'.Admits place fs.length ∧ partsValid s'.references fs ∧
      Fills s.literals s'.literals (partsLiterals fs) := by
  obtain ⟨opening, _, present, calls, pending₁⟩ := functionPlace_ok entered
  obtain ⟨head, _⟩ := emitWith_emits written
  obtain ⟨check, _, functions, admits, noted⟩ := checkCall_ok checked
  refine ⟨?_, ?_, admits, partsValid_mono check.grows.within _ valid, ?_⟩
  · simpa using ((opening.trans head).trans parts).trans check
  -- Only the function just entered can be new and not yet called, and the check notes it.
  · have same : s₂.functions = s₁.functions := by
      cases written
      rfl
    intro q pending there
    rw [functions] at there
    rcases called q pending there with old | ⟨c, member, at_⟩
    · rw [same] at old
      rcases pending₁ q pending old with older | rfl
      · exact Or.inl older
      · exact Or.inr (noted pending there)
    · obtain ⟨more, grown⟩ := check.grows.calls
      exact Or.inr ⟨c, by simp [grown, member], at_⟩
  · obtain ⟨_, rfl⟩ := checkCall_calls checked
    obtain ⟨_, rfl, _⟩ := functionPlace_table entered
    cases written
    exact fills

end Scriptlet.Compile
