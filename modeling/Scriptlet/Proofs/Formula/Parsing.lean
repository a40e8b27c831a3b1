import Scriptlet.Proofs.Formula.Sessions

/-!
Expressions compile, each rule reading exactly the lexemes of its level. A chain follows the left
spine of the tree, and signs and powers go down its right side; parentheses stand wherever an
operand binds looser than its place, so every rule finds an operand that it can read. What is
written is the code of the tree, with the literals that its constant parts come to.
-/
namespace Scriptlet.Compile

open Actions Code Script

variable {s s' t : Session} {level' : Nat} {ls : List Lexeme} {level : Nat}

theorem intern_total (v : Value) (s : Session) : ∃ place s', intern v s = .ok place s' := by
  rw [intern, get_bind]
  cases s.literals.findIdx? (·.same v) with
  | some | none => exact ⟨_, _, rfl⟩

theorem emitLiteral_total (v : Value) (s : Session) : ∃ k s', emitLiteral v s = .ok k s' := by
  obtain ⟨place, t, interned⟩ := intern_total v s
  rw [emitLiteral, get_bind, bind_ok _ interned, bind_ok _ (emitWith_eq .literal place t)]
  exact ⟨_, _, rfl⟩

theorem foldUnary_total (op : UnaryOp) (c : Option Constant) (s : Session) :
    ∃ r s', foldUnary op c s = .ok r s' ∧ s'.tokens = s.tokens := by
  cases c with
  | none =>
    rw [foldUnary, bind_ok _ (emit_eq _ s)]
    exact ⟨_, _, rfl, rfl⟩
  | some k =>
    rw [foldUnary, bind_ok _ (takeBack_two k.mark s)]
    obtain ⟨l, t, written⟩ := emitLiteral_total (op.apply k.value)
      { s with writer := s.writer.undo.undo, literals := s.literals.take k.mark }
    refine ⟨some l, t, ?_, (emitLiteral_ok (op.apply_isList _) written).2.2⟩
    exact bind_ok _ written

theorem foldBinary_total (op : BinaryOp) (a b : Option Constant) (s : Session) :
    ∃ r s', foldBinary op a b s = .ok r s' ∧ s'.tokens = s.tokens := by
  match a, b with
  | none, _ => exact ⟨_, _, rfl, rfl⟩
  | some _, none => exact ⟨_, _, rfl, rfl⟩
  | some k, some l =>
    rw [foldBinary, bind_ok _ (takeBack_four k.mark s)]
    obtain ⟨m, t, written⟩ := emitLiteral_total (op.apply k.value l.value)
      { s with writer := s.writer.undo.undo.undo.undo, literals := s.literals.take k.mark }
    refine ⟨some m, t, ?_, (emitLiteral_ok (op.apply_isList _ _) written).2.2⟩
    exact bind_ok _ written

theorem counted_of_ok {α : Type} {rule : Compile α} {a : α} (ok : rule s.opened = .ok a t) :
    counted rule s = .ok a (t.closed s.writer.ip) := by
  rw [counted_eq, ok]

theorem prefixedByCount_of_ok {rule : Compile Nat} {n : Nat}
    (ok : rule { s with writer := s.writer.operand 0 } = .ok n t) :
    prefixedByCount rule s = .ok n { t with writer := t.writer.patch s.writer.ip (.ofNat n) } := by
  rw [prefixedByCount, bind_ok _ (emitOperand_eq 0 s), bind_ok _ ok]
  rfl

def goesOn (level : Nat) : Token.Kind → Bool
  | .operator op => decide (level ≤ Formula.binaryLevel op)
  | .leftParen | .leftBracket => true
  | _ => false

/-- What follows an expression of a level does not belong to it. -/
def Stops (level : Nat) (rest : List Lexeme) : Prop :=
  ∃ l ls, rest = l :: ls ∧ goesOn level l.kind = false

theorem Stops.mono {rest : List Lexeme} (le : level ≤ level') (stops : Stops level rest) :
    Stops level' rest := by
  obtain ⟨l, ls, same, ends⟩ := stops
  refine ⟨l, ls, same, ?_⟩
  unfold goesOn at ends ⊢
  split at ends
  · simp only [decide_eq_false_iff_not, Nat.not_le] at ends ⊢
    omega
  · cases ends
  · cases ends
  · rfl

def StartsAt (level : Nat) (ls : List Lexeme) : Prop :=
  ∃ l more, ls = l :: more ∧ l.kind.startsOperand = true ∧ (2 < level → l.kind ≠ .not) ∧
    (7 < level → l.kind ≠ .minus)

theorem StartsAt.append (starts : StartsAt level ls) (more : List Lexeme) :
    StartsAt level (ls ++ more) := by
  obtain ⟨l, tail, rfl, facts⟩ := starts
  exact ⟨l, tail ++ more, rfl, facts⟩

theorem StartsAt.mono (le : level ≤ level') (starts : StartsAt level' ls) : StartsAt level ls := by
  obtain ⟨l, tail, rfl, operand, notNot, notMinus⟩ := starts
  exact ⟨l, tail, rfl, operand, fun lt => notNot (by omega), fun lt => notMinus (by omega)⟩

end Scriptlet.Compile

namespace Scriptlet.Formula

open Actions Code Compile Script

variable {s s' t u v : Session} {σ : Setting} {rest : List Lexeme} {L : Type} {level m n : Nat}
  {op : BinaryOp} {e : Tree L} {rule : Rule}

theorem stops_operator (looser : binaryLevel op < level) (ls : List Lexeme) :
    Stops level (binaryLexeme op :: ls) := by
  refine ⟨_, _, rfl, ?_⟩
  simp only [binaryLexeme, goesOn, decide_eq_false_iff_not]
  omega

theorem enclosed_starts {ls : List Lexeme} (level : Nat) (starts : StartsAt e.level ls) :
    StartsAt level (enclosed level e ls) := by
  unfold enclosed
  split
  · exact ⟨_, _, rfl, rfl, by simp [Lexeme.leftParen], by simp [Lexeme.leftParen]⟩
  · exact starts.mono (by omega)

theorem level_le_leftLevel (op : BinaryOp) : binaryLevel op ≤ leftLevel op := by
  unfold leftLevel
  split
  · decide
  · exact Nat.le_refl _

theorem name_starts (level : Nat) (x : String) (ls : List Lexeme) :
    StartsAt level (.name x :: ls) :=
  ⟨_, _, rfl, rfl, by simp [Lexeme.name], by simp [Lexeme.name]⟩

theorem binaryLevel_ne (op : BinaryOp) :
    binaryLevel op ≠ 2 ∧ binaryLevel op ≠ 7 ∧ binaryLevel op < 9 := by
  cases op with
  | arithmetic op => cases op <;> decide
  | logical c => cases c <;> decide
  | relation r => simp [binaryLevel]
  | power | concat => decide

theorem power_of_level (same : binaryLevel op = 8) : op = .power := by
  cases op with
  | arithmetic op => cases op <;> cases same
  | logical c => cases c <;> cases same
  | relation r => cases same
  | power => rfl
  | concat => cases same

theorem binary_of_level (same : e.level = level) (two : level ≠ 2) (seven : level ≠ 7)
    (nine : level ≠ 9) :
    ∃ op left right, e = .binary op left right ∧ binaryLevel op = level := by
  match e with
  | .binary op left right => exact ⟨op, left, right, rfl, same⟩
  | .unary .negate _ => exact absurd same.symm seven
  | .unary .not _ => exact absurd same.symm two
  | .literal _ => exact absurd same.symm nine
  | .var _ => exact absurd same.symm nine
  | .element _ _ _ => exact absurd same.symm nine
  | .call _ _ => exact absurd same.symm nine
  | .items _ => exact absurd same.symm nine

theorem unary_of_level {op : UnaryOp} (same : e.level = unaryLevel op) :
    ∃ operand, e = .unary op operand := by
  match op, e with
  | .negate, .binary op' _ _ => exact absurd same (binaryLevel_ne op').2.1
  | .not, .binary op' _ _ => exact absurd same (binaryLevel_ne op').1
  | .negate, .unary .negate operand => exact ⟨operand, rfl⟩
  | .not, .unary .not operand => exact ⟨operand, rfl⟩

variable [Literals L] {operand : Rule}

theorem lexemesAt_of_le (le : level ≤ e.level) : e.lexemesAt level = e.lexemes :=
  if_neg (Nat.not_lt.mpr le)

theorem lexemesAt_of_lt (lt : e.level < level) :
    e.lexemesAt level = .leftParen :: (e.lexemes ++ [.rightParen]) :=
  if_pos lt

theorem lexemesAt_zero (e : Tree L) : e.lexemesAt 0 = e.lexemes := lexemesAt_of_le (Nat.zero_le _)

theorem lexemesAt_next (other : e.level ≠ level) : e.lexemesAt (level + 1) = e.lexemesAt level := by
  by_cases lt : e.level < level
  · rw [lexemesAt_of_lt lt, lexemesAt_of_lt (by omega)]
  · rw [lexemesAt_of_le (by omega), lexemesAt_of_le (by omega)]

theorem lexemes_starts (e : Tree L) : StartsAt e.level e.lexemes := by
  match e with
  | .literal l =>
    rw [Tree.lexemes]
    have kind := Literals.kind l
    simp only [List.mem_cons, List.not_mem_nil, or_false] at kind
    refine ⟨_, _, rfl, ?_⟩
    rcases kind with kind | kind | kind <;> simp [kind, Token.Kind.startsOperand]
  | .var x =>
    rw [Tree.lexemes]
    exact name_starts _ x _
  | .element x first more =>
    rw [Tree.lexemes]
    exact name_starts _ x _
  | .call f arguments =>
    rw [Tree.lexemes]
    exact name_starts _ f _
  | .items elements =>
    rw [Tree.lexemes]
    exact ⟨_, _, rfl, rfl, by simp [Lexeme.leftBrace], by simp [Lexeme.leftBrace]⟩
  | .unary op operand =>
    rw [Tree.lexemes]
    cases op with
    | negate =>
      exact ⟨_, _, rfl, rfl, by simp [unaryLexeme, Lexeme.minus], by simp [Tree.level, unaryLevel]⟩
    | not => exact ⟨_, _, rfl, rfl, by simp [Tree.level, unaryLevel], by
        simp [Tree.level, unaryLevel]⟩
  | .binary op left right =>
    rw [Tree.lexemes]
    exact ((enclosed_starts (leftLevel op) (lexemes_starts left)).mono
      (level_le_leftLevel op)).append _

theorem lexemesAt_starts (level : Nat) (e : Tree L) : StartsAt level (e.lexemesAt level) :=
  enclosed_starts level (lexemes_starts e)

theorem lexemesAt_pos (level : Nat) (e : Tree L) : 0 < (e.lexemesAt level).length := by
  obtain ⟨l, more, same, _⟩ := lexemesAt_starts level e
  simp [same]

theorem unary_lexemesAt (op : UnaryOp) (operand : Tree L) :
    (Tree.unary op operand).lexemesAt (unaryLevel op) =
      unaryLexeme op :: operand.lexemesAt (unaryLevel op) := by
  rw [lexemesAt_of_le (Nat.le_of_eq rfl : unaryLevel op ≤ (Tree.unary op operand).level),
    Tree.lexemes]
  rfl

theorem binary_lexemesAt (op : BinaryOp) (left right : Tree L) :
    (Tree.binary op left right).lexemesAt (binaryLevel op) =
      left.lexemesAt (leftLevel op) ++ binaryLexeme op :: right.lexemesAt (rightLevel op) := by
  rw [lexemesAt_of_le (Nat.le_of_eq rfl : binaryLevel op ≤ (Tree.binary op left right).level),
    Tree.lexemes]
  rfl

theorem lexemesAt_unsigned (op : UnaryOp) (e : Tree L) :
    ∃ l more, e.lexemesAt (unaryLevel op + 1) = l :: more ∧ l.kind ≠ (unaryLexeme op).kind := by
  obtain ⟨l, more, row, _, notNot, notMinus⟩ := lexemesAt_starts (unaryLevel op + 1) e
  refine ⟨l, more, row, ?_⟩
  cases op with
  | negate => exact notMinus (by decide)
  | not => exact notNot (by decide)

theorem chain_levels (low : binaryLevel op < 7) :
    leftLevel op = binaryLevel op ∧ rightLevel op = binaryLevel op + 1 := by
  cases op with
  | power => exact absurd low (by decide)
  | _ => exact ⟨rfl, rfl⟩

structure Compiled (σ : Setting) (s s' : Session) (rest : List Lexeme) (e : Tree L)
    (c : Option Constant) : Prop where
  speaks : Speaks σ s'
  ahead : Ahead rest s'.tokens
  coded : ∃ ts, Outcome s s' c ts ∧ Codes s'.naming e ts
  fixed : ∀ k, c = some k → e.value? = some k.value

section Compiled

variable {e f : Tree L} {c : Option Constant} {more : List Lexeme} {k : Constant}

theorem Compiled.of_reads (reads : Reads s t) (load : t.load ≤ s.load)
    (compiled : Compiled σ t s' rest e c) : Compiled σ s s' rest e c := by
  obtain ⟨ts, outcome, codes⟩ := compiled.coded
  exact ⟨compiled.speaks, compiled.ahead, ⟨ts, outcome.of_reads reads load, codes⟩, compiled.fixed⟩

theorem Compiled.then_reads (compiled : Compiled σ s t rest e c) (reads : Reads t s')
    (load : s'.load ≤ t.load) (ahead : Ahead more s'.tokens) : Compiled σ s s' more e c := by
  obtain ⟨ts, outcome, codes⟩ := compiled.coded
  exact ⟨compiled.speaks.of_reads reads, ahead,
    ⟨ts, outcome.then_reads reads load, codes.mono reads.emits.grows.naming⟩, compiled.fixed⟩

theorem Speaks.of_single (speaks : Speaks σ s) (single : Single s s' k) : Speaks σ s' := by
  obtain ⟨tokens, writer, literals, rfl⟩ := single.rest
  exact speaks.of_code tokens writer literals

theorem compiled_of_writes {w : Value} (speaks : Speaks σ s) (writes : WritesLiteral s s' k w)
    (value : e.value? = some w) (ahead : Ahead rest s'.tokens) :
    Compiled σ s s' rest e (some k) := by
  obtain ⟨i, w', outcome, found, stands⟩ := writes.outcome
  have single := outcome.single k rfl
  refine ⟨speaks.of_single single, ahead, ⟨_, outcome, .constant value found stands⟩, ?_⟩
  intro l same
  rw [← Option.some.inj same, writes.value]
  exact value

theorem foldUnary_compiled (op : UnaryOp) (speaks : Speaks σ s)
    (operand : Compiled σ s t rest e c) :
    ∃ r s', foldUnary op c t = .ok r s' ∧ Compiled σ s s' rest (.unary op e) r := by
  obtain ⟨r, s', folded, tokens⟩ := foldUnary_total op c t
  refine ⟨r, s', folded, ?_⟩
  have ahead : Ahead rest s'.tokens := tokens ▸ operand.ahead
  obtain ⟨ts, outcome, codes⟩ := operand.coded
  rcases foldUnary_ok outcome folded with ⟨_, rfl, rfl, joined⟩ | ⟨k, l, rfl, rfl, writes⟩
  · exact ⟨operand.speaks.of_writer _, ahead, ⟨_, joined, .unary codes⟩, by simp⟩
  · refine compiled_of_writes speaks writes ?_ ahead
    rw [Tree.value?, operand.fixed k rfl]
    rfl

theorem foldBinary_compiled (op : BinaryOp) {a b : Option Constant} (speaks : Speaks σ s)
    (left : Compiled σ s t more e a) (between : Reads t u) (spent : u.load ≤ t.load)
    (right : Compiled σ u v rest f b) :
    ∃ r s', foldBinary op a b v = .ok r s' ∧ Compiled σ s s' rest (.binary op e f) r := by
  obtain ⟨r, s', folded, tokens⟩ := foldBinary_total op a b v
  refine ⟨r, s', folded, ?_⟩
  have ahead : Ahead rest s'.tokens := tokens ▸ right.ahead
  obtain ⟨ts, first, codes⟩ := left.coded
  obtain ⟨us, second, codes'⟩ := right.coded
  rcases foldBinary_ok first between spent second folded with
    ⟨rfl, rfl, joined⟩ | ⟨k, l, m, rfl, rfl, rfl, writes⟩
  · refine ⟨right.speaks.of_writer _, ahead, ⟨_, joined, .binary ?_ codes'⟩, by simp⟩
    exact (codes.mono between.emits.grows.naming).mono second.writes.emits.grows.naming
  · refine compiled_of_writes speaks writes ?_ ahead
    rw [Tree.value?, left.fixed k rfl, right.fixed l rfl]
    rfl

end Compiled

variable (L) in
def Parses (σ : Setting) (m level : Nat) (rule : Rule) : Prop :=
  ∀ (e : Tree L) (s : Session) (rest : List Lexeme), e.fits σ.words = true →
    (e.lexemesAt level).length < m → Speaks σ s →
    Ahead (e.lexemesAt level ++ rest) s.tokens → Stops level rest →
    ∃ c s', rule s = .ok c s' ∧ Compiled σ s s' rest e c

theorem Parses.mono {m' : Nat} (le : m' ≤ m) (parses : Parses L σ m level rule) :
    Parses L σ m' level rule :=
  fun e s rest fits small => parses e s rest fits (Nat.lt_of_lt_of_le small le)

section Chains

variable {k m n : Nat} {level : BinaryOp → Bool} {rule : Rule}

/-- A chain comes to its last operand: `j` operators are read, and the rest of the budget is
still there. The induction is on the number of lexemes, along the left operands. -/
theorem chain_reaches (levels : ∀ op, level op = decide (binaryLevel op = k)) (low : k < 7)
    (other : k ≠ 2) (parses : Parses L σ m (k + 1) rule) :
    ∀ (size : Nat) (e : Tree L) (s : Session) (rest : List Lexeme), (e.lexemesAt k).length ≤ size →
      e.fits σ.words = true → (e.lexemesAt k).length < m → Speaks σ s →
      Ahead (e.lexemesAt k ++ rest) s.tokens → Stops (k + 1) rest →
      ∃ c t j, j < (e.lexemesAt k).length ∧ Compiled σ s t rest e c ∧
        ∀ p, chain (p + j) level rule s = chainFrom level rule p c t := by
  intro size
  induction size with
  | zero =>
    intro e s rest short
    have := lexemesAt_pos k e
    omega
  | succ size ih =>
    intro e s rest short fits small speaks ahead stops
    by_cases same : e.level = k
    · obtain ⟨op, left, right, rfl, rfl⟩ := binary_of_level same other (by omega) (by omega)
      obtain ⟨leftSame, rightNext⟩ := chain_levels low
      have lexemes := binary_lexemesAt op left right
      rw [leftSame, rightNext] at lexemes
      rw [lexemes, List.append_assoc, List.cons_append] at ahead
      rw [lexemes, List.length_append, List.length_cons] at short small ⊢
      simp only [Tree.fits, Bool.and_eq_true] at fits
      obtain ⟨a, t, j, fewer, compiled, reached⟩ := ih left s _ (by omega) fits.1 (by omega) speaks
        ahead (stops_operator (by omega) _)
      obtain ⟨t₁, peeked, ahead⟩ := peekKind_sees compiled.ahead
      obtain ⟨_, t₂, taken, _, ahead⟩ := nextToken_sees ahead
      have first := peekKind_reads peeked
      have second := nextToken_reads taken
      have reads := first.1.trans second.1
      obtain ⟨b, u, ran, compiled'⟩ := parses right t₂ rest fits.2 (by omega)
        (compiled.speaks.of_reads reads) ahead stops
      obtain ⟨c, v, folded, joined⟩ := foldBinary_compiled op speaks compiled reads
        (by omega) compiled'
      refine ⟨c, v, j + 1, by omega, joined, fun p => ?_⟩
      have atLevel : level op = true := by rw [levels, decide_eq_true rfl]
      rw [show p + (j + 1) = (p + 1) + j by omega, reached (p + 1), chainFrom, bind_ok _ peeked]
      simp only [binaryLexeme, atLevel, ↓reduceIte]
      rw [bind_ok _ (discard_ok taken), bind_ok _ ran, bind_ok _ folded]
    · rw [← lexemesAt_next same] at ahead small ⊢
      obtain ⟨c, t, ran, compiled⟩ := parses e s rest fits small speaks ahead stops
      refine ⟨c, t, 0, lexemesAt_pos _ e, compiled, fun p => ?_⟩
      rw [chain, bind_ok _ ran]
      rfl

theorem chain_parses (levels : ∀ op, level op = decide (binaryLevel op = k)) (low : k < 7)
    (other : k ≠ 2) (parses : Parses L σ (n + 1) (k + 1) rule) :
    Parses L σ (n + 1) k (chain n level rule) := by
  intro e s rest fits small speaks ahead stops
  obtain ⟨c, t, j, fewer, compiled, reached⟩ := chain_reaches levels low other parses _ e s rest
    (Nat.le_refl _) fits small speaks ahead (stops.mono (Nat.le_succ k))
  obtain ⟨l, ls, rfl, ends⟩ := stops
  obtain ⟨s', peeked, ahead⟩ := peekKind_sees compiled.ahead
  have reads := peekKind_reads peeked
  refine ⟨c, s', ?_, compiled.then_reads reads.1 reads.2 ahead⟩
  obtain ⟨p, rfl⟩ : ∃ p, n = (p + 1) + j := ⟨n - 1 - j, by omega⟩
  rw [reached, chainFrom, bind_ok _ peeked]
  cases kind : l.kind with
  | operator op =>
    rw [kind] at ends
    have off : level op = false := by
      rw [levels, decide_eq_false_iff_not]
      simp only [goesOn, decide_eq_false_iff_not] at ends
      omega
    simp only [off, Bool.false_eq_true, ↓reduceIte]
    rfl
  | _ => rfl

end Chains

/-- Signs in front of what `tight` reads. The exponent of a power may have signs again, so what is
tight may use the rule with less of the budget. -/
theorem signs_parse (op : UnaryOp) (rule tight : Nat → Rule)
    (parses : ∀ n < m, Parses L σ (n + 1) (unaryLevel op) (rule n) →
      Parses L σ (n + 2) (unaryLevel op + 1) (tight n))
    (signed : ∀ n s t, accept (unaryLexeme op).kind s = .ok true t →
      rule (n + 1) s = (rule n >>= foldUnary op) t)
    (unsigned : ∀ n s t, accept (unaryLexeme op).kind s = .ok false t →
      rule (n + 1) s = tight n t) (n : Nat) (enough : n ≤ m) :
    Parses L σ (n + 1) (unaryLevel op) (rule n) := by
  induction n with
  | zero =>
    intro e s rest _ short
    have := lexemesAt_pos (unaryLevel op) e
    omega
  | succ n ih =>
    have shorter := ih (by omega)
    intro e s rest fits small speaks ahead stops
    by_cases same : e.level = unaryLevel op
    · obtain ⟨operand, rfl⟩ := unary_of_level same
      rw [unary_lexemesAt] at ahead small
      obtain ⟨t, accepted, ahead⟩ := accept_sees _ rfl ahead
      have reads := accept_reads accepted
      rw [List.length_cons] at small
      rw [Tree.fits] at fits
      obtain ⟨a, u, ran, compiled⟩ := shorter operand t rest fits (by omega)
        (speaks.of_reads reads.1) ahead stops
      obtain ⟨c, s', folded, joined⟩ := foldUnary_compiled op speaks
        (compiled.of_reads reads.1 reads.2)
      refine ⟨c, s', ?_, joined⟩
      rw [signed n s t accepted, bind_ok _ ran, folded]
    · rw [← lexemesAt_next same] at ahead small
      obtain ⟨l, more, row, other⟩ := lexemesAt_unsigned op e
      rw [row, List.cons_append] at ahead
      obtain ⟨t, accepted, ahead⟩ := accept_misses _ other ahead
      have reads := accept_reads accepted
      rw [← List.cons_append, ← row] at ahead
      obtain ⟨c, s', ran, compiled⟩ := parses n (by omega) shorter e t rest fits small
        (speaks.of_reads reads.1) ahead (stops.mono (Nat.le_succ _))
      refine ⟨c, s', ?_, compiled.of_reads reads.1 reads.2⟩
      rw [unsigned n s t accepted, ran]

theorem negations_parses (parses : Parses L σ (n + 1) 3 rule) :
    Parses L σ (n + 1) 2 (negations rule n) := by
  refine signs_parse (m := n) .not (negations rule) (fun _ => rule)
    (fun k few _ => parses.mono (by omega)) ?_ ?_ n (Nat.le_refl n)
  · intro n s t (accepted : accept .not s = .ok true t)
    rw [negations, bind_ok _ accepted]
    rfl
  · intro n s t (accepted : accept .not s = .ok false t)
    rw [negations, bind_ok _ accepted]
    rfl

/-- No operator has the level of signs, so what ends a power ends its exponent too. -/
theorem stops_exponent (stops : Stops 8 rest) : Stops 7 rest := by
  obtain ⟨l, ls, same, ends⟩ := stops
  refine ⟨l, ls, same, ?_⟩
  unfold goesOn at ends ⊢
  split at ends
  · rename_i op kind
    simp only [decide_eq_false_iff_not, Nat.not_le] at ends ⊢
    have := (binaryLevel_ne op).2.1
    omega
  · cases ends
  · cases ends
  · rfl

theorem base_parses (few : n < m) (parses : Parses L σ (m + 1) 9 operand)
    (exponents : Parses L σ (n + 1) 7 (Compile.signed operand n)) :
    Parses L σ (n + 2) 8 (do
      let base ← operand
      if ← accept .power then
        let exponent ← Compile.signed operand n
        foldBinary .power base exponent
      else pure base) := by
  intro e s rest fits small speaks ahead stops
  by_cases same : e.level = 8
  · obtain ⟨op, left, right, rfl, tight⟩ := binary_of_level same (by decide) (by decide) (by decide)
    obtain rfl := power_of_level tight
    have lexemes : (Tree.binary .power left right).lexemesAt 8 =
        left.lexemesAt 9 ++ binaryLexeme .power :: right.lexemesAt 7 :=
      binary_lexemesAt .power left right
    rw [lexemes, List.append_assoc, List.cons_append] at ahead
    rw [lexemes, List.length_append, List.length_cons] at small
    simp only [Tree.fits, Bool.and_eq_true] at fits
    have := lexemesAt_pos 9 left
    obtain ⟨a, t, ran, compiled⟩ := parses left s _ fits.1 (by omega) speaks ahead
      (stops_operator (by decide) _)
    obtain ⟨u, accepted, ahead⟩ := accept_sees .power rfl compiled.ahead
    have reads := accept_reads accepted
    obtain ⟨b, v, ran', compiled'⟩ := exponents right u rest fits.2 (by omega)
      (compiled.speaks.of_reads reads.1) ahead (stops_exponent stops)
    obtain ⟨c, s', folded, joined⟩ := foldBinary_compiled .power speaks compiled reads.1
      reads.2 compiled'
    refine ⟨c, s', ?_, joined⟩
    rw [bind_ok _ ran, bind_ok _ accepted]
    simp only [↓reduceIte]
    rw [bind_ok _ ran', folded]
  · rw [← lexemesAt_next same] at ahead small
    obtain ⟨c, t, ran, compiled⟩ := parses e s rest fits (Nat.lt_of_lt_of_le small (by omega))
      speaks ahead (stops.mono (Nat.le_succ _))
    obtain ⟨l, ls, rfl, ends⟩ := stops
    have other : l.kind ≠ .power := by
      intro power
      rw [power] at ends
      cases ends
    obtain ⟨s', accepted, ahead⟩ := accept_misses .power other compiled.ahead
    have reads := accept_reads accepted
    refine ⟨c, s', ?_, compiled.then_reads reads.1 reads.2 ahead⟩
    rw [bind_ok _ ran, bind_ok _ accepted]
    rfl

theorem signed_parses (parses : Parses L σ (n + 1) 9 operand) :
    Parses L σ (n + 1) 7 (Compile.signed operand n) := by
  refine signs_parse (m := n) .negate (Compile.signed operand) _
    (fun k few exponents => base_parses few parses exponents) ?_ ?_ n (Nat.le_refl n)
  · intro n s t (accepted : accept .minus s = .ok true t)
    rw [Compile.signed, bind_ok _ accepted]
    rfl
  · intro n s t (accepted : accept .minus s = .ok false t)
    rw [Compile.signed, bind_ok _ accepted]
    rfl

end Scriptlet.Formula
