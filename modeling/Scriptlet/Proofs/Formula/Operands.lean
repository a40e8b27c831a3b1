import Scriptlet.Proofs.Formula.Parsing

/-!
Operands, and with them whole expressions. The arguments of a call, the indexes of an element and
the items of a list are expressions of their own, each behind the number of its tokens, and behind
the number of all of them. So the rule for a whole expression reads every tree that its budget
allows.
-/
namespace Scriptlet.Formula

open Actions Code Compile Script

variable {s s' t : Session} {σ : Setting} {rest : List Lexeme} {L : Type} [Literals L] {m n : Nat}
  {item : Compile Unit} {tok : Token} {inner : Rule}

structure Listed (σ : Setting) (s s' : Session) (rest : List Lexeme) (es : List (Tree L))
    (fs : List (List Term)) : Prop where
  speaks : Speaks σ s'
  ahead : Ahead rest s'.tokens
  writes : WritesParts s s' fs
  codes : CodesAll s'.naming es fs
  load : s'.load ≤ s.load

variable (L) in
/-- The rule reads every expression that has fewer than `m` lexemes. -/
def Lists (σ : Setting) (m : Nat) (item : Compile Unit) : Prop :=
  ∀ (e : Tree L) (s : Session) (rest : List Lexeme), e.fits σ.words = true → e.lexemes.length < m →
    Speaks σ s → Ahead (e.lexemes ++ rest) s.tokens → Stops 0 rest →
    ∃ f s', item s = .ok () s' ∧ Listed σ s s' rest [e] [f]

namespace Listed

variable {es es' : List (Tree L)} {fs fs' : List (List Term)} {more : List Lexeme}

theorem nil (speaks : Speaks σ s) (ahead : Ahead rest s.tokens) :
    Listed σ s s rest ([] : List (Tree L)) [] :=
  ⟨speaks, ahead, .nil s, .nil, Nat.le_refl _⟩

theorem of_reads (reads : Reads s t) (load : t.load ≤ s.load) (listed : Listed σ t s' rest es fs) :
    Listed σ s s' rest es fs :=
  ⟨listed.speaks, listed.ahead, listed.writes.of_reads reads, listed.codes,
    Nat.le_trans listed.load load⟩

theorem then_reads (listed : Listed σ s t rest es fs) (reads : Reads t s') (load : s'.load ≤ t.load)
    (ahead : Ahead more s'.tokens) : Listed σ s s' more es fs :=
  ⟨listed.speaks.of_reads reads, ahead, listed.writes.then_reads reads,
    listed.codes.mono reads.emits.grows.naming, Nat.le_trans load listed.load⟩

theorem append (first : Listed σ s t more es fs) (second : Listed σ t s' rest es' fs') :
    Listed σ s s' rest (es ++ es') (fs ++ fs') :=
  ⟨second.speaks, second.ahead, first.writes.append second.writes,
    (first.codes.mono second.writes.emits.grows.naming).append second.codes,
    Nat.le_trans second.load first.load⟩

end Listed

theorem expressionOf_lists (parses : Parses L σ m 0 inner) : Lists L σ m (expressionOf inner) := by
  intro e s rest fits small speaks ahead stops
  obtain ⟨l, more, row, operand, _⟩ := lexemes_starts e
  have ahead' := ahead
  rw [row, List.cons_append] at ahead'
  obtain ⟨tok, s₁, taken, read, _⟩ := nextToken_sees ahead'
  obtain ⟨s₂, given, ahead⟩ := unget_sees ahead taken
  have first := nextToken_reads taken
  have back := unget_reads given
  have reads := first.1.trans back.1
  obtain ⟨c, t, ran, compiled⟩ := parses e s₂.opened rest fits (lexemesAt_zero e ▸ small)
    ((speaks.of_reads reads).of_writer _) (lexemesAt_zero e ▸ ahead) stops
  obtain ⟨ts, outcome, codes⟩ := compiled.coded
  refine ⟨ts, t.closed s₂.writer.ip, ?_, compiled.speaks.of_writer _, compiled.ahead,
    .of_reads reads ⟨?_, outcome.writes.called, partsValid_single outcome.pushes
      outcome.writes.valid, partsLiterals_single ts ▸ outcome.writes.fills⟩,
    .cons codes .nil, ?_⟩
  · have starts : tok.kind.startsOperand = true := by rw [read.1, operand]
    rw [expressionOf, bind_ok _ taken, if_pos starts, bind_ok _ given]
    exact counted_of_ok (discard_ok ran)
  · rw [partsWords_single]
    exact closed_emits outcome.writes.emits
  · have := outcome.load
    have : s₂.opened.load = s₂.load := rfl
    change t.load ≤ s.load
    omega

structure Closes (close : Lexeme) : Prop where
  stops : goesOn 0 close.kind = false
  starts : close.kind.startsOperand = false
  comma : Lexeme.comma.kind ≠ close.kind

theorem closes_rightParen : Closes .rightParen := ⟨rfl, rfl, by decide⟩

theorem closes_rightBrace : Closes .rightBrace := ⟨rfl, rfl, by decide⟩

variable {close : Lexeme} {es : List (Tree L)} {ls : List Lexeme} {r : Session} {e : Tree L}

theorem furtherLexemes_pos (close : Lexeme) (es : List (Tree L)) :
    0 < (furtherLexemes close es).length := by
  cases es <;> simp [furtherLexemes]

theorem furtherLexemes_stops (closes : Closes close) (es : List (Tree L)) (rest : List Lexeme) :
    Stops 0 (furtherLexemes close es ++ rest) := by
  cases es with
  | nil => exact ⟨_, _, rfl, closes.stops⟩
  | cons e es => exact ⟨_, _, rfl, rfl⟩

theorem itemsUntil_lists (closes : Closes close) (p : Problem) (lists : Lists L σ m item)
    (n : Nat) :
    ∀ (count : Nat) (e : Tree L) (es : List (Tree L)) (s : Session) (rest : List Lexeme),
      e.fits σ.words = true → allFit σ.words es = true →
      e.lexemes.length + (furtherLexemes close es).length ≤ n →
      e.lexemes.length + (furtherLexemes close es).length ≤ m → Speaks σ s →
      Ahead (e.lexemes ++ (furtherLexemes close es ++ rest)) s.tokens →
      ∃ fs s', itemsUntil close.kind p item n count s = .ok (count + (e :: es).length) s' ∧
        Listed σ s s' rest (e :: es) fs := by
  induction n with
  | zero =>
    intro count e es s rest _ _ short
    have := furtherLexemes_pos close es
    omega
  | succ n ih =>
    intro count e es s rest fits allFits short small speaks ahead
    have := furtherLexemes_pos close es
    obtain ⟨f, t, ran, listed⟩ :=
      lists e s _ fits (by omega) speaks ahead (furtherLexemes_stops closes es rest)
    have ahead := listed.ahead
    cases es with
    | nil =>
      rw [furtherLexemes, List.singleton_append] at ahead
      obtain ⟨s', accepted, ahead⟩ := accept_sees close.kind rfl ahead
      have reads := accept_reads accepted
      refine ⟨[f], s', ?_, listed.then_reads reads.1 reads.2 ahead⟩
      rw [itemsUntil, bind_ok _ ran, bind_ok _ accepted]
      rfl
    | cons e' es =>
      rw [furtherLexemes, List.cons_append, List.append_assoc] at ahead
      rw [furtherLexemes, List.length_cons, List.length_append] at short small
      simp only [allFit, Bool.and_eq_true] at allFits
      obtain ⟨t₁, accepted, ahead⟩ := accept_misses close.kind closes.comma ahead
      obtain ⟨_, t₂, taken, _, ahead⟩ := expect_sees .comma p rfl ahead
      have first := accept_reads accepted
      have second := expect_reads taken
      have between := listed.then_reads (first.1.trans second.1) (by omega) ahead
      obtain ⟨fs, s', more, listed'⟩ := ih (count + 1) e' es t₂ rest allFits.1 allFits.2 (by omega)
        (by omega) between.speaks ahead
      refine ⟨f :: fs, s', ?_, between.append listed'⟩
      rw [itemsUntil, bind_ok _ ran, bind_ok _ accepted]
      simp only [Bool.false_eq_true, ↓reduceIte]
      rw [bind_ok _ (discard_ok taken), more]
      simp only [List.length_cons]
      congr 1
      omega

theorem itemsOrNone_lists (closes : Closes close) (p : Problem) (lists : Lists L σ m item)
    (fits : allFit σ.words es = true) (short : (itemLexemes close es).length ≤ n)
    (small : (itemLexemes close es).length ≤ m) (speaks : Speaks σ s)
    (ahead : Ahead (itemLexemes close es ++ rest) s.tokens) :
    ∃ fs s', itemsOrNone n close.kind p item s = .ok es.length s' ∧ Listed σ s s' rest es fs := by
  cases es with
  | nil =>
    obtain ⟨s', accepted, ahead'⟩ := accept_sees close.kind rfl ahead
    have reads := accept_reads accepted
    refine ⟨[], s', ?_, (Listed.nil speaks ahead).then_reads reads.1 reads.2 ahead'⟩
    rw [itemsOrNone, bind_ok _ accepted]
    rfl
  | cons e es =>
    rw [itemLexemes, List.append_assoc] at ahead
    rw [itemLexemes, List.length_append] at short small
    simp only [allFit, Bool.and_eq_true] at fits
    obtain ⟨l, more, row, starts, _⟩ := lexemes_starts e
    have other : l.kind ≠ close.kind := by
      intro same
      rw [same, closes.starts] at starts
      cases starts
    rw [row, List.cons_append] at ahead
    obtain ⟨t, accepted, ahead⟩ := accept_misses close.kind other ahead
    have reads := accept_reads accepted
    rw [← List.cons_append, ← row] at ahead
    obtain ⟨fs, s', ran, listed⟩ := itemsUntil_lists closes p lists n 0 e es t rest
      fits.1 fits.2 short small (speaks.of_reads reads.1) ahead
    refine ⟨fs, s', ?_, listed.of_reads reads.1 reads.2⟩
    rw [itemsOrNone, bind_ok _ accepted]
    simpa using ran

theorem indexes_lists (lists : Lists L σ m item) (n : Nat) :
    ∀ (count : Nat) (es : List (Tree L)) (s : Session) (rest : List Lexeme),
      allFit σ.words es = true → (indexLexemes es).length < n → (indexLexemes es).length < m →
      Speaks σ s → Ahead (indexLexemes es ++ rest) s.tokens → Stops 9 rest →
      ∃ fs s', indexes item n count s = .ok (count + es.length) s' ∧ Listed σ s s' rest es fs := by
  induction n with
  | zero =>
    intro count es s rest _ short
    omega
  | succ n ih =>
    intro count es s rest fits short small speaks ahead stops
    cases es with
    | nil =>
      obtain ⟨l, ls, rfl, ends⟩ := stops
      have other : l.kind ≠ .leftBracket := by
        intro same
        rw [same] at ends
        cases ends
      obtain ⟨s', accepted, ahead'⟩ := accept_misses .leftBracket other ahead
      have reads := accept_reads accepted
      refine ⟨[], s', ?_, (Listed.nil speaks ahead).then_reads reads.1 reads.2 ahead'⟩
      rw [indexes, bind_ok _ accepted]
      rfl
    | cons e es =>
      rw [indexLexemes, List.cons_append, List.append_assoc, List.cons_append] at ahead
      rw [indexLexemes, List.length_cons, List.length_append, List.length_cons] at short small
      simp only [allFit, Bool.and_eq_true] at fits
      obtain ⟨t, accepted, ahead⟩ := accept_sees .leftBracket rfl ahead
      have first := accept_reads accepted
      obtain ⟨f, t₁, ran, listed⟩ := lists e t _ fits.1 (by omega) (speaks.of_reads first.1) ahead
        ⟨_, _, rfl, rfl⟩
      obtain ⟨_, t₂, closed, _, ahead⟩ :=
        expect_sees .rightBracket .expectedRightBracket rfl listed.ahead
      have last := expect_reads closed
      have index := (listed.of_reads first.1 first.2).then_reads last.1 (by omega) ahead
      obtain ⟨fs, s', more, listed'⟩ := ih (count + 1) es t₂ rest fits.2 (by omega) (by omega)
        index.speaks ahead stops
      refine ⟨f :: fs, s', ?_, index.append listed'⟩
      rw [indexes, bind_ok _ accepted]
      simp only [↓reduceIte]
      rw [bind_ok _ ran, bind_ok _ (discard_ok closed), more]
      simp only [List.length_cons]
      congr 1
      omega

structure Numbered (σ : Setting) (s s' : Session) (rest : List Lexeme) (es : List (Tree L))
    (fs : List (List Term)) : Prop where
  speaks : Speaks σ s'
  ahead : Ahead rest s'.tokens
  emits : Emits s s' (.ofNat fs.length :: partsWords fs) 0
  called : Called s s'
  valid : partsValid s'.references fs
  fills : Fills s.literals s'.literals (partsLiterals fs)
  codes : CodesAll s'.naming es fs
  load : s'.load ≤ s.load

theorem prefixed_numbered {rule : Compile Nat}
    (lists : ∃ fs t, rule { s with writer := s.writer.operand 0 } = .ok es.length t ∧
      Listed σ { s with writer := s.writer.operand 0 } t rest es fs) :
    ∃ fs s', prefixedByCount rule s = .ok es.length s' ∧ Numbered σ s s' rest es fs := by
  obtain ⟨fs, t, ran, listed⟩ := lists
  have count := listed.codes.length_eq
  rw [← count] at ran ⊢
  exact ⟨fs, _, prefixedByCount_of_ok ran, listed.speaks.of_writer _, listed.ahead,
    prefixed_emits listed.writes.emits, listed.writes.called, listed.writes.valid,
      listed.writes.fills,
    listed.codes, listed.load⟩

structure Calling (σ : Setting) (s s' : Session) (rest : List Lexeme) (op : Opcode)
    (f : String) (es : List (Tree L)) (place : Nat) (fs : List (List Term)) : Prop where
  speaks : Speaks σ s'
  ahead : Ahead rest s'.tokens
  emits : Emits s s' (op.word :: .ofNat place :: .ofNat fs.length :: partsWords fs) 1
  called : Called s s'
  admits : s'.Admits place fs.length
  valid : partsValid s'.references fs
  fills : Fills s.literals s'.literals (partsLiterals fs)
  placed : s'.naming.place f place
  codes : CodesAll s'.naming es fs
  load : s'.load ≤ s.load

theorem callOf_calls (op : Opcode) {arguments : Compile Nat}
    (known : σ.words.calls tok.lexeme es.length = true)
    (lists : ∀ t, Speaks σ t → Ahead ls t.tokens →
      ∃ fs t', arguments t = .ok es.length t' ∧ Listed σ t t' rest es fs) (speaks : Speaks σ s)
    (ahead : Ahead ls s.tokens) : ∃ place fs s', callOf op tok arguments s = .ok () s' ∧
      Calling σ s s' rest op tok.lexeme es place fs := by
  obtain ⟨place, s₁, entered, speaks₁, tokens, placed⟩ := functionPlace_speaks speaks known
  have written := emitWith_eq op (.ofNat place) s₁
  generalize opened :
    ({ s₁ with writer := (s₁.writer.opcode op).operand (.ofNat place) } : Session) = s₂ at written
  have facts : Speaks σ s₂ ∧ Ahead ls s₂.tokens ∧ s₂.naming.place tok.lexeme place := by
    rw [← opened]
    exact ⟨speaks₁.of_writer _, tokens ▸ ahead, placed⟩
  obtain ⟨fs, s₃, counted, parts⟩ :=
    prefixed_numbered (lists _ (facts.1.of_writer _) facts.2.1)
  have placed₃ := parts.emits.grows.naming.place _ _ facts.2.2
  have count := parts.codes.length_eq
  obtain ⟨s', checked, speaks', tokens', naming⟩ := checkCall_speaks tok parts.speaks known placed₃
  rw [← count] at checked
  obtain ⟨emits, called, admits, valid, fills⟩ :=
    call_emits entered written parts.emits parts.called parts.valid parts.fills checked
  have load₁ := (functionPlace_ok entered).2.1
  have load₂ := (emitWith_emits written).2
  have load₃ := parts.load
  have load₄ := (checkCall_ok checked).2.1
  refine ⟨place, fs, s', ?_, speaks', tokens' ▸ parts.ahead, emits, called, admits, valid, fills,
    naming ▸ placed₃, naming ▸ parts.codes, by omega⟩
  rw [callOf, bind_ok _ entered, bind_ok _ written, bind_ok _ counted, ← count, checked]

theorem Calling.compiled {f : String} {place : Nat} {fs : List (List Term)}
    (calling : Calling σ s s' rest .call f es place fs) :
    Compiled σ s s' rest (.call f es) none := by
  refine ⟨calling.speaks, calling.ahead, ⟨[.compound (.call place) fs], ⟨⟨?_, calling.called, ?_,
    termsLiterals_single _ ▸ calling.fills⟩, pushes_compound _ _, by simp, calling.load⟩,
    .call calling.placed calling.codes⟩, by simp⟩
  · rw [termsWords_single, Term.words]
    exact calling.emits
  · simp only [termsValid, Term.Valid, Head.Valid, and_true]
    exact ⟨calling.admits, calling.valid⟩

theorem symbolOperand_call (lists : Lists L σ m item)
    (known : σ.words.calls tok.lexeme es.length = true) (fits : allFit σ.words es = true)
    (short : (itemLexemes .rightParen es).length ≤ n)
    (small : (itemLexemes .rightParen es).length ≤ m) (speaks : Speaks σ s)
    (ahead : Ahead (.leftParen :: (itemLexemes .rightParen es ++ rest)) s.tokens) :
    ∃ s', symbolOperand n item tok s = .ok () s' ∧
    Compiled σ s s' rest (.call tok.lexeme es) none := by
  obtain ⟨s₁, peeked, ahead⟩ := peekKind_sees ahead
  obtain ⟨_, s₂, taken, _, ahead⟩ := nextToken_sees ahead
  have first := peekKind_reads peeked
  have second := nextToken_reads taken
  have reads := first.1.trans second.1
  obtain ⟨place, fs, s', ran, calling⟩ := callOf_calls .call known
    (fun t speaks ahead => itemsOrNone_lists closes_rightParen .expectedRightParen lists fits
      short small speaks ahead) (speaks.of_reads reads) ahead
  refine ⟨s', ?_, calling.compiled.of_reads reads (by omega)⟩
  rw [symbolOperand, bind_ok _ peeked]
  simp only [Lexeme.leftParen]
  rw [bind_ok _ (discard_ok taken)]
  exact ran

theorem symbolOperand_element (lists : Lists L σ m item) {first : Tree L} {more : List (Tree L)}
    (named : Reads r s) (paid : s.load + 1 ≤ r.load) (known : σ.words.names tok.lexeme = true)
    (fits : allFit σ.words (first :: more) = true)
    (short : (indexLexemes (first :: more)).length < n)
    (small : (indexLexemes (first :: more)).length < m) (stops : Stops 9 rest) (speaks : Speaks σ s)
    (ahead : Ahead (indexLexemes (first :: more) ++ rest) s.tokens) :
    ∃ s', symbolOperand n item tok s = .ok () s' ∧
      Compiled σ r s' rest (.element tok.lexeme first more) none := by
  have shown := ahead
  rw [indexLexemes, List.cons_append] at shown
  obtain ⟨s₁, peeked, shown⟩ := peekKind_sees shown
  rw [← List.cons_append, ← indexLexemes] at shown
  have look := peekKind_reads peeked
  obtain ⟨a, s₂, resolved, speaks₂, tokens, slot⟩ :=
    variableAddress_speaks (speaks.of_reads look.1) known
  obtain ⟨opening, functions, has, load₁⟩ := variableAddress_ok resolved
  have written := emitWith_eq .elementPath a.pack s₂
  obtain ⟨head, load₂⟩ := emitWith_emits written
  obtain ⟨fs, s', counted, parts⟩ := prefixed_numbered
    (s := { s₂ with writer := (s₂.writer.opcode .elementPath).operand a.pack })
    (by
      have listed := indexes_lists lists n 0 (first :: more)
        { s₂ with writer := ((s₂.writer.opcode .elementPath).operand a.pack).operand 0 }
        rest fits short small (speaks₂.of_writer _) (tokens ▸ shown) stops
      rwa [Nat.zero_add] at listed)
  have reads := named.trans look.1
  have load₃ := parts.load
  have grows := parts.emits.grows
  refine ⟨s', ?_, parts.speaks, parts.ahead, ⟨[.compound (.element a) fs],
    ⟨Writes.of_reads reads ⟨?_, ?_, ?_, ?_⟩, pushes_compound _ _, by simp, by omega⟩,
    .element (grows.naming.slot _ _ slot) parts.codes⟩, by simp⟩
  · rw [symbolOperand, bind_ok _ peeked]
    simp only [leftBracket]
    rw [bind_ok _ resolved, bind_ok _ written, indexPath]
    exact discard_ok counted
  · rw [termsWords_single, Term.words]
    exact (opening.trans head).trans parts.emits
  · exact Called.trans (.of_eq functions) parts.called (head.trans parts.emits).grows
  · simp only [termsValid, Term.Valid, Head.Valid, and_true]
    exact ⟨grows.hasSlot (head.grows.hasSlot has), parts.valid⟩
  · obtain ⟨_, rfl⟩ := variableAddress_scope resolved
    exact termsLiterals_single _ ▸ parts.fills

theorem symbolOperand_variable (n : Nat) (item : Compile Unit) (named : Reads r s)
    (paid : s.load + 1 ≤ r.load) (known : σ.words.names tok.lexeme = true) (stops : Stops 9 rest)
    (speaks : Speaks σ s) (ahead : Ahead rest s.tokens) :
    ∃ s', symbolOperand n item tok s = .ok () s' ∧
      Compiled σ r s' rest (.var tok.lexeme : Tree L) none := by
  obtain ⟨l, ls, rfl, ends⟩ := stops
  obtain ⟨s₁, peeked, ahead⟩ := peekKind_sees ahead
  have look := peekKind_reads peeked
  have speaks₁ := speaks.of_reads look.1
  obtain ⟨a, s₂, resolved, speaks₂, tokens, slot⟩ := variableAddress_speaks speaks₁ known
  obtain ⟨opening, functions, has, load₁⟩ := variableAddress_ok resolved
  have written := emitWith_eq .load a.pack s₂
  obtain ⟨head, load₂⟩ := emitWith_emits written
  refine ⟨{ s₂ with writer := (s₂.writer.opcode .load).operand a.pack }, ?_, speaks₂.of_writer _,
    tokens ▸ ahead,
      ⟨[.load a], ⟨Writes.of_reads (named.trans look.1) ⟨?_, .of_eq functions, ?_, ?_⟩,
    pushes_load a, by simp, by omega⟩, .var slot⟩, by simp⟩
  · rw [symbolOperand, bind_ok _ peeked]
    cases kind : l.kind with
    | leftParen | leftBracket =>
      rw [kind] at ends
      cases ends
    | _ =>
      simp only
      rw [get_bind, speaks₁.no_call known]
      exact (bind_ok _ resolved).trans written
  · rw [termsWords_single, Term.words]
    exact opening.trans head
  · simp only [termsValid, Term.Valid, and_true]
    exact head.grows.hasSlot has
  · obtain ⟨_, rfl⟩ := variableAddress_scope resolved
    exact .refl _ _

theorem listInitializer_compiled (lists : Lists L σ m item) (fits : allFit σ.words es = true)
    (short : (itemLexemes .rightBrace es).length ≤ n)
    (small : (itemLexemes .rightBrace es).length ≤ m) (speaks : Speaks σ s)
    (ahead : Ahead (itemLexemes .rightBrace es ++ rest) s.tokens) :
    ∃ s', listInitializer n item s = .ok () s' ∧ Compiled σ s s' rest (.items es) none := by
  have written := emit_eq .initializeList s
  obtain ⟨fs, s', counted, parts⟩ := prefixed_numbered
    (s := { s with writer := s.writer.opcode .initializeList })
    (itemsOrNone_lists closes_rightBrace .expectedRightBrace lists fits short small
      ((speaks.of_writer _).of_writer _) ahead)
  refine ⟨s', ?_, parts.speaks, parts.ahead, ⟨[.compound .items fs], ⟨⟨?_, parts.called, ?_,
    termsLiterals_single _ ▸ parts.fills⟩, pushes_compound _ _, by simp, parts.load⟩,
    .items parts.codes⟩, by simp⟩
  · rw [listInitializer, bind_ok _ written]
    exact discard_ok counted
  · rw [termsWords_single, Term.words]
    exact (opcode_emits .initializeList s).trans parts.emits
  · simpa only [termsValid, Term.Valid, Head.Valid, and_true, true_and] using parts.valid

theorem literal?_of_kind (kind : tok.kind = .symbol ∨ tok.kind = .leftParen ∨
    tok.kind = .leftBrace) :
    tok.literal? = none := by
  unfold Token.literal?
  rcases kind with same | same | same <;> rw [same]

theorem operand_symbol {x : String} (ahead : Ahead (.name x :: ls) s.tokens)
    (reads : ∀ tok t, tok.lexeme = x → Reads s t → t.load + 1 ≤ s.load → Ahead ls t.tokens →
      ∃ s', symbolOperand n (expressionOf inner) tok t = .ok () s' ∧ Compiled σ s s' rest e none) :
    ∃ c s', operand n inner s = .ok c s' ∧ Compiled σ s s' rest e c := by
  obtain ⟨tok, t, taken, read, ahead⟩ := nextToken_sees ahead
  have first := nextToken_reads taken
  have cost := cost_of_kind read.1 (by simp [Lexeme.name])
  obtain ⟨s', ran, compiled⟩ := reads tok t (read.2 (by simp [Lexeme.name])) first.1
    (by omega) ahead
  refine ⟨none, s', ?_, compiled⟩
  rw [operand, bind_ok _ taken, literal?_of_kind (Or.inl read.1)]
  simp only [read.1, Lexeme.name]
  rw [bind_ok _ ran]
  rfl

theorem operand_parses (parses : Parses L σ n 0 inner) :
    Parses L σ (n + 1) 9 (operand n inner) := by
  intro e s rest fits small speaks ahead stops
  have lists := expressionOf_lists parses
  -- An expression that binds less tightly stands in parentheses.
  by_cases tight : e.level < 9
  · rw [lexemesAt_of_lt tight, List.cons_append, List.append_assoc] at ahead
    rw [lexemesAt_of_lt tight, List.length_cons, List.length_append] at small
    obtain ⟨tok, s₁, taken, read, ahead⟩ := nextToken_sees ahead
    have first := nextToken_reads taken
    obtain ⟨c, s₂, ran, compiled⟩ := parses e s₁ _ fits (by rw [lexemesAt_zero]; omega)
      (speaks.of_reads first.1) (lexemesAt_zero e ▸ ahead) ⟨_, _, rfl, rfl⟩
    obtain ⟨_, s', closed, _, ahead⟩ := expect_sees .rightParen .expectedRightParen rfl
      compiled.ahead
    have last := expect_reads closed
    refine ⟨c, s', ?_, (compiled.of_reads first.1 (by omega)).then_reads last.1 (by omega) ahead⟩
    rw [operand, bind_ok _ taken, literal?_of_kind (Or.inr (Or.inl read.1))]
    simp only [read.1, Lexeme.leftParen]
    rw [bind_ok _ ran, bind_ok _ (discard_ok closed)]
    rfl
  · rw [lexemesAt_of_le (Nat.not_lt.mp tight)] at ahead small
    cases e with
    | literal k =>
      rw [Tree.lexemes, List.singleton_append] at ahead
      obtain ⟨tok, s₁, taken, read, ahead⟩ := nextToken_sees ahead
      have first := nextToken_reads taken
      have atom := Literals.atom k
      obtain ⟨c, s', written⟩ := emitLiteral_total (Literals.value k) s₁
      refine ⟨some c, s', ?_, Compiled.of_reads first.1 (by omega) ?_⟩
      · rw [operand, bind_ok _ taken, Literals.reads k tok read]
        exact bind_ok _ written
      · exact compiled_of_writes (speaks.of_reads first.1) (emitLiteral_writes atom written) rfl
          ((emitLiteral_ok atom written).2.2 ▸ ahead)
    | var x =>
      rw [Tree.fits] at fits
      rw [Tree.lexemes, List.singleton_append] at ahead
      refine operand_symbol ahead fun tok t same first paid behind => ?_
      subst same
      exact symbolOperand_variable n _ first paid fits stops (speaks.of_reads first) behind
    | element x first more =>
      have row : (Tree.element x first more).lexemes = .name x :: indexLexemes (first :: more) := by
        rw [Tree.lexemes, indexLexemes]
      rw [row, List.cons_append] at ahead
      rw [row, List.length_cons] at small
      simp only [Tree.fits, Bool.and_eq_true] at fits
      refine operand_symbol ahead fun tok t same reads paid behind => ?_
      subst same
      exact symbolOperand_element lists reads paid fits.1.1 (by simp [allFit, fits]) (by omega)
        (by omega) stops (speaks.of_reads reads) behind
    | call f es =>
      rw [Tree.lexemes, List.cons_append, List.cons_append] at ahead
      rw [Tree.lexemes, List.length_cons, List.length_cons] at small
      simp only [Tree.fits, Bool.and_eq_true] at fits
      refine operand_symbol ahead fun tok t same reads paid behind => ?_
      subst same
      obtain ⟨s', ran, compiled⟩ := symbolOperand_call (n := n) lists fits.1 fits.2
        (by omega) (by omega) (speaks.of_reads reads) behind
      exact ⟨s', ran, compiled.of_reads reads (by omega)⟩
    | items es =>
      rw [Tree.lexemes, List.cons_append] at ahead
      rw [Tree.lexemes, List.length_cons] at small
      rw [Tree.fits] at fits
      obtain ⟨tok, s₁, taken, read, ahead⟩ := nextToken_sees ahead
      have first := nextToken_reads taken
      obtain ⟨s', ran, compiled⟩ := listInitializer_compiled (n := n) lists fits
        (by omega) (by omega) (speaks.of_reads first.1) ahead
      refine ⟨none, s', ?_, compiled.of_reads first.1 (by omega)⟩
      rw [operand, bind_ok _ taken, literal?_of_kind (Or.inr (Or.inr read.1))]
      simp only [read.1, Lexeme.leftBrace]
      rw [bind_ok _ ran]
      rfl
    | binary op left right => exact absurd (binaryLevel_ne op).2.2 tight
    | unary op operand =>
      cases op with
      | negate => exact absurd (show 7 < 9 by decide) tight
      | not => exact absurd (show 2 < 9 by decide) tight

theorem levels_eq (op : BinaryOp) :
    isChoice op = decide (binaryLevel op = 0) ∧ isConjunction op = decide (binaryLevel op = 1) ∧
      isComparison op = decide (binaryLevel op = 3) ∧ isJoin op = decide (binaryLevel op = 4) ∧
      isSum op = decide (binaryLevel op = 5) ∧ isProduct op = decide (binaryLevel op = 6) := by
  match op with
  | .arithmetic op => cases op <;> decide
  | .logical c => cases c <;> decide
  | .relation r => cases r <;> decide
  | .concat => decide
  | .power => decide

theorem formula_parses (n : Nat) : Parses L σ n 0 (formula n) := by
  induction n with
  | zero =>
    intro e s rest _ small
    omega
  | succ n ih =>
    have product : Parses L σ (n + 1) 6 (chain n isProduct _) :=
      chain_parses (fun op => (levels_eq op).2.2.2.2.2) (by decide) (by decide)
        (signed_parses (operand_parses ih))
    have sum : Parses L σ (n + 1) 5 (chain n isSum _) :=
      chain_parses (fun op => (levels_eq op).2.2.2.2.1) (by decide) (by decide) product
    have join : Parses L σ (n + 1) 4 (chain n isJoin _) :=
      chain_parses (fun op => (levels_eq op).2.2.2.1) (by decide) (by decide) sum
    have comparison : Parses L σ (n + 1) 3 (chain n isComparison _) :=
      chain_parses (fun op => (levels_eq op).2.2.1) (by decide) (by decide) join
    have conjunction : Parses L σ (n + 1) 1 (chain n isConjunction _) :=
      chain_parses (fun op => (levels_eq op).2.1) (by decide) (by decide)
        (negations_parses comparison)
    exact chain_parses (fun op => (levels_eq op).1) (by decide) (by decide) conjunction

theorem expression_lists : Lists L σ σ.budget expression := by
  intro e s rest fits small speaks ahead stops
  rw [expression, get_bind, speaks.budget]
  exact expressionOf_lists (formula_parses σ.budget) e s rest fits small speaks ahead stops

theorem returnStatement_returns (fits : e.fits σ.words = true)
    (small : e.lexemes.length < σ.budget) (speaks : Speaks σ s)
    (ahead : Ahead (e.lexemes ++ .lineBreak :: rest) s.tokens) :
    ∃ f s', returnStatement s = .ok () s' ∧ Speaks σ s' ∧ Ahead (.lineBreak :: rest) s'.tokens ∧
      Emits s s' (Plain.returnValue f).words 1 ∧ (Plain.returnValue f).Valid s'.references ∧
      Codes s'.naming e f := by
  have written := emit_eq .returnValue s
  obtain ⟨l, ls, row, starts, _⟩ := lexemes_starts e
  rw [row, List.cons_append] at ahead
  obtain ⟨t, peeked, ahead⟩ :=
    peekKind_sees (s := { s with writer := s.writer.opcode .returnValue }) ahead
  have reads := (peekKind_reads peeked).1
  rw [← List.cons_append, ← row] at ahead
  obtain ⟨f, s', ran, listed⟩ := expression_lists e t _ fits small
    ((speaks.of_writer _).of_reads reads) ahead ⟨_, _, rfl, rfl⟩
  have emits : Emits s s' (Plain.returnValue f).words 1 :=
    ((opcode_emits .returnValue s).then_reads reads).trans listed.writes.emits
  refine ⟨f, s', ?_, listed.speaks, listed.ahead, emits, ⟨trivial, listed.writes.valid⟩, ?_⟩
  · have going : (l.kind = .rightBrace || l.kind.endsStatement) = false := by
      cases kind : l.kind <;> simp_all [Token.Kind.startsOperand, Token.Kind.endsStatement]
    rw [returnStatement, bind_ok _ written, bind_ok _ peeked]
    simp only [going, Bool.false_eq_true, ↓reduceIte]
    exact ran
  · cases listed.codes with
    | cons first _ => exact first

end Scriptlet.Formula
