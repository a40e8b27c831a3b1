import Scriptlet.Proofs.Script.Formulas
import Scriptlet.Proofs.Source.Labels

/-!
Statements of a script compile, and the code that they add to the function is the code of the
tree. A statement takes its line; behind a branch without alternative the compiler looks beyond
the end of the line and gives the token back. The jumps of a branch wait until their places are
reached, and filling them in leaves the code around as it is.
-/
namespace Scriptlet.Compile

open Actions Code Script

variable {s s' t : Session} {g : Signature} {budget : Nat} {rest more : List Lexeme}
  {e : Expr} {m : Nat} {k : Nat} {tok : Token} {rule : Token → Compile Unit} {yes : List Stmt}
  {code : CodeOf} {body : Compile Unit} {inLoop : Bool}

/-- What a piece of code is, given names, exits and the address where it starts. -/
abbrev CodeOf := Naming → Exits → Nat → List Statement → Prop

structure Bodied (g : Signature) (budget : Nat) (s s' : Session) (code : CodeOf) : Prop where
  inside : Inside g budget s'
  grows : Grows s s'
  rounds : s'.rounds = s.rounds
  labels : s'.marks.1 = s.marks.1
  lays : Lays s s' fun exits start row _ => code s'.naming exits start row

abbrev Compiles (g : Signature) (budget : Nat) (action : Compile Unit) (s : Session)
    (rest : List Lexeme) (code : CodeOf) : Prop :=
  ∃ s', action s = .ok () s' ∧ Ahead rest s'.tokens ∧ Bodied g budget s s' code

theorem Bodied.of_emits (emits : Emits s t [] k) (body : Bodied g budget t s' code) :
    Bodied g budget s s' code where
  inside := body.inside
  grows := emits.grows.trans body.grows
  rounds := body.rounds.trans emits.rounds
  labels := body.labels.trans (congrArg _ emits.marks)
  lays := body.lays.of_emits emits

theorem Bodied.of_reads (reads : Reads s t) (body : Bodied g budget t s' code) :
    Bodied g budget s s' code :=
  body.of_emits reads.emits

theorem Emits.bodied {p : Plain} (emits : Emits s s' p.words k) (inside : Inside g budget s')
    (valid : p.Valid s'.references) (coded : code s'.naming s.exits s.writer.ip [.plain p]) :
    Bodied g budget s s' code where
  inside := inside
  grows := emits.grows
  rounds := emits.rounds
  labels := congrArg _ emits.marks
  lays := fun _ _ _ traces =>
    ⟨_, [], traces.append_plain emits valid, .of_labels (congrArg _ emits.marks), coded⟩

theorem Bodied.cons {st : Stmt} {ss : List Stmt}
    (first : Bodied g budget s t (Lies · · · st ·))
    (second : Bodied g budget t s' (LiesAll · · · ss ·)) :
    Bodied g budget s s' (LiesAll · · · (st :: ss) ·) where
  inside := second.inside
  grows := first.grows.trans second.grows
  rounds := second.rounds.trans first.rounds
  labels := second.labels.trans first.labels
  lays := by
    refine (first.lays.append first.rounds second.lays).mono ?_
    rintro _ _ ⟨new, new', _, _, rfl, _, lies, lies'⟩
    exact .cons (lies.mono second.grows.naming) lies'

theorem Bodied.nil (inside : Inside g budget s) :
    Bodied g budget s s (LiesAll · · · [] ·) where
  inside := inside
  grows := .refl s
  rounds := rfl
  labels := rfl
  lays := fun _ _ _ traces => ⟨[], [], by rwa [List.append_nil], .of_labels rfl, .nil⟩

/-- What a line of the script is followed by. -/
def Follows (more : List Lexeme) : Prop :=
  ∃ l ls, more = l :: ls ∧ l.kind ≠ .endOfLine ∧ l.kind ≠ .endOfFile ∧ l.kind ≠ .keyword .else_

theorem stops_lineBreak (more : List Lexeme) : Stops 0 (.lineBreak :: more) := ⟨_, _, rfl, rfl⟩

theorem stops_leftBrace (more : List Lexeme) : Stops 0 (.leftBrace :: more) := ⟨_, _, rfl, rfl⟩

theorem stops_keyword (k : Keyword) (more : List Lexeme) : Stops 0 (.keyword k :: more) :=
  ⟨_, _, rfl, rfl⟩

theorem assign_codes {a : Address} {x : String} (slot : s.naming.slot x a)
    (target : s.references.target a) (fits : e.fits g = true) (small : e.lexemes.length < budget)
    (inside : Inside g budget s) (ahead : Ahead (e.lexemes ++ rest) s.tokens)
    (stops : Stops 0 rest) :
    ∃ s' f, (do emitWith .assign a.pack; expression) s = .ok () s' ∧ Ahead rest s'.tokens ∧
      Inside g budget s' ∧ Emits s s' (Plain.assign a f).words 1 ∧
      (Plain.assign a f).Valid s'.references ∧ s'.naming.slot x a ∧ Codes s'.naming e f := by
  have written := emitWith_eq .assign a.pack s
  obtain ⟨f, s', ran, valued⟩ := expression_valued e
    { s with writer := (s.writer.opcode .assign).operand a.pack } rest fits small
    (inside.of_writer _) ahead stops
  have head := (emitWith_emits written).1
  have emits := head.trans valued.writes.emits
  refine ⟨s', f, ?_, valued.ahead, valued.inside, emits, ⟨emits.grows.within.target a target,
    valued.writes.valid⟩, emits.grows.naming.slot _ _ slot, valued.codes⟩
  rw [bind_ok _ written, ran]

theorem assignStatement_bodied (var : g.isVariable tok.lexeme = true) (fits : e.fits g = true)
    (small : e.lexemes.length < budget) (inside : Inside g budget s)
    (ahead : Ahead (.equal :: (e.lexemes ++ .lineBreak :: more)) s.tokens) :
    Compiles g budget (symbolStatement tok) s (.lineBreak :: more)
      (Lies · · · (.assign tok.lexeme e) ·) := by
  obtain ⟨s₁, peeked, ahead⟩ := peekKind_sees ahead
  obtain ⟨_, s₂, taken, _, ahead⟩ := nextToken_sees ahead
  have reads := (peekKind_reads peeked).1.trans (nextToken_reads taken).1
  obtain ⟨a, s₃, resolved, names, slot⟩ := assignableAddress_names (inside.of_reads reads) var
  obtain ⟨opening, _, target, _⟩ := assignableAddress_ok resolved
  obtain ⟨s', f, ran, ahead, inside', emits, valid, slot, codes⟩ :=
    assign_codes slot target fits small names.inside (names.tokens ▸ ahead) (stops_lineBreak more)
  refine ⟨s', ?_, ahead, ((emits.bodied inside' valid (.assign slot codes)).of_emits
    opening).of_reads reads⟩
  rw [symbolStatement, get_bind, bind_ok _ peeked]
  simp only [Lexeme.equal]
  rw [bind_ok _ (discard_ok taken), bind_ok _ resolved]
  exact ran

theorem callStatement_bodied {es : List Expr}
    (known : g.functions.lookup tok.lexeme = some es.length) (fits : allFit g es = true)
    (small : (argumentLexemes es).length ≤ budget) (inside : Inside g budget s)
    (ahead : Ahead (.leftParen :: (argumentLexemes es ++ rest)) s.tokens) :
    Compiles g budget (symbolStatement tok) s rest (Lies · · · (.call tok.lexeme es) ·) := by
  obtain ⟨s₁, peeked, ahead⟩ := peekKind_sees ahead
  obtain ⟨_, s₂, taken, _, ahead⟩ := nextToken_sees ahead
  have reads := (peekKind_reads peeked).1.trans (nextToken_reads taken).1
  obtain ⟨place, fs, s', ran, inside', ahead, emits, valid, placed, codes⟩ :=
    callOf_calls known fits small (inside.of_reads reads) ahead
  refine ⟨s', ?_, ahead, (emits.bodied inside' valid (.call placed codes)).of_reads reads⟩
  rw [symbolStatement, get_bind, bind_ok _ peeked]
  simp only [Lexeme.leftParen]
  rw [bind_ok _ (discard_ok taken), inside.budget]
  exact ran

theorem returnStatement_bodied (inside : Inside g budget s)
    (ahead : Ahead (.lineBreak :: more) s.tokens) :
    Compiles g budget returnStatement s (.lineBreak :: more) (Lies · · · .return_ ·) := by
  have written := emit_eq .returnValue s
  obtain ⟨t, peeked, ahead⟩ :=
    peekKind_sees (s := { s with writer := s.writer.opcode .returnValue }) ahead
  have reads := (peekKind_reads peeked).1
  have emits : Emits s { t with writer := t.writer.operand 0 } (Plain.returnValue []).words 1 :=
    ((opcode_emits .returnValue s).then_reads reads).trans (operand_emits 0 t)
  refine ⟨{ t with writer := t.writer.operand 0 }, ?_, ahead,
    emits.bodied (((inside.of_writer _).of_reads reads).of_writer _) ⟨trivial, ?_⟩ .return_⟩
  · rw [returnStatement, bind_ok _ written, bind_ok _ peeked]
    rfl
  · simp [Plain.parts, partsValid, termsValid, effect]

theorem returnValue_bodied (fits : e.fits g = true) (small : e.lexemes.length < budget)
    (inside : Inside g budget s) (ahead : Ahead (e.lexemes ++ .lineBreak :: more) s.tokens) :
    Compiles g budget returnStatement s (.lineBreak :: more) (Lies · · · (.returnValue e) ·) := by
  obtain ⟨f, s', ran, inside', ahead, emits, valid, codes⟩ :=
    returnStatement_returns fits small inside ahead
  exact ⟨s', ran, ahead, emits.bodied inside' valid (.returnValue codes)⟩

def States (g : Signature) (budget m : Nat) (rule : Token → Compile Unit) : Prop :=
  ∀ (st : Stmt) (inLoop : Bool) (s : Session) (l : Lexeme) (ls more : List Lexeme) (tok : Token),
    st.fits g inLoop = true → (inLoop = true → s.rounds ≠ []) → st.lexemes = l :: ls →
    st.lexemes.length ≤ m → l.Matches tok → Inside g budget s →
    Ahead (ls ++ .lineBreak :: more) s.tokens → Follows more →
    ∃ s', rule tok s = .ok () s' ∧ Past more s'.tokens ∧
      Bodied g budget s s' fun r exits start row => Lies r exits start st row

def Blocks (g : Signature) (budget m : Nat) (rule : Compile Unit) : Prop :=
  ∀ (ss : List Stmt) (inLoop : Bool) (s : Session) (rest : List Lexeme),
    blockFits g inLoop ss = true → (inLoop = true → s.rounds ≠ []) →
    (lineLexemes ss).length ≤ m → Inside g budget s →
    Ahead (.leftBrace :: .lineBreak :: (lineLexemes ss ++ rest)) s.tokens →
    ∃ s', rule s = .ok () s' ∧ Ahead rest s'.tokens ∧
      Bodied g budget s s' fun r exits start row => LiesAll r exits start ss row

theorem stmt_starts (st : Stmt) : ∃ l ls, st.lexemes = l :: ls ∧
    (l.kind = .symbol ∨ ∃ k, l.kind = .keyword k ∧ k ≠ .else_) := by
  cases st <;> rw [Stmt.lexemes] <;> refine ⟨_, _, rfl, ?_⟩ <;>
    simp [Lexeme.name, Lexeme.keyword]

theorem lineLexemes_follow (ss : List Stmt) (rest : List Lexeme) :
    Follows (lineLexemes ss ++ rest) := by
  cases ss with
  | nil => exact ⟨_, _, rfl, by decide, by decide, by decide⟩
  | cons st ss =>
    obtain ⟨l, ls, row, kind⟩ := stmt_starts st
    refine ⟨l, ls ++ .lineBreak :: (lineLexemes ss) ++ rest, ?_, ?_⟩
    · rw [lineLexemes, row]
      rfl
    · rcases kind with same | ⟨k, same, other⟩
      · simp [same]
      · simp [same, other]

theorem blockBody_bodied (states : States g budget m rule) (n : Nat) :
    ∀ (ss : List Stmt) (inLoop : Bool) (s : Session) (rest : List Lexeme),
      blockFits g inLoop ss = true → (inLoop = true → s.rounds ≠ []) →
      (lineLexemes ss).length ≤ n → (lineLexemes ss).length ≤ m → Inside g budget s →
      Past (lineLexemes ss ++ rest) s.tokens → Compiles g budget (blockBody rule n) s rest
        (LiesAll · · · ss ·) := by
  induction n with
  | zero =>
    intro ss inLoop s rest _ _ short
    cases ss with
    | nil | cons => simp [lineLexemes] at short
  | succ n ih =>
    intro ss inLoop s rest fits around short small inside past
    have flushed := flush_none past.errors
    cases ss with
    | nil =>
      obtain ⟨tok, s', taken, read, ahead⟩ := nextPastBreaks_sees (by decide) past
      have reads := (nextPastBreaks_reads taken).1
      refine ⟨s', ?_, ahead, (Bodied.nil (inside.of_reads reads)).of_reads reads⟩
      rw [blockBody, bind_ok _ flushed, bind_ok _ taken, read.1]
      rfl
    | cons st ss =>
      obtain ⟨l, ls, row, kind⟩ := stmt_starts st
      rw [lineLexemes, List.length_append, List.length_cons] at short small
      simp only [blockFits, Bool.and_eq_true] at fits
      rw [lineLexemes, row, List.append_assoc, List.cons_append] at past
      have solid : l.kind ≠ .endOfLine := by
        rcases kind with same | ⟨k, same, _⟩ <;> simp [same]
      obtain ⟨tok, s₁, taken, read, ahead⟩ := nextPastBreaks_sees solid past
      have reads := (nextPastBreaks_reads taken).1
      have around₁ : inLoop = true → s₁.rounds ≠ [] := by
        rw [reads.emits.rounds]
        exact around
      obtain ⟨s₂, ran, past, body⟩ := states st inLoop s₁ l ls (lineLexemes ss ++ rest) tok fits.1
        around₁ row (by omega) read (inside.of_reads reads) ahead (lineLexemes_follow ss rest)
      obtain ⟨s', ran', ahead, body'⟩ :=
        ih ss inLoop s₂ rest fits.2 (by rwa [body.rounds]) (by omega) (by omega) body.inside past
      refine ⟨s', ?_, ahead, (body.cons body').of_reads reads⟩
      rw [blockBody, bind_ok _ flushed, bind_ok _ taken, read.1]
      rcases kind with same | ⟨k, same, _⟩
      · rw [same]
        exact (bind_ok _ (recover_of_ok ran)).trans ran'
      · rw [same]
        exact (bind_ok _ (recover_of_ok ran)).trans ran'

theorem block_blocks {n : Nat} (states : States g budget m rule) (le : m ≤ n) :
    Blocks g budget m (block n rule) := by
  intro ss inLoop s rest fits around small inside ahead
  obtain ⟨tok, s₁, taken, read, ahead⟩ := nextPastBreaks_sees (by decide) (Or.inl ahead)
  have reads := (nextPastBreaks_reads taken).1
  have around₁ : inLoop = true → s₁.rounds ≠ [] := by
    rw [reads.emits.rounds]
    exact around
  obtain ⟨s', ran, ahead, body⟩ := blockBody_bodied states n ss inLoop s₁ rest fits around₁
    (Nat.le_trans small le) small (inside.of_reads reads) (Or.inr ahead)
  refine ⟨s', ?_, ahead, body.of_reads reads⟩
  have brace : tok.kind = .leftBrace := read.1
  rw [block, bind_ok _ taken, if_pos brace, ran]

theorem liesAll_resolves (r : Naming) (ss : List Stmt) :
    Resolves fun exits start row _ => LiesAll r exits start ss row := by
  intro exits start row labels t address open_ _ lies
  exact lies.resolve open_ address

theorem test_codes (fits : e.fits g = true) (small : e.lexemes.length < budget)
    (inside : Inside g budget s) (ahead : Ahead (e.lexemes ++ .leftBrace :: rest) s.tokens) :
    ∃ s' f, expression (s.jumping .jumpIfFalse) = .ok () s' ∧ Ahead (.leftBrace :: rest) s'.tokens ∧
      Inside g budget s' ∧ Emits s s' (Opcode.jumpIfFalse.word :: 0 :: partsWords [f]) 1 ∧
      partsValid s'.references [f] ∧ Codes s'.naming e f := by
  obtain ⟨f, s', ran, valued⟩ := expression_valued e (s.jumping .jumpIfFalse) _ fits small
    (inside.of_writer _) ahead (stops_leftBrace rest)
  exact ⟨s', f, ran, valued.ahead, valued.inside, (jumping_emits _ s).trans valued.writes.emits,
    valued.writes.valid, valued.codes⟩

theorem inside_patched (inside : Inside g budget s) (operand target : Nat) :
    Inside g budget (s.patched operand target) :=
  inside.of_writer _

theorem ifStatement_bodied (blocks : Blocks g budget m body) (fits : e.fits g = true)
    (small : e.lexemes.length < budget) (fits' : blockFits g inLoop yes = true)
    (around : inLoop = true → s.rounds ≠ []) (small' : (lineLexemes yes).length ≤ m)
    (inside : Inside g budget s)
    (ahead : Ahead (e.lexemes ++ .leftBrace :: .lineBreak ::
      (lineLexemes yes ++ .lineBreak :: more)) s.tokens) (follows : Follows more) : ∃ s',
      ifStatement body s = .ok () s' ∧ Past more s'.tokens ∧
      Bodied g budget s s' (Lies · · · (.if_ e yes) ·) := by
  obtain ⟨s₁, f, tested, ahead, inside₁, test, valid, codes⟩ := test_codes fits small inside ahead
  obtain ⟨s₂, ran, ahead, bodied⟩ := blocks yes inLoop s₁ _ fits' (by rwa [test.rounds])
    small' inside₁ ahead
  obtain ⟨l, ls, rfl, solid, _, notElse⟩ := follows
  obtain ⟨tok, s₃, taken, read, _⟩ := nextPastBreaks_sees solid (Or.inr ahead)
  obtain ⟨s₄, given, ahead⟩ := unget_past solid (Or.inr ahead) taken
  have reads := (nextPastBreaks_reads taken).1.trans (unget_reads given).1
  refine ⟨s₄.patched (s.writer.ip + 1) s₄.writer.ip, ?_, Or.inl ahead,
    inside_patched (bodied.inside.of_reads reads) _ _, ?_, ?_, ?_, ?_⟩
  · have other : tok.kind ≠ .keyword .else_ := by rw [read.1]; exact notElse
    rw [ifStatement, jumping_bind, bind_ok _ tested, bind_ok _ ran, bind_ok _ taken, if_neg other,
      bind_ok _ given, bind_ok _ (here_eq s₄), patchAddress_eq]
  · exact ((test.grows.trans bodied.grows).trans reads.emits.grows).trans (patched_grows _ _ s₄)
  · exact (reads.emits.rounds.trans bodied.rounds).trans test.rounds
  · exact ((congrArg _ reads.emits.marks).trans bodied.labels).trans (congrArg _ test.marks)
  · refine (Lays.if_ test valid (liesAll_resolves _ _) (bodied.lays.then_emits reads.emits)).mono ?_
    rintro _ _ ⟨block, finish, rfl, at_, lies⟩
    have within : s₂.naming.Within s₄.naming := reads.emits.grows.naming
    exact .if_ ((codes.mono bodied.grows.naming).mono within) (lies.mono within) at_

theorem ifElseStatement_bodied (blocks : Blocks g budget m body) {no : List Stmt}
    (fits : e.fits g = true) (small : e.lexemes.length < budget)
    (fitsYes : blockFits g inLoop yes = true) (fitsNo : blockFits g inLoop no = true)
    (around : inLoop = true → s.rounds ≠ []) (smallYes : (lineLexemes yes).length ≤ m)
    (smallNo : (lineLexemes no).length ≤ m) (inside : Inside g budget s)
    (ahead : Ahead (e.lexemes ++ .leftBrace :: .lineBreak :: (lineLexemes yes ++ .keyword .else_ ::
      .leftBrace :: .lineBreak :: (lineLexemes no ++ rest))) s.tokens) :
    Compiles g budget (ifStatement body) s rest (Lies · · · (.ifElse e yes no) ·) := by
  obtain ⟨s₁, f, tested, ahead, inside₁, test, valid, codes⟩ := test_codes fits small inside ahead
  obtain ⟨s₂, ran, ahead, first⟩ := blocks yes inLoop s₁ _ fitsYes (by rwa [test.rounds]) smallYes
    inside₁ ahead
  obtain ⟨tok, s₃, taken, read, ahead⟩ := nextPastBreaks_sees (by decide) (Or.inl ahead)
  have reads := (nextPastBreaks_reads taken).1
  have jump := jumping_emits .jump s₃
  have rounds₃ : s₃.rounds = s.rounds := (reads.emits.rounds.trans first.rounds).trans test.rounds
  have labels₃ : s₃.marks.1 = s.marks.1 :=
    ((congrArg _ reads.emits.marks).trans first.labels).trans (congrArg _ test.marks)
  obtain ⟨s₅, ran', ahead, second⟩ := blocks no inLoop ((s₃.jumping .jump).patched (s.writer.ip + 1)
    (s₃.jumping .jump).writer.ip) rest fitsNo (fun loop same => around loop (rounds₃ ▸ same))
    smallNo (inside_patched ((first.inside.of_reads reads).of_writer _) _ _) ahead
  have grows₅ := ((reads.emits.grows.trans jump.grows).trans (patched_grows _ _ _)).trans
    second.grows
  refine ⟨s₅.patched (s₃.writer.ip + 1) s₅.writer.ip, ?_, ahead,
    inside_patched second.inside _ _, ?_, second.rounds.trans rounds₃,
      second.labels.trans labels₃, ?_⟩
  · have else_ : tok.kind = .keyword .else_ := read.1
    rw [ifStatement, jumping_bind, bind_ok _ tested, bind_ok _ ran, bind_ok _ taken, if_pos else_,
      jumping_bind, bind_ok _ (here_eq _), bind_ok _ (patchAddress_eq _ _ _), bind_ok _ ran',
      bind_ok _ (here_eq s₅), patchAddress_eq]
  · exact ((test.grows.trans first.grows).trans grows₅).trans (patched_grows _ _ s₅)
  · refine (Lays.ifElse test valid (liesAll_resolves _ _) (liesAll_resolves _ _)
      (first.lays.then_emits reads.emits) (reads.emits.rounds.trans first.rounds) second.lays).mono
      ?_
    rintro _ _ ⟨block, block', _, _, middle, finish, rfl, _, at_, at_', lies, lies'⟩
    exact .ifElse ((codes.mono first.grows.naming).mono grows₅.naming)
      (lies.mono grows₅.naming) lies' at_ at_'

end Scriptlet.Compile
