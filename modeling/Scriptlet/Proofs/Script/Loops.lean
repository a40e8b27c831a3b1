import Scriptlet.Proofs.Script.Bodies

/-!
Loops of a script compile, and with them every statement. Jumps of `break` and `continue` stay
open until their loop is closed, and closing it turns the code of its body into code that knows
where they go.
-/
namespace Scriptlet.Compile

open Actions Code Script

variable {s s' t : Session} {g : Signature} {budget : Nat} {rest more : List Lexeme}
variable {base : List UInt32} {pending : List Nat} {row : List Statement} {ss : List Stmt}
  {limit : Expr} {x : Scope} {m : Nat} {body : Compile Unit} {step : Step} {r : Naming} {e : Expr}
  {finish : Nat} {a : Address} {tok : Token}

theorem remarked_naming (scope : s.scope = some x) (labels : NameTable Label) (loops : List Loop)
    (writer : CodeWriter) : (s.remarked x labels loops writer).naming = s.naming := by
  simp only [Session.naming, Session.remarked, scope]
  rfl

theorem Inside.remarked (inside : Inside g budget s) (x : Scope) (labels : NameTable Label)
    (loops : List Loop) (writer : CodeWriter) :
    Inside g budget (s.remarked x labels loops writer) :=
  ⟨inside.toReady.of_tables rfl rfl rfl rfl rfl, rfl⟩

/-- A loop is opened, its rounds are compiled, and it is closed. -/
theorem inLoop_bodied (code : CodeOf) (body : Nat → Compile Unit) {r : Nat × Nat}
    (scope : s.scope = some x) (ran : body s.writer.ip (s.looping x) = .ok () t)
    (inside : Inside g budget t) (grows : Grows (s.looping x) t) (rounds : t.rounds = r :: s.rounds)
    (labels : t.marks.1 = x.labels) (adds : ∀ s', closeLoop ⟨x.loops.length⟩ t = .ok () s' →
      Lays s s' fun exits start row _ => code t.naming exits start row) :
    ∃ s', inLoop body s = .ok () s' ∧ s'.tokens = t.tokens ∧ Bodied g budget s s' code := by
  obtain ⟨y, l, loops, scope', around, _, outer⟩ := innermost_round rounds
  have depth : loops.length = x.loops.length := by
    simpa [rounds_of_scope scope] using congrArg List.length outer
  have closed := closeLoop_eq scope' around
  rw [depth] at closed
  refine ⟨_, inLoop_eq scope ran closed, rfl, inside.remarked _ _ _ _, ?_, outer, ?_, ?_⟩
  · exact ((remarked_grows scope _ _ _).trans grows).trans (remarked_grows scope' _ _ _)
  · rw [marks_of_scope scope]
    exact (congrArg _ (marks_of_scope scope').symm).trans labels
  · rw [remarked_naming scope']
    exact adds _ closed

theorem loopJump_bodied (tok : Token) (leave : Bool) (inside : Inside g budget s)
    (around : s.rounds ≠ []) :
    ∃ s', loopJump tok leave s = .ok () s' ∧ s'.tokens = s.tokens ∧
      Bodied g budget s s' (Lies · · · (if leave then .break_ else .continue_) ·) := by
  obtain ⟨r, outer, rounds⟩ := List.exists_cons_of_ne_nil around
  obtain ⟨x, l, loops, scope, split, _, rfl⟩ := innermost_round rounds
  have jumped := addLoopJump_eq (s := s.jumping .jump) scope split (s.writer.ip + 1) leave
  have any : s.scope.any (fun scope => !scope.loops.isEmpty) = true := by
    simp [scope, split]
  refine ⟨s.remarked x x.labels (noted leave (s.writer.ip + 1) l :: loops)
    ((s.writer.opcode .jump).operand 0), ?_, rfl, inside.remarked _ _ _ _,
    remarked_grows scope _ _ _, noted_rounds scope split, ?_, ?_⟩
  · rw [loopJump, get_bind, if_pos any, jumping_bind, jumped]
    rfl
  · rw [marks_of_scope scope]
    rfl
  · refine (Lays.noted leave scope split).mono ?_
    rintro _ _ ⟨rfl, _, exits⟩
    rw [exits]
    cases leave with
    | true => exact .break_
    | false => exact .continue_

theorem Inside.testing (inside : Inside g budget s) (x : Scope) (l : Loop) (loops : List Loop) :
    Inside g budget (s.testing x l loops) :=
  inside.remarked _ _ _ _

theorem whileStatement_bodied (blocks : Blocks g budget m body) (fits : e.fits g = true)
    (small : e.lexemes.length < budget) (fits' : blockFits g true ss = true)
    (small' : (lineLexemes ss).length ≤ m) (inside : Inside g budget s)
    (ahead : Ahead (e.lexemes ++ .leftBrace :: .lineBreak :: (lineLexemes ss ++ rest)) s.tokens) :
    Compiles g budget (whileStatement body) s rest (Lies · · · (.while_ e ss) ·) := by
  obtain ⟨x, scope⟩ := Option.isSome_iff_exists.mp inside.scope
  obtain ⟨y, l, scope₀, loops₀⟩ := looping_scope s x
  have tested := emitLoopTest_eq scope₀ loops₀
  have inside₀ : Inside g budget (s.looping x) := inside.remarked _ _ _ _
  obtain ⟨f, s₂, ran, valued⟩ := expression_valued e _ _ fits small
    (inside₀.testing y l x.loops) ahead (stops_leftBrace _)
  have rounds₂ := tested_rounds scope scope₀ loops₀ valued.writes.emits
  obtain ⟨s₃, ran', ahead', bodied⟩ := blocks ss true s₂ rest fits' (by simp [rounds₂]) small'
    valued.inside valued.ahead
  have back := emitWith_eq .jump (.ofNat s.writer.ip) s₃
  have jump := (emitWith_emits back).1
  have rounds₃ := bodied.rounds.trans rounds₂
  have labels₃ : s₃.marks.1 = x.labels := by
    rw [bodied.labels, valued.writes.emits.marks, testing_labels _ _ scope₀, looping_labels]
  have grows := (((remarked_grows scope₀ _ _ _).trans valued.writes.emits.grows).trans
    bodied.grows).trans jump.grows
  obtain ⟨s', looped, tokens, result⟩ := inLoop_bodied
    (Lies · · · (.while_ e ss) ·)
    (fun start => do emitLoopTest; expression; body; emitWith .jump (UInt32.ofNat start)) scope
    (by rw [bind_ok _ tested, bind_ok _ ran, bind_ok _ ran', back])
    (bodied.inside.of_writer _) grows (jump.rounds.trans rounds₃)
    ((congrArg _ jump.marks).trans labels₃) fun s' closed => by
      refine (Lays.loop scope scope₀ loops₀ valued.writes.emits valued.writes.valid
        (liesAll_resolves _ _) bodied.lays rounds₃ back closed).mono ?_
      rintro _ _ ⟨block, finish, rfl, at_, lies⟩
      exact .while_ (valued.codes.mono bodied.grows.naming) lies at_
  exact ⟨s', looped, tokens ▸ ahead', result⟩

theorem limit_codes (counter : Address) (fits : limit.fits g = true)
    (small : limit.lexemes.length < budget) (inside : Inside g budget s)
    (ahead : Ahead (limit.lexemes ++ rest) s.tokens) (stops : Stops 0 rest) :
    ∃ test s' us, counted (do
        emitVariable counter
        let _ ← openFormula
        emit (.binary (.relation .lessOrEqual))) s = .ok test s' ∧
      Inside g budget s' ∧ Ahead rest s'.tokens ∧
      Emits s s' (partsWords [limitTest counter us .lessOrEqual]) 0 ∧ Pushes us ∧
      termsValid s'.references us ∧ test + 1 = s'.writer.ip ∧ Codes s'.naming limit us := by
  have loaded : emitVariable counter s.opened = .ok () _ := emitWith_eq .load counter.pack s.opened
  obtain ⟨c, t, us, ran, inside', ahead, outcome, codes⟩ := openFormula_outcome
    (s := { s.opened with writer := (s.opened.writer.opcode .load).operand counter.pack })
    limit fits small (inside.of_writer _) ahead stops
  obtain ⟨emits, _, _, last⟩ := limit_emits loaded outcome
  refine ⟨t.writer.ip, t.compared s.writer.ip, us, counted_of_ok ?_, inside'.of_writer _,
    ahead, emits, outcome.pushes, outcome.writes.valid, last, codes⟩
  rw [bind_ok _ loaded, bind_ok _ ran, emit_eq]

theorem sign_sees (step : Step) (ahead : Ahead ((if step.size < 0 then [.minus] else []) ++
      [.number step.size.natAbs] ++ rest) s.tokens) :
    ∃ negative s', accept .minus s = .ok negative s' ∧
      Ahead (.number step.size.natAbs :: rest) s'.tokens ∧
      (if negative then UnaryOp.negate.apply (.integer (.ofNat step.size.natAbs))
        else .integer (.ofNat step.size.natAbs)) = .integer step.value := by
  by_cases down : step.size < 0
  · rw [if_pos down] at ahead
    obtain ⟨s', sign, ahead⟩ := accept_sees .minus rfl ahead
    refine ⟨true, s', sign, ahead, ?_⟩
    rw [if_pos rfl, unary_apply]
    exact congrArg Value.integer (step.value_of_neg down)
  · rw [if_neg down] at ahead
    obtain ⟨s', sign, ahead⟩ := accept_misses .minus (by simp [Lexeme.number]) ahead
    refine ⟨false, s', sign, ahead, ?_⟩
    rw [if_neg Bool.false_ne_true]
    exact congrArg Value.integer (step.value_of_nonneg down)

theorem stepValue_sees (step : Step) (ahead : Ahead (step.lexemes ++ rest) s.tokens) :
    ∃ s', stepValue s = .ok (.integer step.value) s' ∧ Ahead rest s'.tokens := by
  rw [Step.lexemes, List.cons_append] at ahead
  obtain ⟨s₁, given, ahead⟩ := accept_sees (.keyword .step) rfl ahead
  obtain ⟨negative, s₂, sign, ahead, value⟩ := sign_sees step ahead
  obtain ⟨tok, s', taken, read, ahead⟩ := nextToken_sees ahead
  refine ⟨s', ?_, ahead⟩
  have kind : tok.kind = .integer := read.1
  rw [stepValue, bind_ok _ given]
  simp only [↓reduceIte]
  rw [bind_ok _ sign, bind_ok _ taken]
  simp only [kind, decide_true, Bool.true_or, ↓reduceIte, number_literal step.small read,
    Option.getD_some, value, step.compare_zero.1]
  rfl

theorem forRounds_reaches {counter : Address} {l : Loop} {loops : List Loop} (step : Step)
    (body : Compile Unit) (start : Nat) (fits : limit.fits g = true)
    (small : limit.lexemes.length < budget) (inside : Inside g budget s) (scope : s.scope = some x)
    (around : x.loops = l :: loops) (target : s.references.target counter)
    (ahead : Ahead (limit.lexemes ++ (step.lexemes ++ rest)) s.tokens) :
    ∃ t us, forRounds counter body start s = roundEnd counter body start (.integer step.value) t ∧
      Inside g budget t ∧ Ahead rest t.tokens ∧
      Emits (s.testing x l loops) t (partsWords [limitTest counter us step.relation]) 0 ∧
      partsValid t.references [limitTest counter us step.relation] ∧ Codes t.naming limit us := by
  have tested := emitLoopTest_eq scope around
  obtain ⟨test, s₂, us, limited, inside₂, ahead, emits, pushes, valid, last, codes⟩ :=
    limit_codes counter fits small (inside.testing x l loops) ahead (stops_keyword _ _)
  obtain ⟨s₃, stepped, ahead⟩ := stepValue_sees step ahead
  have reads := (stepValue_ok stepped).1
  have within := ((remarked_grows scope _ _ _).trans emits.grows).trans reads.emits.grows |>.within
  have valid₃ := fun op => limit_valid op (within.target counter target) pushes
    (termsValid_mono reads.emits.grows.within _ valid)
  have codes₃ := codes.mono reads.emits.grows.naming
  by_cases down : step.size < 0
  · have last₃ : test + 1 = s₃.writer.ip := by
      obtain ⟨_, _, rfl⟩ := reads
      exact last
    refine ⟨{ s₃ with writer := s₃.writer.patchOpcode test (.binary (.relation .greaterOrEqual)) },
      us, ?_, (inside₂.of_reads reads).of_writer _, ahead, ?_, ?_, codes₃⟩
    · rw [forRounds, bind_ok _ tested, bind_ok _ limited, bind_ok _ stepped]
      simp only [step.compare_zero.2.mpr down, ↓reduceIte]
      rfl
    · rw [Step.relation, if_pos down]
      exact limit_patched (emits.then_reads reads) last₃
    · rw [Step.relation, if_pos down]
      exact valid₃ .greaterOrEqual
  · have up : (Value.integer step.value).compare .zero ≠ .lt := fun lt =>
      down (step.compare_zero.2.mp lt)
    refine ⟨s₃, us, ?_, inside₂.of_reads reads, ahead, ?_, ?_, codes₃⟩
    · rw [forRounds, bind_ok _ tested, bind_ok _ limited, bind_ok _ stepped]
      simp only [up, ↓reduceIte]
      rfl
    · rw [Step.relation, if_neg down]
      exact emits.then_reads reads
    · rw [Step.relation, if_neg down]
      exact valid₃ .lessOrEqual

theorem increment_codes (counter : Address) (n : Int32) (inside : Inside g budget s) :
    ∃ place r t s' i, intern (.integer n) s = .ok place r ∧
      emitWith .assign counter.pack r = .ok () t ∧
      counted (do
        emitVariable counter
        emitWith .literal place
        discard (emit (.binary (.arithmetic .add)))) t = .ok () s' ∧
      Inside g budget s' ∧ s'.tokens = s.tokens ∧ Emits s s' (increment counter i).words 1 ∧
      s'.naming.literal i (.integer n) := by
  obtain ⟨place, r, interned⟩ := intern_total (.integer n) s
  have written := emitWith_eq .assign counter.pack r
  generalize opened :
    ({ r with writer := (r.writer.opcode .assign).operand counter.pack } : Session) = t at written
  have added : counted (do
      emitVariable counter
      emitWith .literal place
      discard (emit (.binary (.arithmetic .add)))) t = .ok () _ := counted_of_ok rfl
  obtain ⟨_, _, more, _, _, _, rest, _⟩ := intern_ok interned
  obtain ⟨i, w, found, stands, emits, _⟩ := increment_emits rfl interned written added
  rw [standsFor_integer stands] at found
  have inside_r : Inside g budget r := by
    rw [rest]
    exact inside.of_code s.tokens s.writer r.literals
  have tokens_r : r.tokens = s.tokens := by rw [rest]
  refine ⟨place, r, t, _, i, interned, written, added, ?_, ?_, emits, found⟩
  · refine Inside.of_writer (s := t) ?_ _
    rw [← opened]
    exact inside_r.of_writer _
  · change t.tokens = s.tokens
    rw [← opened]
    exact tokens_r

def roundsOf (x : String) (a : Address) (first limit : Expr) (step : Step) (ss : List Stmt) :
    CodeOf :=
  fun r exits round row => ∀ start ts, Codes r first ts →
    round = start + (Statement.plain (.assign a ts)).size →
    Lies r exits start (.for_ x first limit step ss) (.plain (.assign a ts) :: row)

theorem forRounds_bodied (blocks : Blocks g budget m body) {x : String} (first : Expr)
    (slot : s.naming.slot x a) (target : s.references.target a) (fits : limit.fits g = true)
    (small : limit.lexemes.length < budget) (fits' : blockFits g true ss = true)
    (small' : (lineLexemes ss).length ≤ m) (inside : Inside g budget s)
    (ahead : Ahead (limit.lexemes ++ (step.lexemes ++ .leftBrace :: .lineBreak ::
      (lineLexemes ss ++ rest))) s.tokens) :
    Compiles g budget (inLoop (forRounds a body)) s rest (roundsOf x a first limit step ss) := by
  obtain ⟨outer, scope⟩ := Option.isSome_iff_exists.mp inside.scope
  obtain ⟨y, l, scope₀, loops₀⟩ := looping_scope s outer
  have inside₀ : Inside g budget (s.looping outer) := inside.remarked _ _ _ _
  have grows₀ : Grows s (s.looping outer) := remarked_grows scope _ _ _
  obtain ⟨s₂, us, reached, inside₂, ahead, emits, valid, codes⟩ := forRounds_reaches step body
    s.writer.ip fits small inside₀ scope₀ loops₀ (grows₀.within.target a target) ahead
  have grows₂ : Grows (s.looping outer) s₂ := (remarked_grows scope₀ _ _ _).trans emits.grows
  have rounds₂ := tested_rounds scope scope₀ loops₀ emits
  obtain ⟨s₃, ran, ahead, bodied⟩ := blocks ss true s₂ rest fits' (by simp [rounds₂]) small' inside₂
    ahead
  obtain ⟨z, l', loops, scope₃, loops₃, same, outside⟩ := innermost_round
    (bodied.rounds.trans rounds₂)
  have resumed := resume_eq scope₃ loops₃
  have inside₄ : Inside g budget (s₃.resumed z l' loops) := bodied.inside.remarked _ _ _ _
  have rounds₄ : (s₃.resumed z l' loops).rounds = (s.writer.ip, s₃.writer.ip) :: s.rounds := by
    obtain ⟨start, _⟩ := Prod.mk.inj same
    rw [← start, ← outside]
    rfl
  obtain ⟨place, r, t, s₅, i, interned, written, added, inside₅, tokens₅, adds, literal⟩ :=
    increment_codes a step.value inside₄
  have back := emitWith_eq .jump (.ofNat s.writer.ip) s₅
  have jump := (emitWith_emits back).1
  have rounds₅ := adds.rounds.trans rounds₄
  have labels₃ : s₃.marks.1 = outer.labels := by
    rw [bodied.labels, emits.marks, testing_labels _ _ scope₀, looping_labels]
  have labels₅ : s₅.marks.1 = outer.labels := by
    rw [adds.marks, ← labels₃, marks_of_scope scope₃]
    rfl
  have grows₃ : Grows s₃ (s₃.resumed z l' loops) := remarked_grows scope₃ _ _ _
  obtain ⟨s', looped, tokens, result⟩ := inLoop_bodied (roundsOf x a first limit step ss)
    (forRounds a body)
    (t := { s₅ with writer := (s₅.writer.opcode .jump).operand (.ofNat s.writer.ip) }) scope
    (by rw [reached, roundEnd, bind_ok _ ran, bind_ok _ (here_eq s₃), bind_ok _ resumed,
      bind_ok _ interned, bind_ok _ written, bind_ok _ added, back])
    (inside₅.of_writer _) ((((grows₂.trans bodied.grows).trans grows₃).trans adds.grows).trans
      jump.grows)
    (jump.rounds.trans rounds₅) ((congrArg _ jump.marks).trans labels₅) fun s' closed => by
      have grows := ((grows₀.trans (grows₂.trans bodied.grows)).trans grows₃).trans adds.grows
      have within := (grows₃.trans adds.grows).naming
      have within' := ((bodied.grows.trans grows₃).trans adds.grows).naming
      refine (Lays.counting scope scope₀ loops₀ emits valid (liesAll_resolves _ _)
        bodied.lays scope₃ loops₃ adds (increment_valid (grows.within.target a target) literal)
        rounds₅ back closed).mono ?_
      rintro _ _ ⟨block, again, finish, rfl, next, last, lies⟩ start ts value at_
      exact .for_ (grows.naming.slot _ _ slot) value (codes.mono within') literal
        (lies.mono within) at_
        next last
  refine ⟨s', looped, ?_, result⟩
  rw [tokens]
  exact tokens₅ ▸ ahead

theorem forStatement_bodied (blocks : Blocks g budget m body) {x : String} {first : Expr}
    (var : g.isVariable x = true) (fits : first.fits g = true)
    (small : first.lexemes.length < budget) (fits' : limit.fits g = true)
    (small' : limit.lexemes.length < budget) (fitsAll : blockFits g true ss = true)
    (smallAll : (lineLexemes ss).length ≤ m) (inside : Inside g budget s)
    (ahead : Ahead (.name x :: .equal :: (first.lexemes ++ .keyword .to :: (limit.lexemes ++
      (step.lexemes ++ .leftBrace :: .lineBreak :: (lineLexemes ss ++ rest))))) s.tokens) :
    Compiles g budget (forStatement body) s rest (Lies · · · (.for_ x first limit step ss) ·) := by
  obtain ⟨tok, s₁, named, read, behind⟩ := expect_sees .symbol .expectedSymbol rfl ahead
  obtain rfl : tok.lexeme = x := read.2 (by simp [Lexeme.name])
  have reads₁ := (expect_reads named).1
  obtain ⟨a, s₂, resolved, names, slot⟩ := assignableAddress_names (inside.of_reads reads₁) var
  obtain ⟨opening, _, target, _⟩ := assignableAddress_ok resolved
  obtain ⟨_, s₃, equals, _, ahead⟩ := expect_sees .equal .expectedEquals rfl (names.tokens ▸ behind)
  have reads₃ := (expect_reads equals).1
  obtain ⟨s₄, f, assigned, ahead, inside₄, emits, valid, slot, codes⟩ := assign_codes
    (reads₃.emits.grows.naming.slot _ _ slot) (reads₃.emits.grows.within.target a target) fits small
    (names.inside.of_reads reads₃) ahead (stops_keyword _ _)
  obtain ⟨_, s₃', written, valued⟩ := of_bind_ok assigned
  obtain ⟨s₅, accepted, ahead⟩ := accept_sees (.keyword .to) rfl ahead
  have reads₅ := (accept_reads accepted).1
  obtain ⟨s', looped, ahead, bodied⟩ := forRounds_bodied blocks first
    (reads₅.emits.grows.naming.slot _ _ slot) (reads₅.emits.grows.within.target a valid.1) fits'
    small' fitsAll smallAll (inside₄.of_reads reads₅) ahead
  have whole : Bodied g budget s₃ s' (Lies · · · (.for_ tok.lexeme first limit step ss) ·) := by
    have grows := reads₅.emits.grows.trans bodied.grows
    refine ⟨bodied.inside, emits.grows.trans grows,
      (bodied.rounds.trans reads₅.emits.rounds).trans emits.rounds,
      (bodied.labels.trans (congrArg _ reads₅.emits.marks)).trans (congrArg _ emits.marks), ?_⟩
    intro base pending row traces
    have counted := traces.append_plain emits valid
    obtain ⟨new, labels, traced, binds, coded⟩ := (bodied.of_reads reads₅).lays counted
    rw [List.append_assoc, List.singleton_append] at traced
    refine ⟨_, labels, traced, binds.of_front (congrArg _ emits.marks), ?_⟩
    rw [exits_of_rounds emits.rounds] at coded
    exact coded _ _ (codes.mono grows.naming) emits.ip
  refine ⟨s', ?_, ahead, ((whole.of_reads reads₃).of_emits opening).of_reads reads₁⟩
  rw [forStatement, bind_ok _ named, bind_ok _ resolved, bind_ok _ (discard_ok equals),
    bind_ok _ written, bind_ok _ valued, bind_ok _ accepted]
  exact looped

theorem statement_keyword {k : Keyword} (kind : tok.kind = .keyword k) (n : Nat) :
    statement (n + 1) tok = keywordStatement k tok (block n (statement n)) := by
  rw [statement, kind]

theorem statement_symbol (kind : tok.kind = .symbol) (n : Nat) :
    statement (n + 1) tok = symbolStatement tok := by
  rw [statement, kind]

theorem statement_states (n : Nat) : n ≤ budget → States g budget n (statement n) := by
  induction n with
  | zero =>
    intro _ st inLoop s l ls more tok _ _ row short
    rw [row] at short
    simp at short
  | succ n ih =>
    intro le st inLoop s l ls more tok fits around row short read inside ahead follows
    have blocks : Blocks g budget n (block n (statement n)) :=
      block_blocks (ih (Nat.le_of_succ_le le)) (Nat.le_refl n)
    -- every statement starts with a token of its own, which is taken already
    cases st <;> rw [Stmt.lexemes] at row short <;> obtain ⟨rfl, rfl⟩ := List.cons.inj row <;>
      simp only [Stmt.fits, Bool.and_eq_true, beq_iff_eq] at fits <;>
      simp only [List.length_cons, List.length_append] at short
    case assign x value =>
      obtain rfl : tok.lexeme = x := read.2 (by simp [Lexeme.name])
      obtain ⟨s', ran, ahead, bodied⟩ := assignStatement_bodied fits.1 fits.2 (by omega)
        inside ahead
      exact ⟨s', by rw [statement_symbol read.1, ran], Or.inr ahead, bodied⟩
    case call f arguments =>
      obtain rfl : tok.lexeme = f := read.2 (by simp [Lexeme.name])
      obtain ⟨s', ran, ahead, bodied⟩ := callStatement_bodied fits.1 fits.2 (by omega) inside ahead
      exact ⟨s', by rw [statement_symbol read.1, ran], Or.inr ahead, bodied⟩
    case if_ test yes =>
      obtain ⟨s', ran, past, bodied⟩ := ifStatement_bodied blocks fits.1 (by omega) fits.2 around
        (by omega) inside (by simpa using ahead) follows
      exact ⟨s', by rw [statement_keyword read.1]; exact ran, past, bodied⟩
    case ifElse test yes no =>
      obtain ⟨s', ran, ahead, bodied⟩ := ifElseStatement_bodied blocks fits.1.1 (by omega) fits.1.2
        fits.2 around (by omega) (by omega) inside (by simpa using ahead)
      exact ⟨s', by rw [statement_keyword read.1]; exact ran, Or.inr ahead, bodied⟩
    case while_ test body =>
      obtain ⟨s', ran, ahead, bodied⟩ := whileStatement_bodied blocks fits.1 (by omega) fits.2
        (by omega) inside (by simpa using ahead)
      exact ⟨s', by rw [statement_keyword read.1]; exact ran, Or.inr ahead, bodied⟩
    case for_ counter first limit step body =>
      obtain ⟨s', ran, ahead, bodied⟩ := forStatement_bodied blocks fits.1.1.1 fits.1.1.2 (by omega)
        fits.1.2 (by omega) fits.2 (by omega) inside (by simpa using ahead)
      exact ⟨s', by rw [statement_keyword read.1]; exact ran, Or.inr ahead, bodied⟩
    case break_ =>
      obtain ⟨s', ran, tokens, bodied⟩ := loopJump_bodied tok true inside (around fits)
      exact ⟨s', by rw [statement_keyword read.1]; exact ran, Or.inr (tokens ▸ ahead), bodied⟩
    case continue_ =>
      obtain ⟨s', ran, tokens, bodied⟩ := loopJump_bodied tok false inside (around fits)
      exact ⟨s', by rw [statement_keyword read.1]; exact ran, Or.inr (tokens ▸ ahead), bodied⟩
    case return_ =>
      obtain ⟨s', ran, ahead, bodied⟩ := returnStatement_bodied inside ahead
      exact ⟨s', by rw [statement_keyword read.1]; exact ran, Or.inr ahead, bodied⟩
    case returnValue value =>
      obtain ⟨s', ran, ahead, bodied⟩ := returnValue_bodied fits (by omega) inside ahead
      exact ⟨s', by rw [statement_keyword read.1]; exact ran, Or.inr ahead, bodied⟩

end Scriptlet.Compile
