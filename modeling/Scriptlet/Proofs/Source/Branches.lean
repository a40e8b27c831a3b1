import Scriptlet.Proofs.Source.Tracing

/-!
Branches and loops, and with them every statement: each adds the code that the grammar says to the
row, for the tokens that it has read.
-/
namespace Scriptlet.Compile

open Actions Code Script Grammar

variable {s s' t : Session} {pool : Array Value} {body : Compile Unit} {x : Scope} {u : Unit}
  {tok : Token} {l : Loop} {id : LoopId} {rest : List Loop} {counter : Address} {ws : List UInt32}
  {k : Nat} {y : Scope}

theorem blocked_resolves (before after : Array Value) (ts us : List Token) :
    Resolves fun exits start row labels => Fills before after (rowLiterals row) ∧
      Blocked pool exits start ts us row labels := by
  rintro exits start row labels t address open_ nameless ⟨fills, ws, skip, code⟩
  exact ⟨rowLiterals_resolveRow t address row ▸ fills, ws, skip,
    code.resolve open_ nameless address⟩

theorem ifStatement_shapes (kind : tok.kind = .keyword .if_)
    (shapes : Shapes pool (Blocked pool) 0 [] body) :
    Shapes pool (Conveys pool) 0 [tok] (ifStatement body) := by
  intro s u s' ok ending
  have keyword : Mark (.keyword .if_) ([tok] ++ s.left) s.left := ⟨tok, kind, rfl⟩
  rw [ifStatement, jumping_bind] at ok
  obtain ⟨_, s₁, tested, ok⟩ := of_bind_ok ok
  obtain ⟨_, s₂, then_, ok⟩ := of_bind_ok ok
  obtain ⟨next, s₃, taken, ok⟩ := of_bind_ok ok
  obtain ⟨e, f, derives, value⟩ := expression_isExpression _ _ _ tested
  have test : Emits s s₁ (Opcode.jumpIfFalse.word :: 0 :: partsWords [f]) 1 :=
    (jumping_emits _ s).trans value.emits
  have fills : Fills s.literals s₁.literals (partsLiterals [f]) := value.fills
  have token := nextPastBreaks_reads taken
  have start : s₁.writer.ip = s.writer.ip + testSize f := test.ip
  split at ok
  · rename_i else_
    rw [jumping_bind, bind_ok _ (here_eq _), bind_ok _ (patchAddress_eq _ _ _)] at ok
    obtain ⟨_, s₅, other, ok⟩ := of_bind_ok ok
    rw [bind_ok _ (here_eq _), patchAddress_eq] at ok
    obtain ⟨_, rfl⟩ := EStateM.Result.ok.inj ok
    have jump := jumping_emits .jump s₃
    have ending₅ : Ending pool s₅ := ⟨ending.clean, ending.kept⟩
    have second := shapes _ _ _ other ending₅
    have ending₄ := ending₅.of_proceeds second.toProceeds
    have ending₃ : Ending pool s₃ := ⟨ending₄.clean, ending₄.kept⟩
    have ending₂ := ending₃.of_emits token.1.emits
    have first := shapes _ _ _ then_ ending₂
    have ending₁ := ending₂.of_proceeds first.toProceeds
    have breaks := nextPastBreaks_left taken (by simp [else_])
    have behind : Mark (.keyword .else_) (next :: s₃.left) s₃.left := ⟨next, else_, rfl⟩
    have opening := test.moves (c := 0) value.called value.load ending₁.clean
    have reading := token.1.moves (c := 0) (by omega) ending₃.clean
    have skipping : Moves 0 s₃ ((s₃.jumping .jump).patched (s.writer.ip + 1)
        (s₃.jumping .jump).writer.ip) :=
      (jump.moves (c := 0) (.of_eq rfl) (Nat.le_refl _) ending₃.clean).trans
        (patched_moves _ _ ending₃.clean)
    have moved := ((opening.trans first.toMoves).trans reading).trans skipping
    refine ⟨(moved.trans second.toMoves).trans (patched_moves _ _ ending₅.clean),
      fun terminated => ?_⟩
    have block := (first.traces (opening.terminated.trans terminated)).then_emits token.1.emits
    refine (Lays.ifElse test value.valid (blocked_resolves _ _ _ _) (blocked_resolves _ _ _ _) block
      (token.1.emits.rounds.trans first.rounds)
      (second.traces (moved.terminated.trans terminated))).mono ?_
    rintro _ _ ⟨row, row', labels, labels', middle, finish, rfl, rfl, at_, at_',
      ⟨fills₁, ws, skip, code⟩, fills₂, ws', skip', code'⟩
    refine ⟨?_, .ifElse keyword derives (value.renders.head.mono ending₁.kept) skip code
      breaks behind skip' code' at_ at_'⟩
    have fills₂ : Fills s₂.literals s₅.literals (rowLiterals row') := token.1.literals ▸ fills₂
    simp only [rowLiterals_cons, rowLiterals_append]
    exact fills.trans (fills₁.trans fills₂)
  · rename_i no
    obtain ⟨_, s₄, given, ok⟩ := of_bind_ok ok
    have back := token.1.trans (unget_reads given).1
    have spent : s₄.load ≤ s₂.load := by
      have := (unget_reads given).2
      omega
    obtain ⟨breaks, head⟩ := ungotten_left taken given
    rw [bind_ok _ (here_eq s₄), patchAddress_eq] at ok
    obtain ⟨_, rfl⟩ := EStateM.Result.ok.inj ok
    have ending₄ : Ending pool s₄ := ⟨ending.clean, ending.kept⟩
    have ending₂ := ending₄.of_emits back.emits
    have first := shapes _ _ _ then_ ending₂
    have ending₁ := ending₂.of_proceeds first.toProceeds
    have opening := test.moves (c := 0) value.called value.load ending₁.clean
    refine ⟨((opening.trans first.toMoves).trans (back.moves (c := 0) spent ending₄.clean)).trans
      (patched_moves _ _ ending₄.clean), fun terminated => ?_⟩
    have block := (first.traces (opening.terminated.trans terminated)).then_emits back.emits
    refine (Lays.if_ test value.valid (blocked_resolves _ _ _ _) block).mono ?_
    rintro _ labels ⟨row, finish, rfl, at_, fills₁, ws, skip, code⟩
    refine ⟨?_, .if_ keyword derives (value.renders.head.mono ending₁.kept) skip code breaks ?_ at_⟩
    · rw [rowLiterals_cons]
      exact back.literals ▸ fills.trans fills₁
    · intro first member
      rw [head first member]
      exact no

theorem testing_proceeds (scope : s.scope = some x) (emits : Emits (s.testing x l rest) s' ws k)
    (called : Called (s.testing x l rest) s') (load : s'.load ≤ (s.testing x l rest).load)
    (clean : s'.errors = #[]) : Proceeds 0 s s' := by
  have moves := emits.moves (c := 0) called load clean
  exact (remarked_proceeds scope _ _ _ moves.clean).trans moves.toProceeds

theorem closeLoop_same (closed : closeLoop id t = .ok u s') :
    s'.errors = t.errors ∧ s'.literals = t.literals ∧ s'.left = t.left := by
  obtain ⟨y, l, rest, scope, loops, rfl⟩ := closeLoop_ok closed
  exact ⟨rfl, rfl, rfl⟩

theorem inLoop_moves {r : Nat × Nat} (scope : s.scope = some x)
    (inside : Proceeds 0 (s.looping x) t) (rounds : t.rounds = r :: s.rounds)
    (closed : closeLoop id t = .ok u s') (clean : s'.errors = #[]) :
    Moves 0 s s' := by
  obtain ⟨y, l, rest, scope', loops, rfl⟩ := closeLoop_ok closed
  rw [rounds_of_scope scope', loops, List.map_cons] at rounds
  have opening := remarked_proceeds scope x.labels (⟨s.writer.ip, s.writer.ip, [], []⟩ :: x.loops)
    s.writer inside.clean
  exact ⟨(opening.trans inside).trans (remarked_proceeds scope' _ _ _ clean),
    (List.cons.inj rounds).2⟩

theorem whileStatement_shapes (kind : tok.kind = .keyword .while_)
    (shapes : Shapes pool (Blocked pool) 0 [] body) :
    Shapes pool (Conveys pool) 0 [tok] (whileStatement body) := by
  intro s u s' ok ending
  have keyword : Mark (.keyword .while_) ([tok] ++ s.left) s.left := ⟨tok, kind, rfl⟩
  obtain ⟨x, t, scope, ran, closed⟩ := inLoop_ok ok
  obtain ⟨errors, literals, left⟩ := closeLoop_same closed
  obtain ⟨_, s₁, opened, inside⟩ := of_bind_ok ran
  obtain ⟨y, l, rest, scope₀, loops₀, rfl⟩ := emitLoopTest_ok opened
  obtain ⟨_, s₂, tested, rounds⟩ := of_bind_ok inside
  obtain ⟨_, s₃, looped, back⟩ := of_bind_ok rounds
  obtain ⟨e, f, derives, test⟩ := expression_isExpression _ _ _ tested
  have derives : Derives .choice s.left s₂.left e := derives
  have emits : Emits ((s.looping x).testing y l rest) s₂ (partsWords [f]) 0 := test.emits
  obtain ⟨jump, spent⟩ := emitWith_emits back
  have ending₄ : Ending pool t := ⟨errors ▸ ending.clean, literals ▸ ending.kept⟩
  have ending₃ := ending₄.of_emits jump
  have inner := shapes _ _ _ looped ending₃
  have ending₂ := ending₃.of_proceeds inner.toProceeds
  have rounds₃ := inner.rounds.trans (tested_rounds scope scope₀ loops₀ emits)
  have testing := testing_proceeds scope₀ emits test.called test.load ending₂.clean
  have jumping : Moves 0 s₃ t :=
    jump.moves (.of_eq (emitWith_functions back)) (Nat.le_of_eq spent) ending₄.clean
  refine ⟨inLoop_moves scope ((testing.trans inner.toProceeds).trans jumping.toProceeds)
    (jump.rounds.trans rounds₃) closed ending.clean, fun terminated => ?_⟩
  refine (Lays.loop scope scope₀ loops₀ emits test.valid (blocked_resolves _ _ _ _)
    (inner.traces (testing.terminated.trans terminated)) rounds₃ back closed).mono ?_
  rintro _ labels ⟨block, finish, rfl, at_, fills, ws, skip, code⟩
  have behind : s'.left = s₃.left := left.trans ((still_emitWith _ _).left back)
  rw [behind, literals]
  refine ⟨?_, .while_ keyword derives (test.renders.head.mono ending₂.kept) skip code at_⟩
  have pool_ : t.literals = s₃.literals := by
    cases back
    rfl
  have tests : Fills s.literals s₂.literals (partsLiterals [f]) := test.fills
  simpa [pool_, rowLiterals, Statement.parts, partsLiterals] using tests.trans fills

/-- The code of a loop that counts, behind the counter's first value. -/
def RoundsOf (pool : Array Value) (counter : Address) :
    Shape := fun exits round ys vs' row labels =>
  ∀ {start : Nat} {first : List Term} {e : Phrase} {ts us vs ws xs : List Token},
    Mark (.keyword .for_) ts us → Mark .symbol us vs → Mark .equal vs ws → Derives .choice ws xs e →
    Renders pool e first → Mark (.keyword .to) xs ys →
    round = start + (Statement.plain (.assign counter first)).size →
    Conveys pool exits start ts vs' (.plain (.assign counter first) :: row) labels

theorem increment_left {place : UInt32} (ok : counted (do
      emitVariable counter
      emitWith .literal place
      discard (emit (.binary (.arithmetic .add)))) s = .ok u s') : s'.left = s.left := by
  obtain ⟨t, ran, rfl⟩ := counted_ok ok
  obtain ⟨_, r, loaded, ran⟩ := of_bind_ok ran
  obtain ⟨_, r', placed, ran⟩ := of_bind_ok ran
  have left := (still_emitWith _ _).left placed
  rw [(still_emitWith _ _).left loaded] at left
  cases ran
  exact left

theorem roundEnd_shaped {r : Session} {limit : List Term} {op : Relation} {step : Value}
    {e e' : Phrase} {zs : List Token} (shapes : Shapes pool (Blocked pool) 0 [] body)
    (scope : s.scope = some x) (scope₀ : (s.looping x).scope = some y)
    (loops₀ : y.loops = l :: rest) (target : s.references.target counter)
    (atom : step.isList = false)
    (emits : Emits ((s.looping x).testing y l rest) r (partsWords [limitTest counter limit op]) 0)
    (called : Called s r) (load : r.load ≤ ((s.looping x).testing y l rest).load)
    (valid : partsValid r.references [limitTest counter limit op])
    (fills : Fills s.literals r.literals (termsLiterals limit))
    (derives : Derives .choice s.left zs e) (renders : Renders r.literals e limit)
    (stepped : ExpressesStep zs r.left e') (size : e'.value? = some step)
    (ok : roundEnd counter body s.writer.ip step r = .ok u t) (closed : closeLoop id t = .ok u s')
    (ending : Ending pool s') : Shaped (RoundsOf pool counter) 0 s.left s s' := by
  obtain ⟨errors, literals, left⟩ := closeLoop_same closed
  obtain ⟨_, r₁, looped, ok⟩ := of_bind_ok ok
  rw [bind_ok _ (here_eq r₁)] at ok
  obtain ⟨_, r₂, marked, ok⟩ := of_bind_ok ok
  obtain ⟨place, r₃, interned, ok⟩ := of_bind_ok ok
  obtain ⟨_, r₄, written, ok⟩ := of_bind_ok ok
  obtain ⟨_, r₅, added, back⟩ := of_bind_ok ok
  obtain ⟨i, w, found, stands, adds, functions, spent, stepping⟩ :=
    increment_emits atom interned written added
  obtain ⟨jump, spent'⟩ := emitWith_emits back
  -- The end is clean, and so is every session before it: the steps are taken back one by one.
  have ending₆ : Ending pool t := ⟨errors ▸ ending.clean, literals ▸ ending.kept⟩
  have ending₅ := ending₆.of_emits jump
  have ending₂ := ending₅.of_emits adds
  have ending₁ : Ending pool r₁ := by
    obtain ⟨_, rfl⟩ := EStateM.Result.ok.inj marked
    exact ⟨ending₂.clean, ending₂.kept⟩
  have inner := shapes _ _ _ looped ending₁
  have ending₀ := ending₁.of_proceeds inner.toProceeds
  -- The body has left the loop innermost, and its increment begins where the body ends.
  obtain ⟨z, l', outer, scope₁, loops₁, same, around⟩ := innermost_round
    (inner.rounds.trans (tested_rounds scope scope₀ loops₀ emits))
  obtain ⟨_, rfl⟩ := EStateM.Result.ok.inj ((resume_eq scope₁ loops₁).symm.trans marked)
  have rounds₂ : (r₁.resumed z l' outer).rounds = (s.writer.ip, r₁.writer.ip) :: s.rounds := by
    obtain ⟨begun, _⟩ := Prod.mk.inj same
    rw [← begun, ← around]
    rfl
  have rounds₅ := adds.rounds.trans rounds₂
  have testing := testing_proceeds scope₀ emits called load ending₀.clean
  have adding := adds.moves (c := 0) (.of_eq functions) spent ending₅.clean
  have jumping : Moves 0 r₅ t :=
    jump.moves (.of_eq (emitWith_functions back)) (Nat.le_of_eq spent') ending₆.clean
  have before := ((testing.trans inner.toProceeds).trans
    (remarked_proceeds scope₁ _ _ _ ending₁.clean)).trans adding.toProceeds
  have grows : Grows s r₅ := (remarked_grows scope _ _ _).trans before.grows
  refine ⟨inLoop_moves scope (before.trans jumping.toProceeds) (jump.rounds.trans rounds₅) closed
    ending.clean, fun terminated => ?_⟩
  refine (Lays.counting scope scope₀ loops₀ emits valid (blocked_resolves _ _ _ _)
    (inner.traces (testing.terminated.trans terminated)) scope₁ loops₁ adds
    (increment_valid (grows.within.target counter target) found) rounds₅ back closed).mono ?_
  rintro _ labels ⟨block, again, finish, rfl, next, last, fills₁, ws, skip, code⟩
  have behind : s'.left = r₁.left := by
    rw [left, (still_emitWith _ _).left back, increment_left added,
      (still_emitWith _ _).left written, (still_intern _).left interned]
    rfl
  rw [behind, literals]
  refine ⟨?_, ?_⟩
  · have pool_ : t.literals = r₅.literals := by
      cases back
      rfl
    rw [← limitTest_literals counter limit op] at fills
    have stepping : Fills r₁.literals r₅.literals (partsLiterals (increment counter i).parts) :=
      stepping
    simpa [pool_, rowLiterals, Statement.parts, partsLiterals] using (fills.trans fills₁).trans
      stepping
  intro begin first e'' ts us vs ws' xs keyword name equal value renders' until_ at_
  have counted : Renders pool e' [.literal i] :=
    .constant size (ending₅.kept i w found) (stands.agrees atom)
  exact .for_ keyword name equal value renders' until_ derives (renders.mono ending₀.kept) stepped
    counted skip code at_ next last

theorem forRounds_shaped (shapes : Shapes pool (Blocked pool) 0 [] body)
    (target : s.references.target counter) (ok : inLoop (forRounds counter body) s = .ok u s')
    (ending : Ending pool s') : Shaped (RoundsOf pool counter) 0 s.left s s' := by
  obtain ⟨x, t, scope, ok, closed⟩ := inLoop_ok ok
  obtain ⟨_, s₁, opened, ok⟩ := of_bind_ok ok
  obtain ⟨y, l, rest, scope₀, loops₀, rfl⟩ := emitLoopTest_ok opened
  obtain ⟨test, s₂, limited, ok⟩ := of_bind_ok ok
  obtain ⟨step, s₃, stepped, inside⟩ := of_bind_ok ok
  obtain ⟨e, limit, derives, renders, emits, called, pushes, valid, fills, load, last⟩ :=
    limit_ok limited
  obtain ⟨reads, spent, atom, e', size, known⟩ := stepValue_ok stepped
  have renders : Renders s₃.literals e limit :=
    renders.mono fun _ _ => reads.emits.grows.literal_of
  have emits := emits.then_reads reads
  have called : Called s s₃ := called.trans reads.called reads.emits.grows
  have fills : Fills s.literals s₃.literals (termsLiterals limit) := reads.literals ▸ fills
  have grows := ((remarked_grows scope _ _ _).trans (remarked_grows scope₀ _ _ _)).trans emits.grows
  have valid : ∀ op, partsValid s₃.references [limitTest counter limit op] := fun op =>
    limit_valid op (grows.within.target counter target) pushes
      (termsValid_mono reads.emits.grows.within _ valid)
  dsimp only at inside
  split at inside
  · have last : test + 1 = s₃.writer.ip := by
      obtain ⟨_, _, rfl⟩ := reads
      exact last
    exact roundEnd_shaped shapes scope scope₀ loops₀ target atom (limit_patched emits last) called
      (Nat.le_trans spent load) (valid .greaterOrEqual) fills derives renders size known
      inside closed ending
  · exact roundEnd_shaped shapes scope scope₀ loops₀ target atom emits called
      (Nat.le_trans spent load) (valid .lessOrEqual) fills derives renders size known inside closed
      ending

theorem forStatement_shapes (kind : tok.kind = .keyword .for_)
    (shapes : Shapes pool (Blocked pool) 0 [] body) :
    Shapes pool (Conveys pool) 0 [tok] (forStatement body) := by
  intro s u s' ok ending
  have keyword : Mark (.keyword .for_) ([tok] ++ s.left) s.left := ⟨tok, kind, rfl⟩
  obtain ⟨name, s₁, named, ok⟩ := of_bind_ok ok
  obtain ⟨counter, s₂, found, ok⟩ := of_bind_ok ok
  obtain ⟨_, s₃, equals, ok⟩ := of_bind_ok ok
  obtain ⟨_, equals⟩ := of_discard_ok equals
  obtain ⟨_, s₄, written, ok⟩ := of_bind_ok ok
  obtain ⟨_, s₅, valued, ok⟩ := of_bind_ok ok
  obtain ⟨limited, s₆, accepted, ok⟩ := of_bind_ok ok
  split at ok
  · rename_i yes
    obtain ⟨opening, functions, target, load⟩ := assignableAddress_ok found
    obtain ⟨reading, symbol_, paid⟩ := expect_reads named
    have cost := cost_of_kind symbol_ (by decide)
    obtain ⟨between, _, spent⟩ := expect_reads equals
    obtain ⟨e, first, value, stated⟩ := assign_stated written valued
      (between.emits.grows.within.target counter target)
    have toward := accept_reads accepted
    have symbol := expect_mark named (by decide)
    have equal := expect_mark equals (by decide)
    rw [(still_assignableAddress _).left found] at equal
    have until_ := (accept_left accepted (by decide)).1 yes
    have whole := stated.emits.trans toward.1.emits
    have target₆ := (between.emits.grows.trans whole.grows).within.target counter target
    have looped : Shaped (RoundsOf pool counter) 0 s₆.left s₆ s' := forRounds_shaped shapes target₆
      ok ending
    have ending₆ := ending.of_proceeds looped.toProceeds
    have ending₅ := ending₆.of_emits toward.1.emits
    have counting := (stated.emits.moves (c := 0) stated.called stated.load ending₅.clean).trans
      (toward.1.moves (c := 0) toward.2 ending₆.clean)
    -- The assignment in front belongs to the statement, and the rounds begin behind it.
    have rounds : Shaped (Conveys pool) 0 ([tok] ++ s.left) s₃ s' := by
      refine ⟨counting.trans looped.toMoves, fun terminated {base pending row} traces => ?_⟩
      have counted := traces.append_plain stated.emits stated.valid
      obtain ⟨new, labels, traced, binds, fills, code⟩ :=
        looped.traces (counting.terminated.trans terminated) (counted.of_emits toward.1.emits)
      rw [List.append_assoc, List.singleton_append] at traced
      rw [exits_of_rounds whole.rounds] at code
      refine ⟨_, labels, traced, binds.of_front (congrArg _ whole.marks), ?_, ?_⟩
      · rw [toward.1.literals] at fills
        exact stated.fills.trans fills
      · exact code keyword symbol equal value (stated.renders.head.mono ending₅.kept) until_
          (toward.1.emits.ip.trans stated.emits.ip)
    obtain ⟨_, rfl⟩ := assignableAddress_scope found
    have named_ := Shaped.of_emits (c := 1) opening (.of_eq functions) rfl load
      (rounds.of_reads between (by omega))
    exact .after_token reading paid (cost ▸ named_)
  · obtain ⟨_, _, _, ok⟩ := of_bind_ok ok
    cases ok

theorem keywordStatement_shapes {k : Keyword} (kind : tok.kind = .keyword k)
    (shapes : Shapes pool (Blocked pool) 0 [] body) :
    Shapes pool (Conveys pool) 0 [tok] (keywordStatement k tok body) := by
  intro s u s' ok ending
  have keyword : Mark (.keyword k) ([tok] ++ s.left) s.left := ⟨tok, kind, rfl⟩
  cases k with
  | var =>
    rw [keywordStatement, get_bind] at ok
    obtain ⟨es, declared, told⟩ := varStatement_tells _ ok ending.clean
    exact told.shaped (.declaration keyword declared) ending
  | goto => exact gotoStatement_shapes kind s u s' ok ending
  | return_ =>
    obtain ⟨es, phrase, told⟩ := returnStatement_tells kind ok
    exact told.shaped phrase ending
  | if_ => exact ifStatement_shapes kind shapes s u s' ok ending
  | while_ => exact whileStatement_shapes kind shapes s u s' ok ending
  | for_ => exact forStatement_shapes kind shapes s u s' ok ending
  | break_ => exact loopJump_shaped ok ending fun _ _ _ => .break_ keyword
  | continue_ => exact loopJump_shaped ok ending fun _ _ _ => .continue_ keyword
  | _ => cases ok

theorem statement_solid (n : Nat) (tok : Token) (s : Session) (u : Unit) (s' : Session)
    (ok : statement n tok s = .ok u s') : tok.kind ≠ .endOfFile := by
  intro kind
  cases n with
  | zero => cases ok
  | succ n =>
    rw [statement, kind] at ok
    cases ok

theorem statement_shapes (n : Nat) (tok : Token) :
    Shapes pool (Conveys pool) tok.cost [tok] (statement n tok) := by
  induction n generalizing tok with
  | zero =>
    intro s u s' ok
    cases ok
  | succ n ih =>
    intro s u s' ok ending
    rw [statement] at ok
    generalize kind : tok.kind = found at ok
    cases found with
    | keyword k =>
      exact (keywordStatement_shapes kind (block_shapes ih (statement_solid n) n)
        s u s' ok ending).mono (Nat.zero_le _) id
    | symbol => exact cost_of_kind kind (by decide) ▸ symbolStatement_shapes kind s u s' ok ending
    | leftBrace =>
      exact (blockBody_shapes ih n s u s' ok ending).mono (Nat.zero_le _)
        fun code => .block ⟨tok, kind, rfl⟩ code
    | _ => cases ok

theorem functionBody_shapes : Shapes pool (fun exits start ts us row labels =>
    ∃ xs ys, Breaks ts xs ∧ Mark .leftBrace xs ys ∧ ConveysAll pool exits start ys us row labels)
    0 [] functionBody := by
  intro s u s' ok ending
  obtain ⟨tok, t, taken, ok⟩ := of_bind_ok ok
  have token := nextPastBreaks_reads taken
  split at ok
  · rename_i brace
    rw [get_bind] at ok
    have body := blockBody_shapes (statement_shapes _) _ _ _ _ ok ending
    refine (body.mono (Nat.le_refl 0) fun code => ?_).of_reads token.1 (by omega)
    exact ⟨_, _, nextPastBreaks_left taken (by simp [brace]), ⟨tok, brace, rfl⟩, code⟩
  · obtain ⟨_, _, _, ok⟩ := of_bind_ok ok
    cases ok

end Scriptlet.Compile
