import Scriptlet.Proofs.Rules.Statements

/-!
Loops keep a session orderly, and with them all statements. A loop is closed behind its body also if
the body fails or compiling is given up; the operands that waited for its end are filled in.

The recursion of blocks and statements is bounded by what is ahead, as that of expressions is.
-/
namespace Scriptlet.Compile

open Actions Source

variable {b : Terms} {n : Nat} {stops : Stop → Session → Prop} {fails : Diagnostic → Prop}
  {s t u : Session} {x y : Compile Unit} {counter : Address} {start : Nat}

theorem fill_kept {addresses : List Nat} (w : UInt32) :
    ∀ {s : Session}, (∀ a ∈ addresses, s.kinds[a]? = some false) →
      ({ s with writer := fill w addresses s.writer } : Session).kinds = s.kinds ∧
      (fill w addresses s.writer).outer = s.writer.outer ∧
      (fill w addresses s.writer).missed = s.writer.missed := by
  induction addresses with
  | nil => exact fun _ => ⟨rfl, rfl, rfl⟩
  | cons a addresses ih =>
    intro s there
    have same : ({ s with writer := s.writer.patch a w } : Session).kinds = s.kinds :=
      replace_kinds false a w s
    have missed : (s.writer.patch a w).missed = s.writer.missed := by
      simp [CodeWriter.patch, CodeWriter.replace, has_of_kind (there a (by simp))]
    obtain ⟨kinds, outer, rest⟩ := ih (s := { s with writer := s.writer.patch a w }) (by
      rw [same]
      exact fun a member => there a (by simp [member]))
    exact ⟨kinds.trans same, outer, rest.trans missed⟩

theorem Ranked.fill {source : String} {line : Nat} {tokens : TokenStream} (w : UInt32)
    (addresses : List Nat) :
    ∀ {writer : CodeWriter}, Ranked source line writer tokens →
      Ranked source line (fill w addresses writer) tokens := by
  induction addresses with
  | nil => exact id
  | cons a addresses ih => exact fun ranked => ih ranked.replace

theorem looping_orderly {x : Scope} (scope : s.scope = some x) (orderly : Orderly b s) :
    Orderly b (s.looping x) := by
  have pending : ∀ a ∈ (s.looping x).pending, (s.looping x).kinds[a]? = some false := by
    intro a waits
    apply orderly.waits scope
    simpa [Session.looping, Session.remarked, Session.pending, Scope.pending] using waits
  have known : ∀ y ∈ (s.looping x).scope, y.Lined b.source := by
    rintro _ ⟨⟩
    exact orderly.lined.scope x scope
  exact { orderly with pending, lined := { orderly.lined with scope := known } }

theorem looping_inLoop (s : Session) (x : Scope) : (s.looping x).InLoop := ⟨x.loops.length, rfl⟩

theorem closeLoop_closes {x : Scope} (scope : s.scope = some x) (onward : Onward (s.looping x) t)
    (coherent : Coherent b t) : ∃ scope writer,
      closeLoop ⟨x.loops.length⟩ t = .ok () { t with scope, writer } ∧
      closeLoop ⟨x.loops.length⟩ (t.granted b) =
      .ok () (({ t with scope, writer } : Session).granted b) ∧
      Onward s { t with scope, writer } ∧ Coherent b { t with scope, writer } := by
  have looping := onward.inLoop (looping_inLoop s x)
  obtain ⟨y, inner⟩ := Option.isSome_iff_exists.mp looping.inBody
  obtain ⟨l, rest, loops⟩ := looping.loops inner
  have waits : ∀ a, a ∈ l.breaks ∨ a ∈ l.continues → t.kinds[a]? = some false := by
    intro a held
    exact coherent.waits inner (Scope.mem_pending.mpr (Or.inr ⟨l, by simp [loops], held⟩))
  -- the jumps out of the loop first, then those to its next round
  obtain ⟨kinds₁, outer₁, missed₁⟩ := fill_kept (.ofNat t.writer.ip) (s := t)
    fun a held => waits a (Or.inl held)
  obtain ⟨kinds₂, outer₂, missed₂⟩ := fill_kept (.ofNat l.resume)
    (s := { t with writer := fill (.ofNat t.writer.ip) l.breaks t.writer })
    fun a held => by rw [kinds₁]; exact waits a (Or.inr held)
  have depth : rest.length = x.loops.length := by
    have same := onward.depth
    simp only [Session.depth, inner, Option.map_some, loops, List.length_cons] at same
    exact Nat.succ.inj (Option.some.inj same)
  rw [← depth]
  refine ⟨_, _, closeLoop_eq inner loops, closeLoop_eq (s := t.granted b) inner loops, ?_, ?_⟩
  · refine { onward with
      kinds := ?_, outer := outer₂.trans (outer₁.trans onward.outer), depth := ?_ }
    · exact onward.kinds.trans (by rw [← kinds₁, ← kinds₂]; exact List.prefix_rfl)
    · simp [Session.depth, scope, depth]
  · have known : ∀ z ∈ some { y with loops := rest }, z.Lined b.source := by
      rintro _ ⟨⟩
      exact coherent.lined.scope y inner
    refine ⟨coherent.tokens, missed₂.trans (missed₁.trans coherent.missed), ?_,
      { coherent.lined with
        scope := known
        code := coherent.lined.code.imp fun _ ranked => (ranked.fill _ _).fill _ _ }⟩
    intro a held
    have old : a ∈ y.pending := by
      rcases Scope.mem_pending.mp held with label | ⟨l', member, waits⟩
      · exact Scope.mem_pending.mpr (Or.inl label)
      · exact Scope.mem_pending.mpr
          (Or.inr ⟨l', by rw [loops]; exact List.mem_cons_of_mem l member, waits⟩)
    have there := coherent.waits inner old
    rw [← kinds₁, ← kinds₂] at there
    exact there

theorem inLoop_keeps {x y : Nat → Compile Unit}
    (runs : ∀ start, Keeps b .loop n (x start) (y start)) :
    Keeps b .body n (inLoop x) (inLoop y) := by
  intro s orderly inside few
  obtain ⟨scope, inner⟩ := Option.isSome_iff_exists.mp inside
  have body := runs s.writer.ip (s.looping scope) (looping_orderly inner orderly)
    (looping_inLoop s scope) few
  rw [inLoop_looping inner, inLoop_looping (s := s.granted b) inner]
  apply Concludes.attempt (t := s.looping scope) body
  · intro _ t onward calm _
    obtain ⟨scope, writer, closed, closed', further, coherent⟩ :=
      closeLoop_closes inner onward calm.toCoherent
    rw [bind_ok _ closed, bind_ok _ closed']
    exact .ok further { coherent, calm with } trivial
  · intro stop t onward calm halts
    obtain ⟨scope, writer, closed, closed', further, coherent⟩ := closeLoop_closes inner onward calm
    rw [bind_ok _ closed, bind_ok _ closed']
    cases halts with
    | error calm known ordinary =>
      exact .error further coherent (.error { coherent, calm with } known ordinary)
    | abort exceeded => exact .error further coherent (.abort { exceeded with })

theorem Keeps.loop (keeps : Keeps b .body n x y) : Keeps b .loop n x y :=
  fun s orderly looping few => keeps s orderly looping.inBody few

theorem whileStatement_keeps (body : Keeps b .body n x y) :
    Keeps b .body n (whileStatement x) (whileStatement y) :=
  inLoop_keeps fun _ => emitLoopTest_keeps.andThen fun _ => expression_keeps.loop.andThen fun _ =>
    body.loop.andThen fun _ => emitWith_keeps _ _

theorem stepValue_keeps : Keeps b .loop n stepValue stepValue := by
  refine (accept_keeps (by decide)).andThen fun _ =>
    .ite ((accept_keeps (by decide)).andThen fun _ => ?_) .pure
  intro s orderly _ _
  apply (nextToken_concludes orderly).bind
  intro tok t onward calm took
  apply Concludes.ite
  · intro _
    apply Concludes.rebase onward
    apply Concludes.ite
    · intro _
      exact .fail calm took.known ⟨rfl, rfl⟩
    · intro _
      exact .pure calm trivial
  · intro _
    exact refuse_concludes rfl orderly calm took

theorem limit_concludes (counter : Address) (orderly : Orderly b s) (inside : s.InBody) :
    Finishes b (Halts b Diagnostic.Ordinary) (fun test t => t.kinds[test]? = some true) s
      (counted do
        emitVariable counter
        let _ ← openFormula
        emit (.binary (.relation .lessOrEqual))) := by
  have opened : Finishes b (Halts b Diagnostic.Ordinary)
      (fun test t => t.kinds[test]? = some true) s.opened
      (do emitVariable counter; let _ ← openFormula; emit (.binary (.relation .lessOrEqual))) := by
    apply (emitWith_concludes .load _ orderly.opened).andThen
    intro _ t₁ onward₁ calm₁ _
    have inside : s.opened.InBody := inside
    apply (openFormula_concludes calm₁ (onward₁.inBody inside)).andThen
    intro _ t₂ _ calm₂ _
    exact (emit_concludes _ calm₂).weaken fun _ _ _ given => given.2
  apply counted_concludes opened
  intro test t u there adds
  rw [adds.kinds, List.append_nil]
  exact there

theorem resume_keeps (resume : Nat) :
    Keeps b .body n (modifyScope (·.modifyLoop fun l => { l with resume }))
      (modifyScope (·.modifyLoop fun l => { l with resume })) := by
  intro s orderly _ _
  have pending : ∀ x, s.scope = some x →
      ∀ a ∈ (x.modifyLoop fun l => { l with resume }).pending, s.kinds[a]? = some false := by
    intro x scope a waits
    apply orderly.waits scope
    apply (Scope.modifyLoop_pending (fun _ => False) ?_ waits).resolve_right id
    exact fun _ held => Or.inl held
  exact (modifyScope_concludes (f := (·.modifyLoop fun l => { l with resume })) orderly
    (fun x => x.modifyLoop_length _) (·.modifyLoop _) pending).weaken fun _ _ _ _ => trivial

theorem roundEnd_keeps {step : Value} (body : Keeps b .body n x y) :
    Keeps b .body n (roundEnd counter x start step) (roundEnd counter y start step) :=
  body.andThen fun _ => here_keeps.andThen fun _ => (resume_keeps _).andThen fun _ =>
    (Keeps.of_quiet (fun calm _ => intern_concludes step calm) (·.pending)).andThen fun _ =>
      (emitWith_keeps _ _).andThen fun _ => (counted_keeps ((emitWith_keeps _ _).andThen fun _ =>
        (emitWith_keeps _ _).andThen fun _ => (emit_keeps _).discard)).andThen fun _ =>
      emitWith_keeps _ _

theorem forRounds_keeps (body : Keeps b .body n x y) :
    Keeps b .loop n (forRounds counter x start) (forRounds counter y start) := by
  refine emitLoopTest_keeps.andThen fun _ s₁ calm₁ looping few => ?_
  apply (limit_concludes counter calm₁ looping.inBody).andThen
  intro test t₂ onward₂ calm₂ there
  have few₂ := Nat.lt_of_le_of_lt onward₂.ahead few
  have looping₂ := onward₂.inLoop looping
  apply (stepValue_keeps t₂ calm₂ looping₂ few₂).andThen
  intro step t₃ onward₃ calm₃ _
  have few₃ := Nat.lt_of_le_of_lt onward₃.ahead few₂
  have inside₃ := (onward₃.inLoop looping₂).inBody
  apply Concludes.ite
  · intro _
    apply (patchOpcode_concludes _ calm₃ (onward₃.kind there)).andThen
    intro _ t₄ onward₄ calm₄ _
    exact roundEnd_keeps body t₄ calm₄ (onward₄.inBody inside₃)
      (Nat.lt_of_le_of_lt onward₄.ahead few₃)
  · intro _
    exact roundEnd_keeps body t₃ calm₃ inside₃ few₃

theorem forStatement_keeps (body : Keeps b .body n x y) :
    Keeps b .body n (forStatement x) (forStatement y) := by
  refine expect_then rfl fun name known => (assignableAddress_keeps known).andThen fun _ =>
    (expect_keeps rfl).andThen fun _ => (emitWith_keeps _ _).andThen fun _ =>
      expression_keeps.andThen fun _ =>
      (accept_keeps (by decide)).andThen fun _ =>
        .ite (inLoop_keeps fun _ => forRounds_keeps body) ?_
  intro s orderly _ _
  apply (nextToken_concludes orderly).bind
  intro tok t _ calm took
  exact refuse_concludes rfl orderly calm took

theorem keywordStatement_keeps {k : Keyword} {tok : Token} (known : Known b.source tok.line)
    (body : Keeps b .body n x y) :
    Keeps b .body n (keywordStatement k tok x) (keywordStatement k tok y) := by
  cases k with
  | var => exact .get fun _ orderly _ =>
      varStatement_keeps (Nat.le_of_lt orderly.room) (Nat.le_of_lt orderly.enough)
  | goto => exact gotoStatement_keeps
  | return_ => exact returnStatement_keeps
  | if_ => exact ifStatement_keeps body
  | while_ => exact whileStatement_keeps body
  | for_ => exact forStatement_keeps body
  | break_ | continue_ => exact loopJump_keeps known
  | _ => exact fun _ orderly _ _ => .fail orderly known ⟨rfl, rfl⟩

theorem statement_meets : ∀ {n k k' : Nat}, n ≤ k → n ≤ k' →
    StatementsMeet b n (statement k) (statement k') := by
  intro n
  induction n with
  | zero => exact fun _ _ _ _ _ _ _ none_ => absurd none_ (Nat.not_lt_zero _)
  | succ n ih =>
    intro k k' bound bound' tok s known orderly inside few
    obtain _ | k := k
    · omega
    obtain _ | k' := k'
    · omega
    have inner : StatementsMeet b n (statement k) (statement k') := ih (by omega) (by omega)
    unfold statement
    generalize same : tok.kind = kind
    split
    · rw [cost_of_kind same (by simp)] at few
      exact keywordStatement_keeps known (block_keeps inner (by omega) (by omega)) s orderly inside
        (Nat.lt_of_succ_lt_succ few)
    · exact symbolStatement_keeps known s orderly inside (Nat.lt_succ_self _)
    · rw [cost_of_kind same (by simp)] at few
      exact (blockBody_concludes inner orderly inside (by omega) (by omega) (by omega)).loosen
        fun _ _ halts => halts.loosen fun _ unclosed => unclosed.1
    · exact .fail orderly known ⟨rfl, rfl⟩

end Scriptlet.Compile
