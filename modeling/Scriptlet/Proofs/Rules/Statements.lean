import Scriptlet.Proofs.Compile.Loops
import Scriptlet.Proofs.Rules.Expressions

/-!
Statements keep a session orderly. An operand that waits for a label or for the end of a loop is an
operand when it is written, and the words in front of it never change their kind, so it still is one
when its target comes. A loop is closed behind its body in every case, so that as many loops are
open after a statement as before it.
-/
namespace Scriptlet.Compile

open Actions Source

variable {α β : Type} {b : Terms} {n k k' : Nat} {stops : Stop → Session → Prop}
  {fails : Diagnostic → Prop} {s t u : Session} {x : Scope} {a operand : Nat} {name : String}
  {tok : Token} {leave : Bool}

def Regime.body : Regime := .free Session.InBody Onward.inBody

theorem Keeps.body {x y : Compile α} (keeps : Keeps b .formula n x y) : Keeps b .body n x y :=
  fun s orderly inside few => (keeps s orderly inside few).weaken fun _ _ _ _ => trivial

theorem expression_keeps : Keeps b .body n expression expression :=
  fun s orderly inside few => (expression_takes s orderly inside few).weaken fun _ _ _ _ => trivial

section

variable {r : Regime} {f g : α → Compile β} {x y : Compile α}

def Regime.behind (r : Regime) (a : Nat) : Regime :=
  { r with
    place := fun s => r.place s ∧ s.kinds[a]? = some false
    stays := fun onward there => ⟨r.stays onward there.1, onward.kind there.2⟩ }

theorem Keeps.behind (keeps : Keeps b r n x y) : Keeps b (r.behind a) n x y :=
  fun s orderly there => keeps s orderly there.1

theorem operand_then {f g : Nat → Compile β} (rest : ∀ a, Keeps b (r.behind a) n (f a) (g a)) :
    Keeps b r n (emitOperand 0 >>= f) (emitOperand 0 >>= g) := by
  intro s orderly there few
  apply (emitOperand_concludes 0 orderly).bind
  rintro a t onward calm ⟨adds, operand⟩
  have ahead := onward.ahead
  apply ((rest a t calm ⟨r.stays onward there, operand⟩ (by omega)).rebase onward).weaken
  exact fun _ _ _ kept => r.trans (r.quiet adds.pending) kept

theorem here_keeps : Keeps b r n here here :=
  .of_quiet (fun calm _ => here_concludes calm) fun given => congrArg Session.pending given.1

theorem patchAddress_keeps (target : Nat) :
    Keeps b (r.behind a) n (patchAddress a target) (patchAddress a target) :=
  .of_quiet (fun calm there => patchAddress_concludes target calm there.2) (·.pending)

theorem expect_then {kind : Token.Kind} {p : Problem} {f g : Token → Compile β}
    (ordinary : p.isOrdinary = true) (rest : ∀ tok, Known b.source tok.line →
      Keeps b r n (f tok) (g tok)) :
    Keeps b r n (expect kind p >>= f) (expect kind p >>= g) :=
  Regime.Meets.andThen (fun _ calm _ _ => expect_concludes ordinary calm) (fun few onward given =>
    ⟨r.quiet given.1.reads.pending, Nat.lt_of_le_of_lt onward.ahead few, given.1.known⟩) rest

theorem declaredName_then {f g : Token → Compile β}
    (rest : ∀ tok, Known b.source tok.line → Keeps b r n (f tok) (g tok)) :
    Keeps b r (n + 1) (declaredName >>= f) (declaredName >>= g) :=
  Regime.Meets.andThen (fun _ calm _ _ => declaredName_concludes calm)
    (fun few _ given => ⟨r.quiet given.1.reads.pending, by omega, given.1.known⟩) rest

end

theorem Scope.mem_pending : a ∈ x.pending ↔ (∃ entry ∈ x.labels, a ∈ entry.2.waiting) ∨
      ∃ l ∈ x.loops, a ∈ l.breaks ∨ a ∈ l.continues := by
  simp [Scope.pending]

theorem pending_of_scope (scope : s.scope = some x) : s.pending = x.pending := by
  simp [Session.pending, scope]

theorem Coherent.waits (coherent : Coherent b s) (scope : s.scope = some x) (held : a ∈ x.pending) :
    s.kinds[a]? = some false :=
  coherent.pending a (pending_of_scope scope ▸ held)

theorem Scope.label_pending (waits : a ∈ (x.label name).waiting) : a ∈ x.pending := by
  unfold Scope.label at waits
  cases found : x.labels.find? name with
  | none => simp [found] at waits
  | some l =>
    rw [found] at waits
    exact Scope.mem_pending.mpr (Or.inl ⟨_, NameTable.find?_mem found, waits⟩)

theorem Scope.insert_pending {l : Label}
    (waits : a ∈ Scope.pending { x with labels := x.labels.insert name l }) :
    a ∈ x.pending ∨ a ∈ l.waiting := by
  rcases Scope.mem_pending.mp waits with ⟨⟨key, entry⟩, member, held⟩ | loop
  · rcases NameTable.insert_mem member with old | ⟨_, rfl⟩
    · exact Or.inl (Scope.mem_pending.mpr (Or.inl ⟨_, old, held⟩))
    · exact Or.inr held
  · exact Or.inl (Scope.mem_pending.mpr (Or.inr loop))

theorem Scope.bindLabel_pending {ip : Nat} (waits : a ∈ (x.bindLabel name ip).pending) :
    a ∈ x.pending := by
  rcases Scope.insert_pending waits with old | new
  · exact old
  · cases new

theorem Scope.useLabel_pending {line : UInt32}
    (waits : a ∈ (x.useLabel name operand line).pending) :
    a ∈ x.pending ∨ a = operand := by
  unfold Scope.useLabel at waits
  cases found : x.labels.find? name with
  | none =>
    rw [found] at waits
    rcases Scope.insert_pending waits with old | new
    · exact Or.inl old
    · exact Or.inr (by simpa using new)
  | some l =>
    rw [found] at waits
    simp only at waits
    split at waits
    · exact Or.inl waits
    · rcases Scope.insert_pending waits with old | new
      · exact Or.inl old
      · rcases List.mem_append.mp new with known | added
        · exact Or.inl (Scope.mem_pending.mpr (Or.inl ⟨_, NameTable.find?_mem found, known⟩))
        · exact Or.inr (by simpa using added)

theorem Scope.useLabel_loops (x : Scope) (name : String) (operand : Nat) (line : UInt32) :
    (x.useLabel name operand line).loops = x.loops := by
  unfold Scope.useLabel
  split
  · rfl
  · split
    · rfl
    · rfl

theorem Scope.modifyLoop_length (x : Scope) (f : Loop → Loop) :
    (x.modifyLoop f).loops.length = x.loops.length := by
  unfold Scope.modifyLoop
  split
  · rfl
  · rename_i l rest loops
    simp [loops]

theorem Scope.modifyLoop_pending {f : Loop → Loop} (new : Nat → Prop)
    (noted : ∀ l : Loop, a ∈ (f l).breaks ∨ a ∈ (f l).continues →
      (a ∈ l.breaks ∨ a ∈ l.continues) ∨ new a) (waits : a ∈ (x.modifyLoop f).pending) :
    a ∈ x.pending ∨ new a := by
  unfold Scope.modifyLoop at waits
  split at waits
  · exact Or.inl waits
  · rename_i l rest loops
    rcases Scope.mem_pending.mp waits with label | ⟨l', member, waits⟩
    · exact Or.inl (Scope.mem_pending.mpr (Or.inl label))
    · rcases List.mem_cons.mp member with rfl | inner
      · rcases noted l waits with old | added
        · exact Or.inl (Scope.mem_pending.mpr (Or.inr ⟨l, by simp [loops], old⟩))
        · exact Or.inr added
      · exact Or.inl (Scope.mem_pending.mpr (Or.inr ⟨l', by simp [loops, inner], waits⟩))

theorem labelStatement_keeps (known : Known b.source tok.line) :
    Keeps b .body n (labelStatement tok) (labelStatement tok) := by
  intro s orderly inside _
  unfold labelStatement
  apply (currentScope_concludes orderly inside).bind
  rintro x t - - ⟨rfl, scope⟩
  have waiting : ∀ a ∈ (x.label tok.lexeme).waiting, t.kinds[a]? = some false := by
    intro a waits
    exact orderly.waits scope (Scope.label_pending waits)
  apply Concludes.ite
  · intro _
    exact .fail orderly known ⟨rfl, rfl⟩
  · intro _
    have bound : ∀ y, t.scope = some y →
        ∀ a ∈ (y.bindLabel tok.lexeme t.writer.ip).pending, t.kinds[a]? = some false := by
      intro y scope a waits
      exact orderly.waits scope (Scope.bindLabel_pending waits)
    apply (modifyScope_concludes (f := (·.bindLabel tok.lexeme t.writer.ip)) orderly (fun _ => rfl)
      (·.bindLabel _ _) bound).andThen
    rintro _ u onward calm rfl
    exact (forM_patchAddress_concludes _ calm waiting).weaken fun _ _ _ _ => trivial

theorem gotoStatement_keeps : Keeps b .body n gotoStatement gotoStatement := by
  refine expect_then rfl fun name known => (emit_keeps _).andThen fun _ =>
    operand_then fun operand => ?_
  rintro s calm ⟨inside, there⟩ -
  apply (currentScope_concludes calm inside).bind
  rintro x t - - ⟨rfl, -⟩
  have used : ∀ y, t.scope = some y →
      ∀ a ∈ (y.useLabel name.lexeme operand name.line).pending, t.kinds[a]? = some false := by
    intro y scope a waits
    rcases Scope.useLabel_pending waits with old | rfl
    · exact calm.waits scope old
    · exact there
  apply (modifyScope_concludes calm (fun y => by rw [Scope.useLabel_loops])
    (·.useLabel _ _ known) used).andThen
  rintro _ u onward calm rfl
  cases (x.label name.lexeme).ip with
  | some ip => exact (patchAddress_concludes _ calm there).weaken fun _ _ _ _ => trivial
  | none => exact .pure calm trivial

theorem returnStatement_keeps : Keeps b .body n returnStatement returnStatement :=
  (emit_keeps _).andThen fun _ => peekKind_keeps.andThen fun _ =>
    .ite (Keeps.of_quiet (fun calm _ => emitOperand_concludes 0 calm) (·.1.pending)).discard
      expression_keeps

theorem assignableAddress_keeps (known : Known b.source tok.line) :
    Keeps b .body n (assignableAddress tok) (assignableAddress tok) :=
  .of_quiet (assignableAddress_concludes known) (·.pending)

theorem symbolStatement_keeps (known : Known b.source tok.line) :
    Keeps b .body n (symbolStatement tok) (symbolStatement tok) := by
  unfold symbolStatement
  refine .get fun s orderly _ => peekKind_keeps.andThen fun kind => ?_
  have room := Nat.le_of_lt orderly.room
  have enough := Nat.le_of_lt orderly.enough
  split
  · exact nextToken_keeps.andThen fun _ => labelStatement_keeps known
  · exact nextToken_keeps.andThen fun _ => (assignableAddress_keeps known).andThen fun _ =>
      (emitWith_keeps _ _).andThen fun _ => expression_keeps
  · exact (assignableAddress_keeps known).andThen fun _ => (emitWith_keeps _ _).andThen fun _ =>
      (indexPath_keeps expression_takes room enough).body.andThen fun _ =>
        (expect_keeps rfl).andThen fun _ =>
        expression_keeps
  · exact nextToken_keeps.andThen fun _ =>
      (callOf_keeps known (itemsOrNone_keeps expression_takes (by decide) rfl room enough)).body
  · exact .get fun _ orderly _ => (callOf_keeps known (bareItemsOrNone_keeps expression_takes
      (Nat.le_of_lt orderly.room) (Nat.le_of_lt orderly.enough))).body

theorem declareLocal_keeps (known : Known b.source tok.line) :
    Keeps b .body n (declareLocal tok) (declareLocal tok) := by
  intro s orderly inside _
  unfold declareLocal
  apply (currentScope_concludes orderly inside).bind
  rintro x t - - ⟨rfl, scope⟩
  cases resolved : x.resolve? tok.lexeme with
  | some address =>
    rw [addLocal_known resolved]
    apply (report_concludes ⟨rfl, rfl⟩ known orderly).andThen
    intro _ u _ calm _
    exact .pure calm trivial
  | none =>
    rw [addLocal_new resolved]
    exact (addLocal_concludes _ _ orderly scope).weaken fun _ _ _ _ => trivial

theorem counted_keeps {x y : Compile Unit} (keeps : Keeps b .body n x y) :
    Keeps b .body n (counted x) (counted y) :=
  fun s orderly inside few => counted_concludes (keeps s.opened orderly.opened inside few)
    fun _ _ _ _ _ => trivial

theorem varStatement_keeps (bound : n ≤ k) (bound' : n ≤ k') :
    Keeps b .body n (varStatement k) (varStatement k') := by
  refine Regime.Meets.rounds (fun m k k' below again => ?_) bound bound'
  -- a comma behind one variable, and then the next one
  have next : Keeps b .body m (do if ← accept .comma then varStatement k)
      (do if ← accept .comma then varStatement k') :=
    (accept_keeps (by decide)).andThen fun _ => .ite again .pure
  unfold varStatement
  refine declaredName_then fun tok known => (declareLocal_keeps known).andThen fun address =>
    (accept_keeps (by decide)).andThen fun _ =>
      .ite ?_ ((accept_keeps (by decide)).andThen fun _ => .ite ?_ next)
  · exact (emitWith_keeps _ _).andThen fun _ => expression_keeps.andThen fun _ => next
  · exact (emitWith_keeps _ _).andThen fun _ =>
      (counted_keeps ((emit_keeps _).andThen fun _ => expression_keeps)).andThen fun _ =>
        (expect_keeps rfl).andThen fun _ => next

abbrev Settles (b : Terms) (s : Session) (x y : Compile Unit) : Prop :=
  Concludes b (Halts b Diagnostic.Ordinary) (fun _ _ => True) s (x s) (y (s.granted b))

/-- A rule for statements, each given its first token, where less than `n` is ahead. -/
def StatementsMeet (b : Terms) (n : Nat) (x y : Token → Compile Unit) : Prop :=
  ∀ tok s, Known b.source tok.line → Orderly b s → s.InBody → s.tokens.ahead + tok.cost < n →
    Settles b s (x tok) (y tok)

/-- The end of the source where a block should have ended. -/
def Unclosed (d : Diagnostic) : Prop := d.Ordinary ∧ d.problem = .expectedRightBrace

theorem blockBody_concludes {x y : Token → Compile Unit} (statements : StatementsMeet b n x y) :
    ∀ {k k' : Nat} {s : Session}, Orderly b s → s.InBody → s.tokens.ahead < n → s.tokens.ahead < k →
      s.tokens.ahead < k' → Concludes b (Halts b Unclosed) (fun _ _ => True) s (blockBody x k s)
        (blockBody y k' (s.granted b)) := by
  intro k
  induction k with
  | zero => intro _ _ _ _ _ none_; exact absurd none_ (Nat.not_lt_zero _)
  | succ k ih =>
    intro k' s orderly inside few room room'
    obtain _ | k' := k'
    · omega
    unfold blockBody
    apply (flush_concludes orderly).andThen
    intro _ t onward calm _
    have ahead := onward.ahead
    have inside' := onward.inBody inside
    apply (nextPastBreaks_concludes calm).bind
    intro tok u onward' calm' took
    have spent := took.spent
    generalize same : tok.kind = kind
    split
    · exact .ok onward' calm' trivial
    · apply (unget_concludes calm calm' took).andThen
      intro _ v _ calm'' _
      apply Concludes.get
      apply Concludes.ite
      · intro _
        exact .pure calm'' trivial
      · intro _
        apply (modify_concludes (fun s => { s with unterminated := true }) calm'' rfl rfl rfl
          (Nat.le_refl _)).andThen
        intro _ w _ calm₃ _
        exact .fail calm₃ took.known ⟨⟨rfl, rfl⟩, rfl⟩
    · rename_i _ more
      have cost := cost_of_kind same more
      apply Concludes.rebase onward'
      apply (recover_concludes (statements tok u took.known calm' (onward'.inBody inside')
        (by omega))).andThen
      intro _ v onward'' calm'' _
      have ahead'' := onward''.ahead
      exact ih calm'' (onward''.inBody (onward'.inBody inside')) (by omega) (by omega) (by omega)

theorem block_keeps {x y : Token → Compile Unit} (statements : StatementsMeet b n x y)
    (bound : n ≤ k) (bound' : n ≤ k') : Keeps b .body n (block k x) (block k' y) := by
  intro s orderly inside few
  unfold block
  apply (nextPastBreaks_concludes orderly).andThen
  intro tok t onward calm took
  have inside' := onward.inBody inside
  have spent := took.spent
  apply Concludes.ite
  · intro _
    exact (blockBody_concludes statements calm inside' (by omega) (by omega) (by omega)).loosen
      fun _ _ halts => halts.loosen fun _ unclosed => unclosed.1
  · intro _
    exact recover_concludes (statements tok t took.known calm inside' (by omega))

theorem patchHere_keeps {r : Regime} :
    Keeps b (r.behind a) n (do patchAddress a (← here)) (do patchAddress a (← here)) :=
  here_keeps.andThen fun _ => patchAddress_keeps _

theorem ifStatement_keeps {x y : Compile Unit} (body : Keeps b .body n x y) :
    Keeps b .body n (ifStatement x) (ifStatement y) := by
  refine (emit_keeps _).andThen fun _ => operand_then fun skip =>
    expression_keeps.behind.andThen fun _ =>
    body.behind.andThen fun _ => ?_
  intro s orderly there few
  apply (nextPastBreaks_concludes orderly).bind
  intro tok t onward calm took
  apply Concludes.ite
  · intro _
    have otherwise : Keeps b (Regime.body.behind skip) n _ _ := (emit_keeps .jump).andThen fun _ =>
      operand_then fun _ => here_keeps.andThen fun target =>
        (patchAddress_keeps target).behind.andThen fun _ =>
        body.behind.behind.andThen fun _ => patchHere_keeps
    exact (otherwise t calm (Regime.stays _ onward there)
      (Nat.lt_of_le_of_lt onward.ahead few)).rebase onward
  · intro _
    apply (unget_concludes orderly calm took).andThen
    intro _ u onward' calm' _
    exact patchHere_keeps u calm' (Regime.stays _ onward' there)
      (Nat.lt_of_le_of_lt onward'.ahead few)

def Session.InLoop (s : Session) : Prop := ∃ depth, s.depth = some (depth + 1)

theorem Onward.inLoop (onward : Onward s t) (looping : s.InLoop) : t.InLoop := by
  obtain ⟨depth, same⟩ := looping
  exact ⟨depth, onward.depth.trans same⟩

theorem Session.InLoop.inBody (looping : s.InLoop) : s.InBody := by
  obtain ⟨depth, same⟩ := looping
  unfold Session.depth at same
  cases scope : s.scope with
  | none => simp [scope] at same
  | some x => simp [Session.InBody, scope]

theorem Session.InLoop.loops (looping : s.InLoop) (scope : s.scope = some x) :
    ∃ l rest, x.loops = l :: rest := by
  obtain ⟨depth, same⟩ := looping
  have length : x.loops.length = depth + 1 := by simpa [Session.depth, scope] using same
  exact List.exists_cons_of_length_eq_add_one length

theorem noted_holds {l : Loop}
    (waits : a ∈ (noted leave operand l).breaks ∨ a ∈ (noted leave operand l).continues) :
    (a ∈ l.breaks ∨ a ∈ l.continues) ∨ a = operand := by
  cases leave <;> grind [noted]

def Regime.loop : Regime := .free Session.InLoop Onward.inLoop

theorem addLoopJump_keeps : Keeps b (Regime.loop.behind operand) n (addLoopJump operand leave)
    (addLoopJump operand leave) := by
  rintro s orderly ⟨looping, there⟩ -
  obtain ⟨x, scope⟩ := Option.isSome_iff_exists.mp looping.inBody
  obtain ⟨l, rest, loops⟩ := looping.loops scope
  rw [addLoopJump, get_bind, get_bind, innermost?_eq scope loops,
    innermost?_eq (s := s.granted b) scope loops]
  have noted : ∀ y, s.scope = some y → ∀ a ∈ (y.modifyLoop (noted leave operand)).pending,
      s.kinds[a]? = some false := by
    intro y scope a waits
    have held : a ∈ y.pending ∨ a = operand := by
      apply Scope.modifyLoop_pending (fun a => a = operand) ?_ waits
      exact fun _ => noted_holds
    rcases held with old | rfl
    · exact orderly.waits scope old
    · exact there
  exact (modifyScope_concludes (f := (·.modifyLoop (Compile.noted leave operand))) orderly
    (fun y => y.modifyLoop_length _) (·.modifyLoop _) noted).weaken fun _ _ _ _ => trivial

theorem emitLoopTest_keeps : Keeps b .loop n emitLoopTest emitLoopTest :=
  (emit_keeps _).andThen fun _ => operand_then fun _ => addLoopJump_keeps

theorem loopJump_keeps (known : Known b.source tok.line) :
    Keeps b .body n (loopJump tok leave) (loopJump tok leave) := by
  intro s orderly _ few
  unfold loopJump
  apply Concludes.get
  apply Concludes.ite
  · intro around
    have looping : s.InLoop := by
      cases scope : s.scope with
      | none => simp [scope] at around
      | some x =>
        obtain ⟨l, rest, loops⟩ := List.exists_cons_of_ne_nil (l := x.loops)
          (by simpa [scope] using around)
        exact ⟨rest.length, by simp [Session.depth, scope, loops]⟩
    have jump : Keeps b .loop n (do let _ ← emit .jump; addLoopJump (← emitOperand 0) leave)
        (do let _ ← emit .jump; addLoopJump (← emitOperand 0) leave) :=
      (emit_keeps _).andThen fun _ => operand_then fun _ => addLoopJump_keeps
    exact jump s orderly looping few
  · intro _
    exact .fail orderly known ⟨rfl, by cases leave <;> rfl⟩

end Scriptlet.Compile
