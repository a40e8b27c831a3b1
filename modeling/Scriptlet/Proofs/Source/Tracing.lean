import Scriptlet.Proofs.Source.Labels
import Scriptlet.Proofs.Source.Rendering

/-!
A rule that succeeds adds to the row what the grammar says, and binds the labels of what it has
read.
-/
namespace Scriptlet.Compile

open Actions Code Script Grammar

variable {s s' t : Session} {c d : Nat} {ts : List Token} {k : Nat} {labels : NameTable Label}
  {pending' : List Nat} {name : String} {x : Scope} {tok : Token} {a : Nat} {u : Unit}
  {more : List Statement} {us : List Token} {writer : CodeWriter} {rule : Token → Compile Unit}

/-- What a piece of the source becomes, given the exits, the address where it starts, the tokens in
front of it and behind it, its code and its labels. -/
abbrev Shape := Exits → Nat → List Token → List Token → List Statement → Bindings → Prop

/-- Code of the shape is added, for the tokens that were ahead. -/
structure Shaped (shape : Shape) (credit : Nat) (ts : List Token) (s s' : Session) : Prop
    extends Moves credit s s' where
  traces : s.unterminated = false → Lays s s' fun exits start row labels =>
    Fills s.literals s'.literals (rowLiterals row) ∧ shape exits start ts s'.left row labels

/-- A session on the way to an end without errors, what its pool has being in the pool of the end.
-/
structure Ending (pool : Array Value) (s : Session) : Prop where
  clean : s.errors = #[]
  kept : ∀ (i : Nat) v, s.literals[i]? = some v → pool[i]? = some v

variable {pool : Array Value} {shape : Shape}

theorem Ending.of_clean (clean : s.errors = #[]) : Ending s.literals s :=
  ⟨clean, fun _ _ => id⟩

theorem Ending.of_proceeds (ending : Ending pool s') (proceeds : Proceeds c s s') : Ending pool s :=
  ⟨proceeds.clean, fun i v found => ending.kept i v (proceeds.grows.literal_of found)⟩

theorem Ending.of_emits {ws : List UInt32} (ending : Ending pool s') (emits : Emits s s' ws k) :
    Ending pool s :=
  ⟨emits.errors ▸ ending.clean, fun i v found => ending.kept i v (emits.grows.literal_of found)⟩

def Shapes (pool : Array Value) (shape : Shape) (credit : Nat) (front : List Token)
    (rule : Compile Unit) : Prop :=
  ∀ s u s', rule s = .ok u s' → Ending pool s' → Shaped shape credit (front ++ s.left) s s'

theorem Shaped.mono {shape' : Shape} (shaped : Shaped shape c ts s s') (le : c ≤ d)
    (weaker : ∀ {exits start vs row labels}, shape exits start ts vs row labels →
      shape' exits start us vs row labels) : Shaped shape' d us s s' where
  toMoves := { shaped.toMoves with load := Nat.le_trans shaped.load (Nat.add_le_add_left le _) }
  traces := fun terminated => (shaped.traces terminated).mono (And.imp_right weaker)

theorem Shaped.of_emits (emits : Emits s t [] k) (called : Called s t)
    (pool : t.literals = s.literals) (load : t.load ≤ s.load + c)
    (shaped : Shaped shape d ts t s') :
    Shaped shape (c + d) ts s s' where
  toMoves := (emits.moves called load shaped.clean).trans shaped.toMoves
  traces := fun terminated =>
    (pool ▸ shaped.traces (emits.unterminated.trans terminated)).of_emits emits

theorem Shaped.of_reads (reads : Reads s t) (load : t.load ≤ s.load)
    (shaped : Shaped shape c ts t s') : Shaped shape c ts s s' := by
  simpa using shaped.of_emits (c := 0) reads.emits reads.called reads.literals load

theorem Shaped.after_token (reads : Reads s t) (load : t.load + tok.cost ≤ s.load)
    (shaped : Shaped shape tok.cost ts t s') : Shaped shape 0 ts s s' := by
  refine { shaped.of_reads reads (by omega) with load := ?_ }
  have := shaped.load
  omega

theorem Tells.shaped {es : List Phrase} (tells : Tells c s s' es)
    (phrase : ExpressesSimple ts s'.left es) (ending : Ending pool s') :
    Shaped (Conveys pool) c ts s s' := by
  obtain ⟨ps, k, emits, valid, fills, renders⟩ := tells.emits
  exact ⟨emits.moves tells.called tells.load ending.clean, fun _ => .plains emits valid
    ⟨fills, .simple phrase (renders.mono ending.kept)⟩⟩

theorem Shaped.cons {ts us : List Token} (breaks : Breaks ts us)
    (first : Shaped (Conveys pool) c us s t) (second : Shaped (ConveysAll pool) d t.left t s') :
    Shaped (ConveysAll pool) (c + d) ts s s' where
  toMoves := first.toMoves.trans second.toMoves
  traces := fun terminated => by
    refine ((first.traces terminated).append first.rounds
      (second.traces (first.terminated.trans terminated))).mono ?_
    rintro _ _ ⟨new, new', labels, labels', rfl, rfl, ⟨fills, shape⟩, fills', shape'⟩
    exact ⟨rowLiterals_append new new' ▸ fills.trans fills', .cons breaks shape shape'⟩

theorem settle_bind {l : Label} (scope : s.scope = some x) (unbound : (x.label name).ip = none)
    (here_ : l.ip = some a) (row : List Statement) :
    (s.remarked x (x.labels.insert name l) x.loops writer).settle row =
      resolveRow (.label name) a (s.settle row) := by
  have swap : ∀ u, settled (x.labels.insert name l) u =
      (Target.label name).resolve a (settled x.labels u) := by
    intro u
    cases u with
    | label other =>
      by_cases same : name = other
      · subst same
        rw [settled_unbound unbound, Target.resolve_self, settled_bound]
        rw [labelOf_insert, if_pos rfl, here_]
      · have kept : settled (x.labels.insert name l) (.label other) =
            settled x.labels (.label other) := by
          rw [settled, settled, labelOf_insert, if_neg same]
        rw [kept, Target.resolve_of_ne]
        cases bound : (labelOf x.labels other).ip with
        | none =>
          rw [settled_unbound bound]
          exact fun equal => same (Target.label.inj equal).symm
        | some b =>
          rw [settled_bound bound]
          simp
    | _ => rfl
  simp only [Session.settle, resolveRow, List.map_map, marks_of_scope scope]
  refine List.map_congr_left fun y _ => ?_
  cases y with
  | plain p => rfl
  | jump u => exact congrArg Statement.jump (swap u)
  | jumpIfFalse u f => exact congrArg (Statement.jumpIfFalse · f) (swap u)

theorem remarked_rounds (scope : s.scope = some x) :
    (s.remarked x labels x.loops writer).rounds = s.rounds := by
  rw [rounds_of_scope scope]
  rfl

theorem labelStatement_shaped {name : Token} (named : Name name.lexeme ts us)
    (colon : Mark .colon us s.left) (ok : labelStatement name s = .ok u s')
    (ending : Ending pool s') : Shaped (Conveys pool) 0 ts s s' := by
  obtain ⟨x, scope, unbound, rfl⟩ := labelStatement_ok ok
  have marks := marks_of_scope scope
  refine ⟨⟨remarked_proceeds scope _ _ _ ending.clean, remarked_rounds scope⟩,
    fun _ base pending row traces => ?_⟩
  refine ⟨[], [(name.lexeme, s.writer.ip)], ?_, ⟨?_, ?_, by simp⟩, .refl _ _, .label named colon⟩
  · rw [List.append_nil, Traces, settle_bind scope unbound rfl]
    exact Tracks.bindLabel name.lexeme traces scope
  · intro other a
    change (labelOf (x.labels.insert _ _) other).ip = some a ↔ _
    rw [marks, labelOf_insert, List.mem_singleton, Prod.mk.injEq]
    by_cases same : name.lexeme = other
    · subst same
      rw [if_pos rfl]
      have none_ : (labelOf x.labels name.lexeme).ip = none := unbound
      simp [none_, eq_comm]
    · have differs : ¬other = name.lexeme := fun h => same h.symm
      simp [same, differs]
  · intro other a member
    obtain ⟨rfl, _⟩ := Prod.mk.inj (List.mem_singleton.mp member)
    rw [marks]
    exact unbound

theorem gotoStatement_shapes (kind : tok.kind = .keyword .goto) :
    Shapes pool (Conveys pool) 0 [tok] gotoStatement := by
  intro s u s' ok ending
  have keyword : Mark (.keyword .goto) ([tok] ++ s.left) s.left := ⟨tok, kind, rfl⟩
  obtain ⟨name, r, x, taken, scope, jumps⟩ := gotoStatement_ok ok
  obtain ⟨symbol, ahead⟩ := expect_left taken (by decide)
  obtain ⟨reads, _, load⟩ := expect_reads taken
  have phrase : Name name.lexeme s.left r.left := ⟨name, symbol, rfl, ahead⟩
  have marks := marks_of_scope scope
  refine .of_reads reads (by omega) ?_
  rcases jumps with ⟨a, bound, rfl⟩ | ⟨l, unbound, before, waits, rfl⟩
  · have label : (labelOf r.marks.1 name.lexeme).ip = some a := by
      rw [marks]
      exact bound
    have moves : Moves 0 r ((r.jumping .jump).patched (r.writer.ip + 1) a) :=
      ((jumping_emits .jump r).moves (c := 0) (.of_eq rfl) (Nat.le_refl _) ending.clean).trans
        (patched_moves _ _ ending.clean)
    refine ⟨moves, fun _ base pending row traces => ?_⟩
    refine ⟨[.jump (.label name.lexeme)], [], ?_, .of_labels rfl, .refl _ _, .goto keyword phrase⟩
    have jumped := Tracks.append_jump traces (patch_jump r .jump (.ofNat a))
      (Tracks.labels traces name.lexeme a label).1
    have settled_ : r.settle [.jump (.label name.lexeme)] = [.jump (.ip a)] := by
      rw [Session.settle, List.map_singleton, Statement.retarget, settled_bound label]
    rw [← settled_, ← settle_append] at jumped
    exact jumped
  · refine ⟨⟨remarked_proceeds scope _ _ _ ending.clean, remarked_rounds scope⟩,
      fun _ base pending row traces => ?_⟩
    have binds : Binds r (r.remarked x (x.labels.insert name.lexeme l) x.loops
        ((r.writer.opcode .jump).operand 0)) [] := by
      refine .none fun other => ?_
      change (labelOf (x.labels.insert name.lexeme l) other).ip = _
      rw [marks, labelOf_insert]
      split
      · rename_i same
        rw [unbound, ← same]
        exact before.symm
      · rfl
    refine ⟨[.jump (.label name.lexeme)], [], ?_, binds, .refl _ _, .goto keyword phrase⟩
    have jumped := Tracks.append_goto traces scope unbound waits
    have settled_ : r.settle [.jump (.label name.lexeme)] = [.jump (.label name.lexeme)] := by
      rw [Session.settle, List.map_singleton, Statement.retarget, settled_unbound]
      rw [marks]
      exact before
    rw [Traces, settle_of_binds binds, settle_append, settled_]
    exact jumped

theorem symbolStatement_shapes {name : Token} (kind : name.kind = .symbol) :
    Shapes pool (Conveys pool) 1 [name] (symbolStatement name) := by
  intro s u s' ok ending
  have named : Mark .symbol ([name] ++ s.left) s.left := ⟨name, kind, rfl⟩
  rw [symbolStatement, get_bind] at ok
  obtain ⟨found, r, peeked, ok⟩ := of_bind_ok ok
  have ahead := peekKind_reads peeked
  have same := (peekKind_left peeked).1
  -- All forms of the statement begin by looking at the token behind the name.
  have behind : ∀ {d : Nat} {es : List Phrase}, d ≤ 1 → Tells d r s' es →
      ExpressesSimple ([name] ++ s.left) s'.left es →
      Shaped (Conveys pool) 1 ([name] ++ s.left) s s' :=
    fun le tells phrase => ((tells.shaped phrase ending).mono le id).of_reads ahead.1 ahead.2
  split at ok
  · obtain ⟨_, t, taken, ok⟩ := of_bind_ok ok
    obtain ⟨_, taken⟩ := of_discard_ok taken
    have token := nextToken_reads taken
    have phrase : Name name.lexeme ([name] ++ s.left) s.left := ⟨name, kind, rfl, rfl⟩
    have shaped := labelStatement_shaped phrase (peeked_mark peeked taken (by decide)) ok ending
    exact (shaped.mono (by omega) id).of_reads (ahead.1.trans token.1) (by omega)
  · obtain ⟨_, t, taken, ok⟩ := of_bind_ok ok
    obtain ⟨_, taken⟩ := of_discard_ok taken
    obtain ⟨a, t₁, resolved, ok⟩ := of_bind_ok ok
    obtain ⟨_, t₂, written, ok⟩ := of_bind_ok ok
    have token := nextToken_reads taken
    obtain ⟨address, target⟩ := assignable_tells resolved
    obtain ⟨e, f, value, stated⟩ := assign_stated written ok target
    rw [(still_assignableAddress _).left resolved] at value
    exact behind (Nat.le_refl 1) ((address.trans stated.tells).of_reads token.1 (by omega))
      (.assign named .none (peeked_mark peeked taken (by decide)) value)
  · obtain ⟨a, t₁, resolved, ok⟩ := of_bind_ok ok
    obtain ⟨_, t₂, written, ok⟩ := of_bind_ok ok
    obtain ⟨_, t₃, path, ok⟩ := of_bind_ok ok
    obtain ⟨_, t₄, equals, ok⟩ := of_bind_ok ok
    obtain ⟨_, equals⟩ := of_discard_ok equals
    obtain ⟨address, target⟩ := assignable_tells resolved
    obtain ⟨es, e, indexes, value, told⟩ := assignPath_tells written path equals ok target
    rw [(still_assignableAddress _).left resolved, same] at indexes
    exact behind (Nat.le_refl 1) (address.trans told)
      (.assign named indexes (expect_mark equals (by decide)) value)
  · obtain ⟨_, t, taken, ok⟩ := of_bind_ok ok
    obtain ⟨_, taken⟩ := of_discard_ok taken
    have token := nextToken_reads taken
    obtain ⟨place, es, fs, items, invokes⟩ :=
      callOf_invokes (itemsOrNone_enumerates (by decide) expression_isExpression _) ok
    exact behind (Nat.zero_le 1) (invokes.tells.of_reads token.1 (by omega))
      (.call named (peeked_mark peeked taken (by decide)) items)
  · obtain ⟨es, phrase, told⟩ := bareCall_tells kind ok
    rw [same] at phrase
    exact behind (Nat.zero_le 1) told phrase

theorem loopJump_shaped {leave : Bool} (ok : loopJump tok leave s = .ok u s')
    (ending : Ending pool s') (jump : ∀ out again start,
      Conveys pool (some (out, again)) start ts s.left [.jump (if leave then out else again)] []) :
      Shaped (Conveys pool) 0 ts s s' := by
  rw [loopJump, get_bind] at ok
  split at ok
  · rw [jumping_bind] at ok
    obtain ⟨x, l, rest, scope, loops, rfl⟩ := addLoopJump_ok ok
    have scope : s.scope = some x := scope
    refine ⟨⟨remarked_proceeds scope _ _ _ ending.clean, noted_rounds scope loops⟩, fun _ => ?_⟩
    refine (Lays.noted leave scope loops).mono ?_
    rintro _ _ ⟨rfl, rfl, exits⟩
    rw [exits]
    exact ⟨.refl _ _, jump _ _ _⟩
  · cases ok

theorem blockBody_shapes (shapes : ∀ tok, Shapes pool (Conveys pool) tok.cost [tok] (rule tok))
    (n : Nat) :
    Shapes pool (ConveysAll pool) 0 [] (blockBody rule n) := by
  induction n with
  | zero =>
    intro s u s' ok
    cases ok
  | succ n ih =>
    intro s u s' ok ending
    obtain ⟨_, s₁, flushed, ok⟩ := of_bind_ok ok
    obtain ⟨tok, s₂, taken, ok⟩ := of_bind_ok ok
    have token := nextPastBreaks_reads taken
    have reading : s₂.errors = #[] → Reads s s₂ ∧ s₂.load + tok.cost ≤ s.load := by
      intro clean₂
      have lexical := flush_ok flushed (token.1.emits.errors ▸ clean₂)
      exact ⟨lexical.1.trans token.1, lexical.2.1 ▸ token.2⟩
    have breaks : tok.kind ≠ .endOfFile → Breaks s.left (tok :: s₂.left) := by
      intro solid
      rw [← flush_left flushed]
      exact nextPastBreaks_left taken solid
    -- All statements but the closing brace and the end of the file take this step.
    have more : ∀ {r : Session}, tok.kind ≠ .endOfFile → recover (rule tok) s₂ = .ok () r →
        blockBody rule n r = .ok u s' → Shaped (ConveysAll pool) 0 ([] ++ s.left) s s' := by
      intro r solid ran rest
      have second := ih _ _ _ rest ending
      have between := ending.of_proceeds second.toProceeds
      have first := shapes tok _ _ _ (recover_ok ran between.clean) between
      have reads := reading first.clean
      exact (first.cons (breaks solid) second).after_token reads.1 reads.2
    generalize kind : tok.kind = found at ok breaks more
    cases found with
    | rightBrace =>
      cases ok
      have reads := reading ending.clean
      refine ⟨reads.1.moves (by omega) ending.clean, fun _ _ _ _ traces => ?_⟩
      refine ⟨[], [], ?_, .of_labels (congrArg _ reads.1.emits.marks),
        reads.1.literals ▸ .refl _ _, ?_⟩
      · rw [List.append_nil]
        exact traces.of_emits reads.1.emits
      · exact .nil (breaks (by decide)) ⟨tok, kind, rfl⟩
    | endOfFile =>
      obtain ⟨_, s₃, given, ok⟩ := of_bind_ok ok
      have back := unget_reads given
      rw [get_bind] at ok
      split at ok
      · rename_i ended
        cases ok
        have reads := reading (back.1.emits.errors ▸ ending.clean)
        have whole := reads.1.trans back.1
        refine ⟨whole.moves (by omega) ending.clean, fun terminated => ?_⟩
        rw [whole.emits.unterminated, terminated] at ended
        cases ended
      · cases ok
    | _ =>
      obtain ⟨_, s₃, first, ok⟩ := of_bind_ok ok
      exact more (by simp) first ok

def Blocked (pool : Array Value) : Shape := fun exits start ts us row labels =>
  ∃ vs, Breaks ts vs ∧ Conveys pool exits start vs us row labels

theorem block_shapes (shapes : ∀ tok, Shapes pool (Conveys pool) tok.cost [tok] (rule tok))
    (solid : ∀ tok s u s', rule tok s = .ok u s' → tok.kind ≠ .endOfFile) (n : Nat) :
    Shapes pool (Blocked pool) 0 [] (block n rule) := by
  intro s u s' ok ending
  obtain ⟨tok, t, taken, ok⟩ := of_bind_ok ok
  have token := nextPastBreaks_reads taken
  split at ok
  · rename_i brace
    have body := blockBody_shapes shapes n _ _ _ ok ending
    refine (body.mono (Nat.le_refl 0) fun code => ?_).of_reads token.1 (by omega)
    exact ⟨_, nextPastBreaks_left taken (by simp [brace]), .block ⟨tok, brace, rfl⟩ code⟩
  · have ran := recover_ok ok ending.clean
    have first := shapes tok _ _ _ ran ending
    refine (first.mono (Nat.le_refl _) fun code => ?_).after_token token.1 token.2
    exact ⟨_, nextPastBreaks_left taken (solid tok _ _ _ ran), code⟩

end Scriptlet.Compile
