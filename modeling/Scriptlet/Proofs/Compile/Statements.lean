import Scriptlet.Proofs.Compile.Tracking
import Scriptlet.Proofs.Source.Folding

/-!
What the rules of statements write. A statement without jumps is a row of plain code, and the
expressions in that code are those that were read, in their order. Jumps to places that are known go
to statements of the same function, and the others are noted: by label, by loop, or by the branch
that waits for them. Filling in what is noted keeps the row of the function's code tracked.
-/
namespace Scriptlet.Compile

open Actions Code Grammar

variable {s s' t : Session} {c d : Nat} {es es' : List Phrase} {u v : Unit} {x : Scope}
  {k : Nat} {l : Loop} {rest : List Loop} {counter a : Address} {ws : List UInt32} {name : Token}
  {r : Session} {limit : List Term} {p : Plain} {tok : Token} {test : Nat} {base : List UInt32}
  {pending : List Nat} {row : List Statement} {place : UInt32} {operand : Nat} {leave : Bool}

/-- What compiling without an error does to a session, beside its code and its loops. It makes at
most `credit` more variables than it takes tokens. -/
structure Proceeds (credit : Nat) (s s' : Session) : Prop where
  clean : s.errors = #[]
  load : s'.load ≤ s.load + credit
  grows : Grows s s'
  called : Called s s'
  terminated : s'.unterminated = s.unterminated
  header : s'.inHeader = s.inHeader

structure Moves (credit : Nat) (s s' : Session) : Prop extends Proceeds credit s s' where
  rounds : s'.rounds = s.rounds

theorem Proceeds.trans (first : Proceeds c s t) (second : Proceeds d t s') :
    Proceeds (c + d) s s' where
  clean := first.clean
  load := by
    have := first.load
    have := second.load
    omega
  grows := first.grows.trans second.grows
  called := first.called.trans second.called second.grows
  terminated := second.terminated.trans first.terminated
  header := second.header.trans first.header

theorem Moves.trans (first : Moves c s t) (second : Moves d t s') : Moves (c + d) s s' :=
  ⟨first.toProceeds.trans second.toProceeds, second.rounds.trans first.rounds⟩

theorem Emits.rounds (emits : Emits s s' ws k) : s'.rounds = s.rounds := by
  rw [Session.rounds, emits.marks, Session.rounds]

theorem Emits.unterminated (emits : Emits s s' ws k) : s'.unterminated = s.unterminated := by
  have quiet := emits.quiet
  simp only [Session.quiet, Prod.mk.injEq] at quiet
  exact quiet.2.2.2.1

theorem Emits.inHeader (emits : Emits s s' ws k) : s'.inHeader = s.inHeader := by
  have quiet := emits.quiet
  simp only [Session.quiet, Prod.mk.injEq] at quiet
  exact quiet.2.2.1

theorem Emits.moves (emits : Emits s s' ws k) (called : Called s s') (load : s'.load ≤ s.load + c)
    (clean : s'.errors = #[]) : Moves c s s' :=
  ⟨⟨emits.errors ▸ clean, load, emits.grows, called, emits.unterminated, emits.inHeader⟩,
    emits.rounds⟩

theorem Reads.moves (reads : Reads s s') (load : s'.load ≤ s.load + c) (clean : s'.errors = #[]) :
    Moves c s s' :=
  reads.emits.moves reads.called load clean

theorem Tracks.append_plains (tracks : Tracks base pending s row) {ps : List Plain}
    (emits : Emits s s' (ps.flatMap Plain.words) k) (valid : ∀ p ∈ ps, p.Valid s'.references) :
    Tracks base pending s' (row ++ ps.map .plain) := by
  refine tracks.extend ?_ emits.grows.within (List.forall_mem_map.mpr valid) (fun t _ => ?_)
    (by simp [Statement.target?]) (by simp [emits.marks]) emits.rounds
  · rw [emits.words, rowWords, List.flatMap_map]
    rfl
  · have none_ : Code.holes t s.writer.ip (ps.map .plain) = [] :=
      holes_eq_nil_iff.mpr (by simp [Statement.target?])
    rw [emits.marks, none_, List.append_nil]

theorem Tracks.append_plain (tracks : Tracks base pending s row) (emits : Emits s s' p.words k)
    (valid : p.Valid s'.references) : Tracks base pending s' (row ++ [.plain p]) := by
  have valid : ∀ q ∈ [p], q.Valid s'.references := by simpa using valid
  exact tracks.append_plains (by simpa using emits) valid

/-- A statement without jumps is written that has these expressions. -/
structure Stated (s s' : Session) (p : Plain) (es : List Phrase) : Prop where
  emits : Emits s s' p.words 1
  called : Called s s'
  valid : p.Valid s'.references
  fills : Fills s.literals s'.literals (partsLiterals p.parts)
  renders : RendersAll s'.literals es p.expressions
  load : s'.load ≤ s.load

structure Tells (credit : Nat) (s s' : Session) (es : List Phrase) : Prop where
  load : s'.load ≤ s.load + credit
  called : Called s s'
  emits : ∃ (ps : List Plain) (k : Nat), Emits s s' (ps.flatMap Plain.words) k ∧
    (∀ p ∈ ps, p.Valid s'.references) ∧ Fills s.literals s'.literals (rowLiterals (ps.map .plain)) ∧
      RendersAll s'.literals es (ps.flatMap Plain.expressions)

theorem Stated.tells (stated : Stated s s' p es) : Tells 0 s s' es :=
  ⟨stated.load, stated.called, [p], 1, by simpa using stated.emits, by simpa using stated.valid,
    by simpa [rowLiterals, Statement.parts] using stated.fills, by simpa using stated.renders⟩

theorem Emits.tells_none (emits : Emits s s' [] k) (called : Called s s')
    (pool : s'.literals = s.literals) (load : s'.load ≤ s.load + c) : Tells c s s' [] :=
  ⟨load, called, [], k, by simpa using emits, by simp, pool ▸ .refl _ _, .nil⟩

theorem Tells.trans (first : Tells c s t es) (second : Tells d t s' es') :
    Tells (c + d) s s' (es ++ es') := by
  obtain ⟨load, called, ps, k, emits, valid, fills, renders⟩ := first
  obtain ⟨load', called', qs, l, emits', valid', fills', renders'⟩ := second
  refine ⟨by omega, called.trans called' emits'.grows, ps ++ qs, k + l, ?_, ?_, ?_, ?_⟩
  · rw [List.flatMap_append]
    exact emits.trans emits'
  · intro p member
    rcases List.mem_append.mp member with old | new
    · exact (valid p old).mono emits'.grows.within
    · exact valid' p new
  · rw [List.map_append, rowLiterals_append]
    exact fills.trans fills'
  · rw [List.flatMap_append]
    exact (renders.mono fun _ _ => emits'.grows.literal_of).append renders'

theorem Tells.of_reads (reads : Reads s t) (load : t.load ≤ s.load) (rest : Tells c t s' es) :
    Tells c s s' es := by
  simpa using (reads.emits.tells_none (c := 0) reads.called reads.literals load).trans rest

theorem Tells.then_reads (first : Tells c s t es) (reads : Reads t s') (load : s'.load ≤ t.load) :
    Tells c s s' es := by
  simpa using first.trans (reads.emits.tells_none (c := 0) reads.called reads.literals load)

theorem Tells.errors (tells : Tells c s s' es) : s'.errors = s.errors := by
  obtain ⟨_, _, emits, _⟩ := tells.emits
  exact emits.errors

theorem returnStatement_tells (kind : tok.kind = .keyword .return_)
    (ok : returnStatement s = .ok u s') :
    ∃ es, ExpressesSimple (tok :: s.left) s'.left es ∧ Tells 0 s s' es := by
  have keyword : Mark (.keyword .return_) (tok :: s.left) s.left := ⟨tok, kind, rfl⟩
  rw [returnStatement, bind_ok _ (emit_eq _ s)] at ok
  obtain ⟨found, t, peeked, ok⟩ := of_bind_ok ok
  have same : t.left = s.left := (peekKind_left peeked).1
  have ahead := peekKind_reads peeked
  have head := (opcode_emits .returnValue s).then_reads ahead.1
  have called : Called s t := ahead.1.called
  have spent : t.load ≤ s.load := ahead.2
  split at ok
  · rename_i stops
    obtain ⟨_, ok⟩ := of_discard_ok ok
    have rest : s'.left = s.left := by
      cases ok
      exact same
    have stated : Stated s s' (.returnValue []) [] := by
      cases ok
      refine ⟨head.trans (operand_emits 0 t), called, ⟨trivial, ?_⟩, ?_, .nil, spent⟩
      · simp [Plain.parts, partsValid, termsValid, effect]
      · exact ahead.1.literals ▸ .refl _ _
    refine ⟨[], ?_, stated.tells⟩
    rw [rest]
    exact .return_ keyword (peeked_end peeked stops :)
  · obtain ⟨e, f, derives, value⟩ := expression_isExpression _ _ _ ok
    rw [same] at derives
    have load := value.load
    have fills : Fills s.literals s'.literals (partsLiterals [f]) := ahead.1.literals ▸ value.fills
    have expressions : (Plain.returnValue f).expressions = [f] := by
      cases f with
      | nil => exact absurd rfl value.renders.head.ne_nil
      | cons _ _ => rfl
    have stated : Stated s s' (.returnValue f) [e] :=
      ⟨head.trans value.emits, called.trans value.called value.emits.grows, ⟨trivial, value.valid⟩,
        fills, expressions ▸ value.renders, by omega⟩
    exact ⟨[e], .returnValue keyword derives, stated.tells⟩

theorem Invokes.tells {place : Nat} {fs : List (List Term)}
    (invokes : Invokes .callStatement place s s' es fs) : Tells 0 s s' es := by
  have stated : Stated s s' (.call place fs) es := ⟨invokes.emits, invokes.called,
    ⟨invokes.admits, invokes.valid⟩, invokes.fills, invokes.renders, invokes.load⟩
  exact stated.tells

theorem assign_stated (written : emitWith .assign a.pack s = .ok u t) (ok : expression t = .ok v s')
    (target : s.references.target a) :
    ∃ e f, Derives .choice s.left s'.left e ∧ Stated s s' (.assign a f) [e] := by
  obtain ⟨head, load⟩ := emitWith_emits written
  obtain ⟨e, f, derives, value⟩ := expression_isExpression _ _ _ ok
  have load' := value.load
  rw [(still_emitWith _ _).left written] at derives
  have emits : Emits s s' (Plain.assign a f).words 1 := head.trans value.emits
  refine ⟨e, f, derives, emits, ?_, ⟨emits.grows.within.target a target, value.valid⟩, ?_,
    value.renders, by omega⟩
  · cases written
    exact value.called
  · cases written
    exact value.fills

theorem assignPath_tells {n : Nat} {w : Unit} {p : Problem} {r' : Session}
    (written : emitWith .assignPath a.pack s = .ok u r) (path : indexPath n expression r = .ok v r')
    (equals : expect .equal p r' = .ok tok t) (ok : expression t = .ok w s')
    (target : s.references.target a) :
    ∃ es e, DerivesIndexes s.left r'.left es ∧ Derives .choice t.left s'.left e ∧
      Tells 0 s s' (es ++ [e]) := by
  obtain ⟨head, load₁⟩ := emitWith_emits written
  obtain ⟨k, path⟩ := of_discard_ok path
  obtain ⟨es, fs, indexed, _, parts⟩ :=
    prefixed_enumerates (indexes_enumerates expression_isExpression n 0) path
  rw [(still_emitWith _ _).left written] at indexed
  obtain ⟨between, _, load₂⟩ := expect_reads equals
  obtain ⟨e, f, derives, value⟩ := expression_isExpression _ _ _ ok
  have load₃ := parts.load
  have load₄ := value.load
  have grows := between.emits.grows.trans value.emits.grows
  have called : Called s r' := by
    cases written
    exact parts.called
  have emits : Emits s s' (Plain.assignPath a fs f).words 1 := by
    have all := (head.trans (parts.emits.then_reads between)).trans value.emits
    rw [Plain.words, Plain.parts, partsWords_append]
    simpa [Plain.front] using all
  have stated : Stated s s' (.assignPath a fs f) (es ++ [e]) := by
    refine ⟨emits, ?_, ⟨emits.grows.within.target a target, ?_⟩, ?_, ?_, by omega⟩
    · exact (called.trans between.called between.emits.grows).trans value.called value.emits.grows
    · exact partsValid_append.mpr ⟨partsValid_mono grows.within _ parts.valid, value.valid⟩
    · have rest := value.fills
      rw [between.literals] at rest
      rw [Plain.parts, partsLiterals_append]
      cases written
      exact parts.fills.trans rest
    · exact (parts.renders.mono fun _ _ => grows.literal_of).append value.renders
  exact ⟨es, e, indexed, derives, stated.tells⟩

def fill (w : UInt32) (addresses : List Nat) (writer : CodeWriter) : CodeWriter :=
  addresses.foldl (fun writer a => writer.patch a w) writer

theorem fill_words (w : UInt32) (addresses : List Nat) (writer : CodeWriter) :
    (fill w addresses writer).entries.toList.map (·.word) =
      patchAll w addresses (writer.entries.toList.map (·.word)) := by
  induction addresses generalizing writer with
  | nil => rfl
  | cons a rest ih =>
    rw [fill, List.foldl_cons]
    exact (ih _).trans (by rw [patch_words]; rfl)

theorem forM_patchAddress (target : Nat) (addresses : List Nat) (s : Session) :
    addresses.forM (fun operand => patchAddress operand target) s =
      .ok ⟨⟩ { s with writer := fill (.ofNat target) addresses s.writer } := by
  induction addresses generalizing s with
  | nil => rfl
  | cons a rest ih =>
    exact (bind_ok _ (patch_eq a (.ofNat target) s)).trans (ih _)

theorem here_eq (s : Session) : here s = .ok s.writer.ip s := rfl

theorem marks_of_scope (scope : s.scope = some x) : s.marks = (x.labels, x.loops) := by
  simp [Session.marks, scope]

theorem labelOf_insert (labels : NameTable Label) (name other : String) (l : Label) :
    labelOf (labels.insert name l) other = if name = other then l else labelOf labels other := by
  rw [labelOf, NameTable.find?_insert]
  split <;> rfl

def Session.remarked (s : Session) (x : Scope) (labels : NameTable Label) (loops : List Loop)
    (writer : CodeWriter) : Session :=
  { s with scope := some { x with labels, loops }, writer }

theorem remarked_grows (scope : s.scope = some x) (labels : NameTable Label) (loops : List Loop)
    (writer : CodeWriter) : Grows s (s.remarked x labels loops writer) := by
  refine ⟨⟨[], by simp [Session.remarked]⟩, ⟨[], by simp [Session.remarked]⟩, rfl,
    ⟨[], by simp [Session.remarked]⟩, ?_⟩
  rw [scope]
  exact .some ⟨rfl, rfl, rfl, rfl, [], by simp⟩

theorem remarked_words (s : Session) (x : Scope) (labels : NameTable Label) (loops : List Loop)
    (writer : CodeWriter) :
    (s.remarked x labels loops writer).words = writer.entries.toList.map (·.word) := rfl

theorem remarked_marks (s : Session) (x : Scope) (labels : NameTable Label) (loops : List Loop)
    (writer : CodeWriter) : (s.remarked x labels loops writer).marks = (labels, loops) := rfl

theorem remarked_proceeds (scope : s.scope = some x) (labels : NameTable Label) (loops : List Loop)
    (writer : CodeWriter) (clean : s.errors = #[]) :
    Proceeds 0 s (s.remarked x labels loops writer) where
  clean := clean
  load := by simp [Session.load, Session.remarked, scope]
  grows := remarked_grows scope _ _ _
  called := .of_eq rfl
  terminated := rfl
  header := rfl

theorem labelStatement_ok (ok : labelStatement name s = .ok u s') :
    ∃ x, s.scope = some x ∧ (x.label name.lexeme).ip = none ∧
    s' = s.remarked x (x.labels.insert name.lexeme
          { x.label name.lexeme with ip := some s.writer.ip, waiting := [] }) x.loops
        (fill (.ofNat s.writer.ip) (x.label name.lexeme).waiting s.writer) := by
  rw [labelStatement, bind_ok _ (here_eq s)] at ok
  obtain ⟨x, t, current, rest⟩ := of_bind_ok ok
  obtain ⟨rfl, scope⟩ := currentScope_ok current
  refine ⟨x, scope, ?_⟩
  cases bound : (x.label name.lexeme).ip with
  | some ip =>
    simp only [bound, Option.isSome_some, ↓reduceIte] at rest
    cases rest
  | none =>
    simp only [bound, Option.isSome_none, Bool.false_eq_true, ↓reduceIte] at rest
    rw [modifyScope, modify_bind, forM_patchAddress] at rest
    refine ⟨rfl, ?_⟩
    rw [← (EStateM.Result.ok.inj rest).2]
    simp only [scope, Option.map_some]
    rfl

theorem Tracks.bindLabel (name : String) (tracks : Tracks base pending s row)
    (scope : s.scope = some x) :
    Tracks base pending (s.remarked x
      (x.labels.insert name { x.label name with ip := some s.writer.ip, waiting := [] }) x.loops
      (fill (.ofNat s.writer.ip) (x.label name).waiting s.writer))
      (resolveRow (.label name) s.writer.ip row) := by
  have marks := marks_of_scope scope
  have here_ := tracks.ip_mem
  refine tracks.resolve (t := .label name) rfl here_ ?_ (remarked_grows scope _ _ _).within
    ?_ ?_ ?_ ?_
  · rw [waiting, marks]
    exact fill_words _ _ _
  · simp [waiting, Session.marks, Session.remarked, labelOf_insert]
  · intro t open_ other
    rw [marks]
    cases t with
    | label other_name =>
      have differs : name ≠ other_name := fun same => other (by rw [same])
      simp [waiting, Session.marks, Session.remarked, labelOf_insert, differs]
    | _ => rfl
  · intro other_name b bound
    have before := tracks.labels other_name b
    rw [marks] at before
    simp only [Session.marks, Session.remarked, Option.map_some, Option.getD_some,
      labelOf_insert] at bound ⊢
    split at bound
    · rename_i same
      rw [if_pos same]
      exact ⟨Option.some.inj bound ▸ here_, rfl⟩
    · rename_i differs
      rw [if_neg differs]
      exact before bound
  · intro r member
    rw [Session.rounds, marks]
    exact member

theorem useLabel_bound {name : String} {a : Nat} (bound : (x.label name).ip = some a)
    (operand : Nat) (line : UInt32) :
    x.useLabel name operand line = x := by
  unfold Scope.label at bound
  unfold Scope.useLabel
  cases found : x.labels.find? name with
  | none => simp [found] at bound
  | some l =>
    have : l.ip.isSome = true := by simp_all
    simp [this]

theorem useLabel_unbound {name : String} (unbound : (x.label name).ip = none) (operand : Nat)
    (line : UInt32) :
    ∃ l, x.useLabel name operand line = { x with labels := x.labels.insert name l } ∧
      l.ip = none ∧ l.waiting = (x.label name).waiting ++ [operand] := by
  unfold Scope.label at unbound ⊢
  unfold Scope.useLabel
  cases found : x.labels.find? name with
  | none => exact ⟨_, rfl, rfl, rfl⟩
  | some l =>
    have none_ : l.ip = none := by simpa [found] using unbound
    exact ⟨{ l with waiting := l.waiting ++ [operand] }, by simp [none_], none_, rfl⟩

theorem open_jump_words (op : Opcode) (s : Session) :
    ((s.writer.opcode op).operand 0).entries.toList.map (·.word) = s.words ++ [op.word, 0] := by
  simp [CodeWriter.opcode, CodeWriter.operand, Session.words]

theorem open_jump_ip (op : Opcode) (s : Session) : (s.writer.opcode op).ip = s.writer.ip + 1 := by
  simp [CodeWriter.opcode, CodeWriter.ip]

theorem Tracks.append_jump (tracks : Tracks base pending s row) {a : Nat} {writer : CodeWriter}
    (words : writer.entries.toList.map (·.word) = s.words ++ [Opcode.jump.word, .ofNat a])
    (known : a ∈ bounds base.length row) :
    Tracks base pending { s with writer } (row ++ [.jump (.ip a)]) := by
  refine tracks.extend (by rwa [rowWords_single]) ⟨fun _ => id, fun _ => id, fun _ => id,
    fun _ _ => id⟩ (by simp [Statement.Valid]) ?_ ?_ (fun _ _ bound => ⟨bound, rfl⟩) rfl
  · intro t open_
    have other : (Target.ip a) ≠ t := by
      rintro rfl
      simp [Target.isOpen] at open_
    simp [Code.holes, Statement.target?, other, Session.marks]
  · simpa [Statement.target?] using known

def Session.jumping (op : Opcode) (s : Session) : Session :=
  { s with writer := (s.writer.opcode op).operand 0 }

theorem jumping_bind {α : Type} (op : Opcode) (f : Nat → Compile α) (s : Session) :
    (emit op >>= fun _ => emitOperand 0 >>= f) s = f (s.writer.ip + 1) (s.jumping op) := by
  rw [bind_ok _ (emit_eq op s), bind_ok _ (emitOperand_eq 0 _), open_jump_ip]
  rfl

theorem jumping_emits (op : Opcode) (s : Session) : Emits s (s.jumping op) [op.word, 0] 1 :=
  (opcode_emits op s).trans (operand_emits 0 _)

theorem gotoStatement_ok (ok : gotoStatement s = .ok u s') :
    ∃ (name : Token) (r : Session) (x : Scope), expect .symbol .expectedSymbol s = .ok name r ∧
      r.scope = some x ∧
      ((∃ a, (x.label name.lexeme).ip = some a ∧ s' = { r with
        writer := ((r.writer.opcode .jump).operand 0).patch (r.writer.ip + 1) (.ofNat a) }) ∨
      ∃ l : Label, l.ip = none ∧ (x.label name.lexeme).ip = none ∧
        l.waiting = (x.label name.lexeme).waiting ++ [r.writer.ip + 1] ∧
        s' = r.remarked x (x.labels.insert name.lexeme l) x.loops
          ((r.writer.opcode .jump).operand 0)) := by
  obtain ⟨name, r, taken, ok⟩ := of_bind_ok ok
  rw [bind_ok _ (emit_eq .jump r), bind_ok _ (emitOperand_eq 0 _)] at ok
  obtain ⟨x, t, current, rest⟩ := of_bind_ok ok
  obtain ⟨rfl, scope⟩ := currentScope_ok current
  have scope : r.scope = some x := scope
  rw [modifyScope, modify_bind] at rest
  refine ⟨name, r, x, taken, scope, ?_⟩
  simp only [scope, Option.map_some, open_jump_ip] at rest
  cases bound : (x.label name.lexeme).ip with
  | some a =>
    rw [bound, useLabel_bound bound] at rest
    refine Or.inl ⟨a, rfl, ?_⟩
    rw [← (EStateM.Result.ok.inj ((patch_eq _ _ _).symm.trans rest)).2, ← scope]
  | none =>
    obtain ⟨l, used, unbound, waits⟩ := useLabel_unbound bound (r.writer.ip + 1) name.line
    rw [bound, used] at rest
    exact Or.inr ⟨l, unbound, rfl, waits, (EStateM.Result.ok.inj rest).2.symm⟩

theorem patch_jump (s : Session) (op : Opcode) (w : UInt32) :
    (((s.writer.opcode op).operand 0).patch (s.writer.ip + 1) w).entries.toList.map (·.word) =
      s.words ++ [op.word, w] := by
  rw [patch_words, open_jump_words, ← words_length]
  simp

theorem Tracks.append_goto {name : String} {l : Label} (tracks : Tracks base pending s row)
    (scope : s.scope = some x) (unbound : l.ip = none)
    (waits : l.waiting = (x.label name).waiting ++ [s.writer.ip + 1]) :
    Tracks base pending (s.remarked x (x.labels.insert name l) x.loops
      ((s.writer.opcode .jump).operand 0)) (row ++ [.jump (.label name)]) := by
  have marks := marks_of_scope scope
  refine tracks.extend (by rw [rowWords_single]; exact open_jump_words .jump s)
    (remarked_grows scope _ _ _).within (by simp [Statement.Valid]) ?_
    (by simp [Statement.target?]) ?_ ?_
  · intro t open_
    rw [marks]
    cases t with
    | label other =>
      by_cases same : name = other
      · subst same
        simp [Code.holes, waiting, Session.marks, Session.remarked, labelOf_insert,
          Statement.target?, waits]
        rfl
      · simp [Code.holes, waiting, Session.marks, Session.remarked, labelOf_insert,
          Statement.target?, same]
    | _ => simp [Code.holes, waiting, Session.marks, Session.remarked, Statement.target?]
  · intro other b bound
    rw [marks]
    simp only [Session.marks, Session.remarked, Option.map_some, Option.getD_some,
      labelOf_insert] at bound ⊢
    split at bound
    · rw [unbound] at bound
      cases bound
    · rename_i differs
      rw [if_neg differs]
      exact ⟨bound, rfl⟩
  · rw [Session.rounds, Session.rounds, marks]
    rfl

theorem bareCall_tells (kind : name.kind = .symbol) (ok : bareCall name s = .ok u s') :
    ∃ es, ExpressesSimple (name :: s.left) s'.left es ∧ Tells 0 s s' es := by
  have named : Mark .symbol (name :: s.left) s.left := ⟨name, kind, rfl⟩
  rw [bareCall, get_bind] at ok
  have items : Enumerates (fun ts us es => DerivesSequence ts us es ∨
      (us = ts ∧ es = []) ∧ ∀ tok ∈ ts.head?, tok.kind.startsOperand = false) 0
      (bareItemsOrNone s.budget expression) := by
    intro r n r' ran
    obtain ⟨found, t, peeked, ran⟩ := of_bind_ok ran
    have ahead := peekKind_reads peeked
    obtain ⟨same, _, first⟩ := peekKind_left peeked
    split at ran
    · obtain ⟨es, fs, listed, parts, total⟩ :=
        bareItems_enumerates expression_isExpression _ 0 _ _ _ ran
      rw [same] at listed
      exact ⟨es, fs, Or.inl listed, parts.of_reads ahead.1 ahead.2, total⟩
    · rename_i other
      cases ran
      refine ⟨[], [], Or.inr ⟨⟨same, rfl⟩, fun tok member => ?_⟩,
        (Enumerated.nil r).then_reads ahead.1 ahead.2, rfl⟩
      rw [first tok member]
      simpa using other
  obtain ⟨place, es, fs, listed | ⟨⟨same, rfl⟩, stops⟩, invokes⟩ := callOf_invokes items ok
  · exact ⟨es, .bareCall named listed, invokes.tells⟩
  · refine ⟨[], ?_, invokes.tells⟩
    rw [same]
    exact .bareName named stops

theorem assignable_tells (ok : assignableAddress name s = .ok a s') :
    Tells 1 s s' [] ∧ s'.references.target a := by
  obtain ⟨emits, functions, target, load⟩ := assignableAddress_ok ok
  obtain ⟨_, rfl⟩ := assignableAddress_scope ok
  exact ⟨emits.tells_none (.of_eq functions) rfl load, target⟩

theorem flush_ok (ok : flush s = .ok u s') (clean : s'.errors = #[]) :
    Reads s s' ∧ s'.load = s.load ∧ s.errors = #[] := by
  rw [flush] at ok
  obtain ⟨errors, t, taken, ok⟩ := of_bind_ok ok
  cases taken
  obtain ⟨recorded, rfl, all⟩ := forM_record_ok ok
  obtain rfl : recorded = #[] := clean
  have none_ : s.errors.toList ++ s.tokens.errors.toList = [] := all.symm
  have empty : s.errors = #[] := by simpa using (List.append_eq_nil_iff.mp none_).1
  refine ⟨⟨{ s.tokens with errors := #[] }, s.writer.line, ?_⟩, rfl, empty⟩
  rw [← empty]
  rfl

theorem report_ok {d : Diagnostic} (ok : report d s = .ok u s') :
    ∃ tokens errors, s' = { s with tokens, errors } ∧ s'.errors ≠ #[] := by
  obtain ⟨_, t, flushed, ok⟩ := of_bind_ok ok
  rw [flush] at flushed
  obtain ⟨errors, r, taken, flushed⟩ := of_bind_ok flushed
  cases taken
  obtain ⟨recorded, rfl, _⟩ := forM_record_ok flushed
  rw [record_ok ok]
  exact ⟨_, _, rfl, by simp⟩

theorem report_errors {d : Diagnostic} (ok : report d s = .ok u s') : s'.errors ≠ #[] := by
  obtain ⟨_, _, _, errors⟩ := report_ok ok
  exact errors

theorem skipStatement_reads (n : Nat) : ∀ {s s' : Session} {u : Unit},
    skipStatement n s = .ok u s' → Reads s s' := by
  induction n with
  | zero =>
    intro s s' u ok
    cases ok
  | succ n ih =>
    intro s s' u ok
    obtain ⟨kind, t, peeked, ok⟩ := of_bind_ok ok
    have ahead := (peekKind_reads peeked).1
    have skips : ∀ {r : Session}, (do discard nextToken; skipStatement n) t = .ok u r →
        Reads s r := by
      intro r ran
      obtain ⟨_, t₁, taken, ran⟩ := of_bind_ok ran
      obtain ⟨_, taken⟩ := of_discard_ok taken
      exact (ahead.trans (nextToken_reads taken).1).trans (ih ran)
    split at ok
    · cases ok
      exact ahead
    · cases ok
      exact ahead
    · obtain ⟨_, taken⟩ := of_discard_ok ok
      exact ahead.trans (nextToken_reads taken).1
    · rw [get_bind] at ok
      split at ok
      · cases ok
        exact ahead
      · exact skips ok
    · exact skips ok

theorem recover_ok {rule : Compile Unit} (ok : recover rule s = .ok u s')
    (clean : s'.errors = #[]) :
    rule s = .ok () s' := by
  obtain ⟨outcome, t, tried, ok⟩ := of_bind_ok ok
  cases outcome with
  | ok v =>
    cases ok
    exact attempt_ok tried
  | error stop =>
    cases stop with
    | abort => cases ok
    | error d =>
      obtain ⟨_, t₁, reported, ok⟩ := of_bind_ok ok
      rw [get_bind] at ok
      have errors := report_errors reported
      obtain ⟨_, _, rfl⟩ := skipStatement_reads _ ok
      exact absurd clean errors

theorem declaredName_reads (ok : declaredName s = .ok name s') :
    Reads s s' ∧ s'.load + 1 ≤ s.load := by
  obtain ⟨t, r, taken, ok⟩ := of_bind_ok ok
  obtain ⟨reads, kind, load⟩ := expect_reads taken
  have cost := cost_of_kind kind (by decide)
  split at ok
  · cases ok
  · cases ok
    exact ⟨reads, by omega⟩

theorem declareLocal_ok (ok : declareLocal name s = .ok a s') :
    s'.references.target a ∧ (s'.errors = #[] → Tells 1 s s' []) := by
  obtain ⟨x, t, current, rest⟩ := of_bind_ok ok
  obtain ⟨rfl, scope⟩ := currentScope_ok current
  cases resolved : x.resolve? name.lexeme with
  | some b =>
    rw [addLocal_known resolved] at rest
    obtain ⟨_, t₁, reported, rest⟩ := of_bind_ok rest
    rw [resolved] at rest
    cases rest
    obtain ⟨tokens, errors, rfl, found⟩ := report_ok reported
    obtain ⟨has, notGlobal⟩ := resolve?_hasSlot scope resolved
    exact ⟨⟨has, fun global => absurd global notGlobal⟩, fun clean => absurd clean found⟩
  | none =>
    rw [addLocal_new resolved] at rest
    simp only at rest
    rw [setScope, modify_bind] at rest
    obtain ⟨rfl, added⟩ := EStateM.Result.ok.inj rest
    obtain ⟨emits, functions, has, load⟩ := addLocal_emits scope added.symm
    refine ⟨⟨has, fun global => ?_⟩, fun _ => ?_⟩
    · cases global
    · rw [← added] at emits load functions ⊢
      exact emits.tells_none (.of_eq functions) rfl load

theorem zeros_tells (written : emitWith .assign a.pack s = .ok u t)
    (ok : counted (do let _ ← emit .createList; expression) t = .ok v s')
    (target : s.references.target a) :
    ∃ e, Derives .choice s.left s'.left e ∧ Tells 0 s s' [.operand [e]] := by
  obtain ⟨head, load⟩ := emitWith_emits written
  obtain ⟨r, ran, rfl⟩ := counted_ok ok
  rw [bind_ok _ (emit_eq _ _)] at ran
  obtain ⟨e, f, derives, size⟩ := expression_isExpression _ _ _ ran
  have derives : Derives .choice t.left r.left e := derives
  rw [(still_emitWith _ _).left written] at derives
  have value : Emits t (r.closed t.writer.ip) (partsWords [[.compound .zeros [f]]]) 0 := by
    have inner := closed_emits ((opcode_emits .createList t.opened).trans size.emits)
    rwa [partsWords_single, termsWords_single, Term.words]
  have emits : Emits s (r.closed t.writer.ip) (Plain.assign a [.compound .zeros [f]]).words 1 :=
    head.trans value
  have stated : Stated s (r.closed t.writer.ip) (.assign a [.compound .zeros [f]])
      [.operand [e]] := by
    refine ⟨emits, ?_, ⟨emits.grows.within.target a target, ?_⟩, ?_,
      .single (.compound .zeros size.renders), ?_⟩
    · cases written
      exact size.called
    · refine partsValid_single (pushes_compound _ _) ?_
      simp only [termsValid, Term.Valid, Head.Valid, List.length_singleton, true_and, and_true]
      exact size.valid
    · rw [Plain.parts, partsLiterals_single, termsLiterals_single, Term.literals]
      cases written
      exact size.fills
    · have : r.load ≤ t.load := size.load
      change r.load ≤ s.load
      omega
  exact ⟨e, derives, stated.tells⟩

theorem varStatement_tells (n : Nat) : ∀ {s s' : Session} {u : Unit},
    varStatement n s = .ok u s' → s'.errors = #[] →
      ∃ es, ExpressesDeclared s.left s'.left es ∧ Tells 0 s s' es := by
  induction n with
  | zero =>
    intro s s' u ok
    cases ok
  | succ n ih =>
    intro s s' u ok clean
    obtain ⟨name, t₁, named, ok⟩ := of_bind_ok ok
    obtain ⟨a, t₂, declared, ok⟩ := of_bind_ok ok
    obtain ⟨equals, t₃, accepted, ok⟩ := of_bind_ok ok
    have symbol := declaredName_mark named
    rw [← declareLocal_left declared] at symbol
    have first := declaredName_reads named
    have ahead := accept_reads accepted
    obtain ⟨given, missing⟩ := accept_left accepted (by decide)
    obtain ⟨target, declares⟩ := declareLocal_ok declared
    have target : t₃.references.target a := ahead.1.emits.grows.within.target a target
    -- The name pays for the variable.
    have opened : ∀ {es : List Phrase}, Tells 0 t₃ s' es → Tells 0 s s' es := by
      intro es rest
      have clean₂ : t₂.errors = #[] := by rw [← ahead.1.emits.errors, ← rest.errors, clean]
      have middle := (declares clean₂).then_reads ahead.1 ahead.2
      refine { (middle.trans rest).of_reads first.1 (by omega) with load := ?_ }
      have := middle.load
      have := rest.load
      omega
    -- The initial value of this variable is told, and the other variables follow.
    have continues : ∀ {r : Session} {es : List Phrase},
        (do if ← accept .comma then varStatement n) r = .ok u s' →
        ExpressesInitial t₂.left r.left es →
        Tells 0 t₃ r es → ∃ es, ExpressesDeclared s.left s'.left es ∧ Tells 0 s s' es := by
      intro r es ran initial told
      rcases of_accept_ok ran (by decide) with ⟨r₁, between, comma, ran⟩ | ⟨r₁, between, same, ran⟩
      · obtain ⟨more, others, rest⟩ := ih ran clean
        exact ⟨es ++ more, .more symbol initial comma others,
          opened (told.trans (rest.of_reads between.1 between.2))⟩
      · cases ran
        refine ⟨es, ?_, opened (told.then_reads between.1 between.2)⟩
        rw [same]
        exact .last symbol initial
    dsimp only at ok
    split at ok
    · rename_i yes
      obtain ⟨_, r₁, written, ok⟩ := of_bind_ok ok
      obtain ⟨_, r₂, value, ok⟩ := of_bind_ok ok
      obtain ⟨e, f, derives, stated⟩ := assign_stated written value target
      exact continues ok (.value (given yes) derives) stated.tells
    · rename_i no
      rw [← missing (by simpa using no)] at continues
      rcases of_accept_ok ok (by decide) with ⟨r₀, between, bracket, ok⟩ | ⟨r₀, between, same, ok⟩
      · obtain ⟨_, r₁, written, ok⟩ := of_bind_ok ok
        obtain ⟨_, r₂, zeros, ok⟩ := of_bind_ok ok
        obtain ⟨r₃, behind, closed, ok⟩ := of_expect_ok ok (by decide)
        obtain ⟨e, derives, told⟩ :=
          zeros_tells written zeros (between.1.emits.grows.within.target a target)
        exact continues ok (.zeros bracket derives closed)
          ((told.of_reads between.1 between.2).then_reads behind.1 behind.2)
      · refine continues ok ?_ (between.1.emits.tells_none between.1.called between.1.literals
          between.2)
        rw [same]
        exact .none

theorem within_refl (r : References) : r.Within r :=
  ⟨fun _ => id, fun _ => id, fun _ => id, fun _ _ => id⟩

theorem Tracks.append_later (tracks : Tracks base pending s row) {x : Statement}
    (new : s.writer.ip + 1 ∉ pending) (aims : x.target? = some (.later (s.writer.ip + 1)))
    (words : x.words Target.word = ws) (emits : Emits s s' ws k) (valid : x.Valid s'.references) :
    Tracks base ((s.writer.ip + 1) :: pending) s' (row ++ [x]) := by
  refine tracks.extend (by rw [rowWords_single, words, emits.words]) emits.grows.within
    (by simpa using valid) ?_ (by simp [aims]) (by simp [emits.marks]) emits.rounds
  intro t open_
  rw [emits.marks, Code.holes, aims]
  cases t with
  | later operand =>
    by_cases same : operand = s.writer.ip + 1
    · subst same
      simp [Code.holes, waiting, new]
    · have other : s.writer.ip + 1 ≠ operand := fun h => same h.symm
      simp [Code.holes, waiting, same, other]
  | _ => simp [Code.holes, waiting]

def Session.patched (operand target : Nat) (s : Session) : Session :=
  { s with writer := s.writer.patch operand (.ofNat target) }

theorem patchAddress_eq (operand target : Nat) (s : Session) :
    patchAddress operand target s = .ok () (s.patched operand target) := rfl

theorem patched_words (operand target : Nat) (s : Session) :
    (s.patched operand target).words = s.words.set operand (.ofNat target) :=
  patch_words _ _ _

theorem patched_grows (operand target : Nat) (s : Session) : Grows s (s.patched operand target) :=
  ⟨⟨[], by simp [Session.patched]⟩, ⟨[], by simp [Session.patched]⟩, rfl,
    ⟨[], by simp [Session.patched]⟩, scope_rel_refl _⟩

theorem patched_moves (operand target : Nat) (clean : s.errors = #[]) :
    Moves 0 s (s.patched operand target) :=
  ⟨⟨clean, Nat.le_refl _, patched_grows operand target s, .of_eq rfl, rfl, rfl⟩, rfl⟩

theorem Tracks.resolve_later {a : Nat}
    (tracks : Tracks base (operand :: pending) s row) (new : operand ∉ pending)
    (at_ : a ∈ bounds base.length row) :
    Tracks base pending (s.patched operand a) (resolveRow (.later operand) a row) := by
  refine tracks.resolve (t := .later operand) rfl at_ ?_ (within_refl _) ?_ ?_
    (fun name b bound => tracks.labels name b bound) (fun r member => member)
  · rw [waiting, if_pos List.mem_cons_self, patched_words]
    rfl
  · simp [waiting, new]
  · intro u open_ other
    cases u with
    | later b =>
      have differs : b ≠ operand := fun same => other (by rw [same])
      simp [waiting, differs]
    | _ => rfl

theorem Tracks.of_pending {pending' : List Nat} (tracks : Tracks base pending s row)
    (same : ∀ a, a ∈ pending' ↔ a ∈ pending) : Tracks base pending' s row := by
  refine tracks.remark rfl (within_refl _) rfl (fun t => ?_) tracks.rounds
  cases t with
  | later operand => simp [waiting, same]
  | _ => rfl

theorem Tracks.pending_lt (tracks : Tracks base pending s row) {a : Nat} (waits : a ∈ pending) :
    a < s.writer.ip := by
  rw [tracks.ip_eq]
  apply mem_holes_lt (t := .later a)
  rw [tracks.holes _ rfl]
  simp [waiting, waits]

/-- The innermost loop with a jump noted, out of it or to its next round. -/
def noted (leave : Bool) (operand : Nat) (l : Loop) : Loop :=
  if leave then { l with breaks := l.breaks ++ [operand] }
  else { l with continues := l.continues ++ [operand] }

def cleared (leave : Bool) (l : Loop) : Loop :=
  if leave then { l with breaks := [] } else { l with continues := [] }

def loopTarget (leave : Bool) (level : Nat) : Target := if leave then .exit level else .again level

theorem noted_waiting (labels : NameTable Label) (leave : Bool) (operand : Nat) (l : Loop)
    (rest : List Loop) (pending : List Nat) (t : Target) :
    waiting (labels, noted leave operand l :: rest) pending t =
      waiting (labels, l :: rest) pending t ++
        if loopTarget leave rest.length = t then [operand] else [] := by
  rw [waiting_cons, waiting_cons]
  by_cases exit : t = .exit rest.length
  · cases leave <;> simp [exit, loopTarget, noted]
  · by_cases again : t = .again rest.length
    · cases leave <;> simp [again, loopTarget, noted]
    · have other : loopTarget leave rest.length ≠ t := by cases leave <;> exact Ne.symm ‹_›
      simp [exit, again, other]

theorem innermost?_eq (scope : s.scope = some x) (loops : x.loops = l :: rest) :
    s.innermost? = some l := by
  rw [Session.innermost?, scope, Option.bind_some, loops, List.head?_cons]

theorem innermost?_some (found : s.innermost? = some l) :
    ∃ x rest, s.scope = some x ∧ x.loops = l :: rest := by
  obtain ⟨x, scope, first⟩ := Option.bind_eq_some_iff.mp found
  obtain ⟨rest, loops⟩ := List.head?_eq_some_iff.mp first
  exact ⟨x, rest, scope, loops⟩

theorem addLoopJump_eq (scope : s.scope = some x) (loops : x.loops = l :: rest) (operand : Nat)
    (leave : Bool) :
    addLoopJump operand leave s =
      .ok () (s.remarked x x.labels (noted leave operand l :: rest) s.writer) := by
  rw [addLoopJump, get_bind, innermost?_eq scope loops]
  change EStateM.Result.ok () _ = _
  simp only [scope, Option.map_some, Scope.modifyLoop, loops]
  rfl

theorem addLoopJump_ok (ok : addLoopJump operand leave s = .ok u s') :
    ∃ x l rest, s.scope = some x ∧ x.loops = l :: rest ∧
      s' = s.remarked x x.labels (noted leave operand l :: rest) s.writer := by
  cases found : s.innermost? with
  | none =>
    rw [addLoopJump, get_bind, found] at ok
    cases ok
  | some l =>
    obtain ⟨x, rest, scope, loops⟩ := innermost?_some found
    obtain ⟨_, rfl⟩ := EStateM.Result.ok.inj
      ((addLoopJump_eq scope loops operand leave).symm.trans ok)
    exact ⟨x, l, rest, scope, loops, rfl⟩

theorem Tracks.append_noted (tracks : Tracks base pending s row) (scope : s.scope = some x)
    (loops : x.loops = l :: rest) {j : Statement}
    (aims : j.target? = some (loopTarget leave rest.length))
    (words : s'.words = s.words ++ j.words Target.word)
    (marks : s'.marks = (x.labels, noted leave (s.writer.ip + 1) l :: rest))
    (within : s.references.Within s'.references) (valid : j.Valid s'.references) :
    Tracks base pending s' (row ++ [j]) := by
  have before : s.marks = (x.labels, l :: rest) := by rw [marks_of_scope scope, loops]
  refine tracks.extend (by rwa [rowWords_single]) within (by simpa using valid) ?_ ?_ ?_ ?_
  · intro t open_
    rw [marks, before, noted_waiting, Code.holes, aims]
    simp [Code.holes]
  · cases leave <;> simp [aims, loopTarget]
  · intro name a bound
    rw [marks] at bound ⊢
    rw [before]
    exact ⟨bound, rfl⟩
  · rw [Session.rounds, Session.rounds, marks, before]
    cases leave <;> rfl

theorem closeLoop_eq (scope : s.scope = some x) (loops : x.loops = l :: rest) :
    closeLoop ⟨rest.length⟩ s = .ok () (s.remarked x x.labels rest
      (fill (.ofNat l.resume) l.continues (fill (.ofNat s.writer.ip) l.breaks s.writer))) := by
  have closed : x.closeLoop ⟨rest.length⟩ = some (l, { x with loops := rest }) := by
    simp [Scope.closeLoop, loops]
  rw [closeLoop, get_bind, scope, Option.bind_some, closed]
  dsimp only
  rw [setScope, modify_bind, bind_ok _ (here_eq _), bind_ok _ (forM_patchAddress _ _ _),
    forM_patchAddress]
  rfl

theorem closeLoop_some {id : LoopId} (closed : x.closeLoop id = some (l, y)) :
    ∃ rest, x.loops = l :: rest ∧ id = ⟨rest.length⟩ := by
  unfold Scope.closeLoop at closed
  split at closed
  · cases closed
  · rename_i l rest loops
    split at closed
    · rename_i innermost
      cases closed
      rw [loops, List.length_cons, Nat.add_right_cancel_iff] at innermost
      exact ⟨rest, loops, congrArg LoopId.mk innermost⟩
    · cases closed

theorem closeLoop_ok {id : LoopId} (ok : closeLoop id s = .ok u s') :
    ∃ x l rest, s.scope = some x ∧ x.loops = l :: rest ∧ s' = s.remarked x x.labels rest
      (fill (.ofNat l.resume) l.continues (fill (.ofNat s.writer.ip) l.breaks s.writer)) := by
  cases closed : s.scope.bind (·.closeLoop id) with
  | none =>
    rw [closeLoop, get_bind, closed] at ok
    cases ok
  | some found =>
    obtain ⟨x, scope, closed⟩ := Option.bind_eq_some_iff.mp closed
    obtain ⟨rest, loops, rfl⟩ := closeLoop_some closed
    obtain ⟨_, rfl⟩ := EStateM.Result.ok.inj ((closeLoop_eq scope loops).symm.trans ok)
    exact ⟨x, _, rest, scope, loops, rfl⟩

theorem Tracks.fill_loop (tracks : Tracks base pending s row) (scope : s.scope = some x)
    (loops : x.loops = l :: rest) (leave : Bool) {a : Nat} (at_ : a ∈ bounds base.length row) :
    Tracks base pending (s.remarked x x.labels (cleared leave l :: rest)
      (fill (.ofNat a) (if leave then l.breaks else l.continues) s.writer))
      (resolveRow (loopTarget leave rest.length) a row) := by
  have marks : s.marks = (x.labels, l :: rest) := by rw [marks_of_scope scope, loops]
  have labels := tracks.labels
  rw [marks] at labels
  refine tracks.resolve (by cases leave <;> rfl) at_ ?_ (remarked_grows scope _ _ _).within ?_
    ?_ labels ?_
  · rw [marks, remarked_words, fill_words, waiting_cons]
    cases leave <;> simp [loopTarget, Session.words]
  · rw [remarked_marks, waiting_cons]
    cases leave <;> simp [loopTarget, cleared]
  · intro u open_ other
    rw [marks, remarked_marks, waiting_cons, waiting_cons]
    cases leave <;> simp_all [loopTarget, cleared]
  · intro r member
    rw [Session.rounds, marks]
    cases leave <;> exact member

theorem Tracks.closeLoop (tracks : Tracks base pending s row) (scope : s.scope = some x)
    (loops : x.loops = l :: rest) : Tracks base pending (s.remarked x x.labels rest
      (fill (.ofNat l.resume) l.continues (fill (.ofNat s.writer.ip) l.breaks s.writer)))
      (resolveRow (.again rest.length) l.resume
        (resolveRow (.exit rest.length) s.writer.ip row)) := by
  have exits := tracks.fill_loop scope loops true tracks.ip_mem
  have resume := (exits.rounds (l.start, l.resume) List.mem_cons_self).2
  have rounds := exits.fill_loop rfl rfl false resume
  exact rounds.remark rfl (within_refl _) rfl (fun t => (waiting_opened _ _ _ rfl rfl t).symm)
    fun r member => rounds.rounds r (List.mem_cons_of_mem _ member)

def Session.looping (s : Session) (x : Scope) : Session :=
  s.remarked x x.labels (⟨s.writer.ip, s.writer.ip, [], []⟩ :: x.loops) s.writer

theorem openLoop_eq (scope : s.scope = some x) :
    openLoop s = .ok ⟨x.loops.length⟩ (s.looping x) := by
  rw [openLoop, bind_ok _ (here_eq s), bind_ok _ (currentScope_eq scope)]
  rfl

/-- The loop that was opened is there for its body, which finds its start, and is closed by its
number. -/
theorem inLoop_looping {body : Nat → Compile Unit} (scope : s.scope = some x) :
    inLoop body s = (do
      let outcome ← attempt (body s.writer.ip)
      closeLoop ⟨x.loops.length⟩
      settle outcome) (s.looping x) := by
  have start : loopStart (s.looping x) = .ok s.writer.ip (s.looping x) := by
    rw [loopStart, get_bind, innermost?_eq (x := { x with loops := _ :: x.loops }) rfl rfl]
    rfl
  have found : attempt (loopStart >>= body) (s.looping x) =
      attempt (body s.writer.ip) (s.looping x) := by
    rw [attempt, attempt, bind_ok _ start]
  rw [inLoop, bind_ok _ (openLoop_eq scope)]
  change EStateM.bind _ _ _ = EStateM.bind _ _ _
  rw [EStateM.bind, EStateM.bind, found]

theorem inLoop_ok {body : Nat → Compile Unit} (ok : inLoop body s = .ok u s') :
    ∃ x t, s.scope = some x ∧ body s.writer.ip (s.looping x) = .ok () t ∧
      closeLoop ⟨x.loops.length⟩ t = .ok () s' := by
  obtain ⟨id, t, opened, -⟩ := of_bind_ok ok
  rw [openLoop, bind_ok _ (here_eq s)] at opened
  obtain ⟨x, _, current, -⟩ := of_bind_ok opened
  have scope := (currentScope_ok current).2
  rw [inLoop_looping scope] at ok
  obtain ⟨outcome, r, tried, changed⟩ := of_bind_ok ok
  obtain ⟨_, r', closed, settled⟩ := of_bind_ok changed
  obtain ⟨rfl, rfl⟩ := settle_ok settled
  exact ⟨x, r, scope, attempt_ok tried, closed⟩

theorem Tracks.openLoop (tracks : Tracks base pending s row) (scope : s.scope = some x) :
    Tracks base pending (s.looping x) row := by
  have marks := marks_of_scope scope
  refine tracks.remark rfl (remarked_grows scope _ _ _).within (by rw [marks]; rfl) (fun t => ?_) ?_
  · rw [marks, Session.looping, remarked_marks]
    exact waiting_opened _ _ _ rfl rfl t
  · refine List.forall_mem_cons.mpr ⟨⟨tracks.ip_mem, tracks.ip_mem⟩, ?_⟩
    have old := tracks.rounds
    rwa [Session.rounds, marks] at old

def Session.testing (s : Session) (x : Scope) (l : Loop) (loops : List Loop) : Session :=
  s.remarked x x.labels (noted true (s.writer.ip + 1) l :: loops)
    ((s.writer.opcode .jumpIfFalse).operand 0)

theorem emitLoopTest_eq (scope : s.scope = some x) (loops : x.loops = l :: rest) :
    emitLoopTest s = .ok () (s.testing x l rest) := by
  rw [emitLoopTest, jumping_bind, addLoopJump_eq (s := s.jumping .jumpIfFalse) scope loops]
  rfl

theorem emitLoopTest_ok (ok : emitLoopTest s = .ok u s') :
    ∃ x l rest, s.scope = some x ∧ x.loops = l :: rest ∧ s' = s.testing x l rest := by
  rw [emitLoopTest, jumping_bind] at ok
  exact addLoopJump_ok ok

theorem Tracks.append_test (tracks : Tracks base pending s row) {f : List Term}
    (scope : s.scope = some x) (loops : x.loops = l :: rest)
    (emits : Emits (s.testing x l rest) s' (partsWords [f]) 0)
    (valid : partsValid s'.references [f]) :
    Tracks base pending s' (row ++ [.jumpIfFalse (.exit rest.length) f]) := by
  have aims : (Statement.jumpIfFalse (.exit rest.length) f).target? =
      some (loopTarget true rest.length) := rfl
  refine tracks.append_noted scope loops aims ?_ emits.marks
    ((remarked_grows scope _ _ _).trans emits.grows).within valid
  have words : (s.testing x l rest).words = s.words ++ [Opcode.jumpIfFalse.word, 0] :=
    open_jump_words .jumpIfFalse s
  rw [emits.words, words]
  simp [Statement.words, Target.word]

def Session.compared (address : Nat) (s : Session) : Session :=
  Session.closed address { s with writer := s.writer.opcode (.binary (.relation .lessOrEqual)) }

theorem limit_emits {c : Option Constant} (loaded : emitVariable counter s.opened = .ok u r)
    (outcome : Outcome r t c limit) :
    Emits s (t.compared s.writer.ip) (partsWords [limitTest counter limit .lessOrEqual]) 0 ∧
      Called s t ∧ t.load ≤ s.load ∧ t.writer.ip + 1 = (t.compared s.writer.ip).writer.ip := by
  obtain ⟨head, load⟩ := emitWith_emits loaded
  have called : Called s t := by
    cases loaded
    exact outcome.writes.called
  have emits := closed_emits ((head.trans outcome.writes.emits).trans
    (opcode_emits (.binary (.relation .lessOrEqual)) t))
  refine ⟨?_, called, ?_, ?_⟩
  · rw [limitTest_words]
    have count : 1 + limit.length + 1 = limit.length + 2 := by omega
    rwa [count] at emits
  · have : s.opened.load = s.load := rfl
    have := outcome.load
    omega
  · have outer : t.writer.outer = s.writer.count :: s.writer.outer := by
      have quiet := (head.trans outcome.writes.emits).quiet
      simp only [Session.quiet, Prod.mk.injEq] at quiet
      exact quiet.2.2.2.2.2.1
    simp [Session.compared, Session.closed, CodeWriter.patch, CodeWriter.replace,
      CodeWriter.closeScope, CodeWriter.opcode, outer, CodeWriter.ip]

theorem limit_ok (ok : counted (do
      emitVariable counter
      let _ ← openFormula
      emit (.binary (.relation .lessOrEqual))) s = .ok test s') :
    ∃ e limit, Derives .choice s.left s'.left e ∧ Renders s'.literals e limit ∧
      Emits s s' (partsWords [limitTest counter limit .lessOrEqual]) 0 ∧ Called s s' ∧
      Pushes limit ∧ termsValid s'.references limit ∧
      Fills s.literals s'.literals (termsLiterals limit) ∧ s'.load ≤ s.load ∧
      test + 1 = s'.writer.ip := by
  obtain ⟨t, ran, rfl⟩ := counted_ok ok
  obtain ⟨_, s₁, loaded, ran⟩ := of_bind_ok ran
  obtain ⟨c, s₂, limited, ran⟩ := of_bind_ok ran
  obtain ⟨rfl, rfl⟩ := EStateM.Result.ok.inj ((emit_eq _ _).symm.trans ran)
  obtain ⟨e, limit, derives, composed⟩ := openFormula_composes _ _ _ limited
  obtain ⟨emits, called, load, last⟩ := limit_emits loaded composed.toOutcome
  rw [Still.left (still_emitWith _ _) loaded] at derives
  refine ⟨e, limit, derives, composed.renders, emits, called, composed.pushes,
    composed.writes.valid, ?_, load, last⟩
  cases loaded
  exact composed.writes.fills

theorem limit_valid (op : Relation) (target : s.references.target counter) (pushes : Pushes limit)
    (valid : termsValid s.references limit) :
    partsValid s.references [limitTest counter limit op] := by
  refine partsValid_single (pushes_binary _ (pushes_load counter) pushes) ?_
  refine termsValid_append.mpr ⟨termsValid_append.mpr ⟨?_, valid⟩, ?_⟩
  · simp only [termsValid, Term.Valid, and_true]
    exact target.1
  · simp only [termsValid, Term.Valid, and_true]

theorem limit_patched {op op' : Relation}
    (emits : Emits s s' (partsWords [limitTest counter limit op]) k)
    (last : test + 1 = s'.writer.ip) :
    Emits s { s' with writer := s'.writer.patchOpcode test (.binary (.relation op')) }
      (partsWords [limitTest counter limit op']) k := by
  refine ⟨⟨emits.grows.functions, emits.grows.calls, emits.grows.globals, emits.grows.literals,
    emits.grows.scope⟩, emits.quiet, ?_, emits.count⟩
  have words := emits.words
  rw [limitTest_words, ← List.append_assoc] at words
  rw [limitTest_words, ← List.append_assoc, Session.words, CodeWriter.patchOpcode, replace_words]
  change s'.words.set test _ = _
  rw [← words_length, words, List.length_append, List.length_singleton, Nat.succ.injEq] at last
  rw [words, last, set_kept]

theorem stepValue_ok {v : Value} (ok : stepValue s = .ok v s') :
    Reads s s' ∧ s'.load ≤ s.load ∧ v.isList = false ∧
      ∃ e, ExpressesStep s.left s'.left e ∧ e.value? = some v := by
  obtain ⟨found, t, accepted, ok⟩ := of_bind_ok ok
  have keyword := accept_reads accepted
  obtain ⟨given, missing⟩ := accept_left accepted (by decide)
  split at ok
  · rename_i yes
    obtain ⟨negative, r, sign, ok⟩ := of_bind_ok ok
    obtain ⟨tok, r₁, taken, ok⟩ := of_bind_ok ok
    have minus_reads := accept_reads sign
    have token_reads := nextToken_reads taken
    obtain ⟨minus, plus⟩ := accept_left sign (by decide)
    split at ok
    · rename_i number
      have number : tok.kind = .integer ∨ tok.kind = .float := by simpa using number
      have solid : tok.kind ≠ .endOfFile := by
        rintro last
        simp [last] at number
      obtain ⟨w, literal⟩ : ∃ w, tok.literal? = some w := by
        rcases number with kind | kind <;> simp [Token.literal?, kind]
      have same : s' = r₁ ∧ v = if negative then UnaryOp.negate.apply w else w := by
        dsimp only at ok
        rw [literal, Option.getD_some] at ok
        generalize (if negative = true then _ else _) = value at ok ⊢
        by_cases zero : value.compare .zero = .eq
        · simp only [zero, ↓reduceIte] at ok
          cases ok
        · simp only [zero, ↓reduceIte] at ok
          cases ok
          exact ⟨rfl, rfl⟩
      obtain ⟨rfl, rfl⟩ := same
      have token := nextToken_left taken solid
      refine ⟨(keyword.1.trans minus_reads.1).trans token_reads.1, by omega, ?_⟩
      cases negative with
      | true =>
        exact ⟨UnaryOp.negate.apply_isList w, _,
          .down (given yes) (token ▸ minus rfl) number literal, rfl⟩
      | false =>
        exact ⟨Token.literal?_isList literal, _, .up (token ▸ plus rfl ▸ given yes) number literal,
          rfl⟩
    · obtain ⟨_, _, _, ok⟩ := of_bind_ok ok
      cases ok
  · rename_i no
    cases ok
    rw [missing (by simpa using no)]
    exact ⟨keyword.1, keyword.2, rfl, _, .none, rfl⟩

theorem intern_emits {v : Value} (atom : v.isList = false) (ok : intern v s = .ok place s') :
    Emits s s' [] 0 ∧ s'.load = s.load ∧ s'.functions = s.functions ∧
      ∃ i w, place = .ofNat i ∧ s'.literals[i]? = some w ∧ StandsFor w v ∧
        Fills s.literals s'.literals [i] := by
  obtain ⟨i, w, more, rfl, found, stands, rest, pool, new, fills⟩ := intern_ok ok
  generalize s'.literals = literals at *
  subst rest
  have grown : ∃ more, literals.toList = s.literals.toList ++ more ∧ ∀ v ∈ more, v.isList = false :=
    ⟨more.toList, by simp [pool], fun u member => new u member ▸ atom⟩
  exact ⟨⟨⟨⟨[], by simp⟩, ⟨[], by simp⟩, rfl, grown, scope_rel_refl _⟩, rfl, by
    simp [Session.words], by simp⟩, rfl, rfl, i, w, rfl, found, stands, fills⟩

theorem increment_valid {place : Nat} (target : s.references.target counter) {w : Value}
    (found : s.literals[place]? = some w) : (increment counter place).Valid s.references := by
  refine ⟨target, partsValid_single (fun h => rfl) ?_⟩
  simp only [termsValid, Term.Valid, and_true]
  exact ⟨target.1, (Array.getElem?_eq_some_iff.mp found).1⟩

theorem emitWith_functions {op : Opcode} {w : UInt32} (ok : emitWith op w s = .ok u s') :
    s'.functions = s.functions := by
  cases ok
  rfl

theorem increment_emits {step : Value} (atom : step.isList = false)
    (interned : intern step s = .ok place r) (written : emitWith .assign counter.pack r = .ok u t)
    (ok : counted (do
      emitVariable counter
      emitWith .literal place
      discard (emit (.binary (.arithmetic .add)))) t = .ok v s') :
    ∃ i w, s'.literals[i]? = some w ∧ StandsFor w step ∧
      Emits s s' (increment counter i).words 1 ∧ s'.functions = s.functions ∧ s'.load ≤ s.load ∧
      Fills s.literals s'.literals (partsLiterals (increment counter i).parts) := by
  obtain ⟨pool, load₁, functions, i, w, rfl, found, stands, fills⟩ := intern_emits atom interned
  obtain ⟨head, load₂⟩ := emitWith_emits written
  obtain ⟨t₃, ran, rfl⟩ := counted_ok ok
  obtain ⟨_, t₁, loaded, ran⟩ := of_bind_ok ran
  obtain ⟨_, t₂, literal, ran⟩ := of_bind_ok ran
  obtain ⟨_, ran⟩ := of_discard_ok ran
  obtain ⟨_, rfl⟩ := EStateM.Result.ok.inj ((emit_eq _ _).symm.trans ran)
  obtain ⟨first, load₃⟩ := emitWith_emits loaded
  obtain ⟨second, load₄⟩ := emitWith_emits literal
  have value := closed_emits ((first.trans second).trans
    (opcode_emits (.binary (.arithmetic .add)) t₂))
  have emits := (pool.trans head).trans value
  rw [List.nil_append, Nat.zero_add] at emits
  refine ⟨i, w, (head.trans value).grows.literal_of found, stands,
    increment_words counter i ▸ emits, ?_, ?_, ?_⟩
  · change t₂.functions = s.functions
    rw [emitWith_functions literal, emitWith_functions loaded]
    change t.functions = s.functions
    rw [emitWith_functions written, functions]
  · change t₂.load ≤ s.load
    have : t.opened.load = t.load := rfl
    omega
  · rw [increment_literals]
    cases written
    cases loaded
    cases literal
    exact fills

def Session.resumed (s : Session) (x : Scope) (l : Loop) (rest : List Loop) : Session :=
  s.remarked x x.labels ({ l with resume := s.writer.ip } :: rest) s.writer

theorem Tracks.resumed (tracks : Tracks base pending s row) (scope : s.scope = some x)
    (loops : x.loops = l :: rest) : Tracks base pending (s.resumed x l rest) row := by
  have marks : s.marks = (x.labels, l :: rest) := by rw [marks_of_scope scope, loops]
  refine tracks.remark rfl (remarked_grows scope _ _ _).within (by rw [marks]; rfl) (fun t => ?_) ?_
  · rw [marks, Session.resumed, remarked_marks, waiting_cons, waiting_cons]
  · have old := tracks.rounds
    rw [Session.rounds, marks] at old
    obtain ⟨here_, outside⟩ := List.forall_mem_cons.mp old
    exact List.forall_mem_cons.mpr ⟨⟨here_.1, tracks.ip_mem⟩, outside⟩

def roundEnd (counter : Address) (body : Compile Unit) (start : Nat) (step : Value) :
    Compile Unit := do
  body
  let resume ← here
  modifyScope (·.modifyLoop fun l => { l with resume })
  let place ← intern step
  emitWith .assign counter.pack
  counted do
    emitVariable counter
    emitWith .literal place
    discard (emit (.binary (.arithmetic .add)))
  emitWith .jump (UInt32.ofNat start)

end Scriptlet.Compile
