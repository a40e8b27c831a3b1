import Scriptlet.Proofs.Rules.Contract

/-!
The basic steps of compiling keep a session orderly: reading, reporting, skipping what failed,
writing and looking up names.
-/
namespace Scriptlet.Compile

open Actions Source

variable {α β : Type} {b : Terms} {stops : Stop → Session → Prop} {fails : Diagnostic → Prop}
  {s t : Session} {kind : Token.Kind} {address : Nat} {tok name : Token} {p : Problem}
  {d : Diagnostic} {yields : α → Session → Prop} {a : α} {isOpcode : Bool}

theorem Reads.onward (reads : Reads s t) (ahead : t.tokens.ahead ≤ s.tokens.ahead)
    (flawed : s.tokens.Flawed → t.tokens.Flawed) : Onward s t := by
  obtain ⟨tokens, line, rfl⟩ := reads
  exact { Onward.refl s with ahead, flawed := Or.imp id flawed }

theorem Reads.orderly (reads : Reads s t) (ahead : t.tokens.ahead ≤ s.tokens.ahead)
    (neat : t.tokens.Neat) (lined : t.Lined b.source) (orderly : Orderly b s) : Orderly b t := by
  obtain ⟨tokens, line, rfl⟩ := reads
  exact { orderly with
    tokens := neat
    lined
    room := Nat.lt_of_le_of_lt (Nat.succ_le_succ ahead) orderly.room
    enough := Nat.lt_of_le_of_lt (Nat.succ_le_succ ahead) orderly.enough }

theorem Reads.concludes (reads : Reads s t) (ahead : t.tokens.ahead ≤ s.tokens.ahead)
    (neat : t.tokens.Neat) (flawed : s.tokens.Flawed → t.tokens.Flawed) (lined : t.Lined b.source)
    (orderly : Orderly b s) (given : yields a t) :
    Concludes b stops yields s (.ok a t) (.ok a (t.granted b)) :=
  .ok (reads.onward ahead flawed) (reads.orderly ahead neat lined orderly) given

structure Took (b : Terms) (s : Session) (tok : Token) (t : Session) : Prop where
  reads : Reads s t
  free : t.tokens.pushed = none
  spent : t.tokens.ahead + tok.cost ≤ s.tokens.ahead
  last : tok.kind = .endOfFile → t.tokens.rest = []
  flawed : s.tokens.Flawed → t.tokens.Flawed
  ranked : ∃ n, tok.line = .ofNat n ∧ Ranked b.source n t.writer t.tokens

theorem Took.known (took : Took b s tok t) : Known b.source tok.line := by
  obtain ⟨n, same, ranked⟩ := took.ranked
  exact ⟨n, ranked.starts, same⟩

def Session.Facing (s : Session) (kind : Token.Kind) : Prop :=
  ∃ tok, s.tokens.pushed = some tok ∧ tok.kind = kind

theorem nextToken_concludes (orderly : Orderly b s) : Finishes b stops (Took b s) s nextToken := by
  have reads : Reads s { s with
      tokens := s.tokens.next.2, writer := s.writer.setLine s.tokens.next.1.line } := ⟨_, _, rfl⟩
  have spent := s.tokens.next_ahead
  obtain ⟨-, further⟩ := orderly.lined.tokens.next
  obtain ⟨line, ranked⟩ := orderly.lined.code
  obtain ⟨ps, below⟩ := ranked.below
  obtain ⟨n, same, ranked⟩ := ranked.read below.next
  exact reads.concludes (Nat.le_of_add_right_le spent) orderly.tokens.next (·.next)
    (orderly.lined.read further ranked) orderly
    ⟨reads, s.tokens.next_pushed, spent, orderly.tokens.next_end, (·.next), n, same, ranked⟩

theorem nextPastBreaks_concludes (orderly : Orderly b s) :
    Finishes b stops (Took b s) s nextPastBreaks := by
  have reads : Reads s { s with
      tokens := s.tokens.nextPastBreaks.2,
      writer := s.writer.setLine s.tokens.nextPastBreaks.1.line } := ⟨_, _, rfl⟩
  have spent := s.tokens.nextPastBreaks_ahead
  obtain ⟨-, further⟩ := orderly.lined.tokens.nextPastBreaks
  obtain ⟨line, ranked⟩ := orderly.lined.code
  obtain ⟨ps, below⟩ := ranked.below
  obtain ⟨n, same, ranked⟩ := ranked.read below.nextPastBreaks
  exact reads.concludes (Nat.le_of_add_right_le spent) orderly.tokens.nextPastBreaks
    (·.nextPastBreaks) (orderly.lined.read further ranked) orderly
    ⟨reads, s.tokens.nextPastBreaks_pushed, spent, orderly.tokens.nextPastBreaks_end,
      (·.nextPastBreaks), n, same, ranked⟩

theorem unget_concludes (orderly : Orderly b s) (calm : Orderly b t) (took : Took b s tok t) :
    Concludes b stops (fun _ u => Reads s u) s (unget tok t) (unget tok (t.granted b)) := by
  have back : Reads t { t with tokens := t.tokens.unget tok } := ⟨_, t.writer.line, rfl⟩
  have ahead : (t.tokens.unget tok).ahead ≤ s.tokens.ahead :=
    Nat.le_trans (t.tokens.unget_ahead tok) took.spent
  obtain ⟨n, same, ranked⟩ := took.ranked
  obtain ⟨ps, below⟩ := ranked.below
  have lined := calm.lined.read (calm.lined.tokens.unget took.known)
    (ranked.of_below ⟨ps, below.unget ranked.starts same (Nat.le_refl _)⟩)
  exact (took.reads.trans back).concludes ahead (calm.tokens.unget took.free took.last)
    took.flawed lined orderly (took.reads.trans back)

theorem peekKind_concludes (orderly : Orderly b s) :
    Finishes b stops (fun kind t => Reads s t ∧ t.Facing kind) s peekKind := by
  have reads : Reads s { s with tokens := s.tokens.peek.2 } := ⟨_, s.writer.line, rfl⟩
  obtain ⟨known, further⟩ := orderly.lined.tokens.next
  obtain ⟨line, ranked⟩ := orderly.lined.code
  obtain ⟨ps, below⟩ := ranked.below
  obtain ⟨n, starts, same, after, qs, behind⟩ := below.next
  have lined := orderly.lined.read (further.unget known)
    (ranked.of_below ⟨qs, behind.unget starts same after⟩)
  exact reads.concludes s.tokens.peek_ahead orderly.tokens.peek (·.next) lined orderly
    ⟨reads, _, rfl, rfl⟩

theorem Session.Facing.next (facing : s.Facing kind) (solid : kind ≠ .endOfFile)
    (orderly : Orderly b s) :
    Finishes b stops (fun _ t => Reads s t ∧ t.tokens.ahead < s.tokens.ahead) s nextToken := by
  obtain ⟨tok, pushed, same⟩ := facing
  have taken : s.tokens.next.1 = tok := by rw [TokenStream.next, pushed]
  have spent := s.tokens.next_ahead
  rw [taken, cost_of_kind same solid] at spent
  have concludes : Concludes b (fun _ _ => False) (Took b s) s _ _ := nextToken_concludes orderly
  obtain ⟨onward, calm, took⟩ := concludes.of_ok rfl
  exact .ok onward calm ⟨took.reads, spent⟩

theorem Session.Facing.take (facing : s.Facing kind) (solid : kind ≠ .endOfFile)
    (orderly : Orderly b s) :
    Finishes b stops (fun _ t => Reads s t ∧ t.tokens.ahead < s.tokens.ahead) s
      (Functor.discard nextToken) :=
  (facing.next solid orderly).discard fun _ _ _ given => given

theorem accept_concludes (solid : kind ≠ .endOfFile) (orderly : Orderly b s) :
    Finishes b stops (fun found t => Reads s t ∧ (found = true → t.tokens.ahead < s.tokens.ahead)) s
      (accept kind) := by
  unfold accept
  apply (peekKind_concludes orderly).bind
  rintro ahead t onward tidy ⟨reads, facing⟩
  split
  · rename_i same
    subst same
    apply (facing.next solid tidy).after onward
    rintro _ u onward' calm ⟨further, shorter⟩
    exact .ok (onward.trans onward') calm
      ⟨reads.trans further, fun _ => Nat.lt_of_lt_of_le shorter onward.ahead⟩
  · exact .ok onward tidy ⟨reads, fun found => nomatch found⟩

theorem refuse_concludes (ordinary : p.isOrdinary = true) (orderly : Orderly b s)
    (calm : Orderly b t) (took : Took b s tok t) :
    Concludes b (Halts b Diagnostic.Ordinary) yields s (refuse p tok t)
      (refuse p tok (t.granted b)) :=
  (unget_concludes orderly calm took).andThen fun _ _ _ calm _ =>
    .fail calm took.known ⟨rfl, ordinary⟩

theorem expect_concludes (ordinary : p.isOrdinary = true) (orderly : Orderly b s) :
    Finishes b (Halts b Diagnostic.Ordinary) (fun tok t => Took b s tok t ∧ tok.kind = kind) s
      (expect kind p) := by
  unfold expect
  apply (nextToken_concludes orderly).bind
  intro tok t onward calm took
  split
  · rename_i same
    exact .ok onward calm ⟨took, same⟩
  · exact refuse_concludes ordinary orderly calm took

theorem discard_expect_concludes (ordinary : p.isOrdinary = true) (solid : kind ≠ .endOfFile)
    (orderly : Orderly b s) :
    Finishes b (Halts b Diagnostic.Ordinary) (fun _ t => Reads s t ∧
      t.tokens.ahead < s.tokens.ahead) s (discard (expect kind p)) :=
  (expect_concludes ordinary orderly).discard fun tok t _ ⟨took, same⟩ => ⟨took.reads, by
    have spent := took.spent
    rwa [cost_of_kind same solid] at spent⟩

theorem declaredName_concludes (orderly : Orderly b s) :
    Finishes b (Halts b Diagnostic.Ordinary) (fun tok t => Took b s tok t ∧
      t.tokens.ahead < s.tokens.ahead) s declaredName := by
  unfold declaredName
  apply (expect_concludes rfl orderly).bind
  rintro tok t onward calm ⟨took, same⟩
  split
  · exact (Concludes.fail calm took.known ⟨rfl, rfl⟩).rebase onward
  · have spent := took.spent
    rw [cost_of_kind same (by decide)] at spent
    exact .ok onward calm ⟨took, spent⟩

theorem record_eq (mild : d.isFatal = false) (s : Session) :
    record d s =
      if s.maxErrors < (s.errors.push d).size then
        .error .abort { s with
          errors := (s.errors.push d).push (Diagnostic.fatal .tooManyErrors s.tokens.line) }
      else .ok () { s with errors := s.errors.push d } := by
  rw [record, pushError, modify_bind, mild]
  simp only [Bool.false_eq_true, ↓reduceIte]
  rw [get_bind]
  split
  · rfl
  · rfl

theorem recorded_onward (s : Session) (errors : Array Diagnostic) (d : Diagnostic) :
    Onward s { s with errors := errors.push d } :=
  { Onward.refl s with flawed := fun _ => Or.inl (by simp) }

theorem record_concludes (ordinary : d.Ordinary) (known : Known b.source d.line)
    (orderly : Orderly b s) (drained : s.tokens.errors = #[]) :
    Finishes b (Halts b fails) (fun _ t => t.tokens = s.tokens ∧ t.errors ≠ #[]) s (record d) := by
  have recorded : ∀ e ∈ s.errors.push d, e.Ordinary := by
    intro e member
    rcases Array.mem_push.mp member with old | rfl
    · exact orderly.recorded e old
    · exact ordinary
  have few := orderly.few
  rw [Finishes, record_eq ordinary.not_fatal, record_eq ordinary.not_fatal]
  by_cases many : s.maxErrors < (s.errors.push d).size
  · simp only [Session.granted, many, ↓reduceIte]
    have size : (s.errors.push d).size = s.maxErrors + 1 := by
      rw [Array.size_push] at many ⊢
      omega
    have beyond : Exceeded { s with
        errors := (s.errors.push d).push (Diagnostic.fatal .tooManyErrors s.tokens.line) } :=
      ⟨drained, s.errors.push d, recorded, size, rfl⟩
    exact .error (recorded_onward s _ _) { orderly with lined := orderly.lined.exceed known }
      (.abort beyond)
  · simp only [Session.granted, many, ↓reduceIte]
    have calm : Orderly b { s with errors := s.errors.push d } :=
      { orderly with lined := orderly.lined.push known, recorded, few := Nat.not_lt.mp many }
    exact .ok (recorded_onward s _ _) calm ⟨rfl, by simp⟩

theorem forM_record_concludes {ds : List Diagnostic} (ordinary : ∀ d ∈ ds, d.Ordinary)
    (known : ∀ d ∈ ds, Known b.source d.line) :
    ∀ {s : Session}, Orderly b s → s.tokens.errors = #[] →
      Finishes b (Halts b fun _ => False) (fun _ t => t.tokens.errors = #[] ∧
        (ds ≠ [] ∨ s.errors ≠ #[] → t.errors ≠ #[])) s (ds.forM record) := by
  induction ds with
  | nil => exact fun orderly drained => .pure orderly ⟨drained, fun some_ => by simpa using some_⟩
  | cons d ds ih =>
    intro s orderly drained
    apply (record_concludes (ordinary d (by simp)) (known d (by simp)) orderly drained).andThen
    rintro _ t _ calm ⟨same, recorded⟩
    apply (ih (fun e member => ordinary e (by simp [member]))
      (fun e member => known e (by simp [member])) calm (by rw [same, drained])).weaken
    rintro _ u _ ⟨drained', kept⟩
    exact ⟨drained', fun _ => kept (Or.inr recorded)⟩

theorem Exceeded.recorded (exceeded : Exceeded s) : s.errors ≠ #[] := by
  obtain ⟨ds, -, -, errors⟩ := exceeded.errors
  simp [errors]

theorem Onward.of_drained (onward : Onward { s with tokens := { s.tokens with errors := #[] } } t)
    (recorded : s.tokens.errors ≠ #[] → t.errors ≠ #[]) : Onward s t := by
  refine { onward with flawed := ?_ }
  rintro (before | met | ahead)
  · exact onward.flawed (Or.inl before)
  · exact Or.inl (recorded met)
  · exact onward.flawed (Or.inr (Or.inr ahead))

theorem Concludes.of_drained {r r' : EStateM.Result Stop Session α}
    (concludes : Concludes b (Halts b fun _ => False)
      (fun _ t => t.tokens.errors = #[] ∧ (s.tokens.errors.toList ≠ [] ∨ s.errors ≠ #[] →
        t.errors ≠ #[]))
      { s with tokens := { s.tokens with errors := #[] } } r r') :
    Concludes b (Halts b fails) (fun _ t => t.tokens.errors = #[]) s r r' := by
  cases concludes with
  | ok onward calm given =>
    refine .ok (onward.of_drained fun met => given.2 (Or.inl ?_)) calm given.1
    exact fun none_ => met (Array.toList_eq_nil_iff.mp none_)
  | error onward coherent halts =>
    cases halts with
    | error _ _ never => exact never.elim
    | abort exceeded =>
      exact .error (onward.of_drained fun _ => exceeded.recorded) coherent (.abort exceeded)

theorem flush_concludes (orderly : Orderly b s) :
    Finishes b (Halts b fails) (fun _ t => t.tokens.errors = #[]) s flush := by
  have reads : Reads s { s with tokens := { s.tokens with errors := #[] } } :=
    ⟨_, s.writer.line, rfl⟩
  have neat : ({ s.tokens with errors := #[] } : TokenStream).Neat :=
    ⟨orderly.tokens.lost, by simp, orderly.tokens.ended⟩
  have ordinary : ∀ d ∈ s.tokens.errors.toList, d.Ordinary := by
    intro d member
    exact orderly.tokens.errors d (Array.mem_toList_iff.mp member)
  have known : ∀ d ∈ s.tokens.errors.toList, Known b.source d.line := by
    intro d member
    exact orderly.lined.tokens.errors d (Array.mem_toList_iff.mp member)
  obtain ⟨line, ranked⟩ := orderly.lined.code
  obtain ⟨ps, below⟩ := ranked.below
  have lined : Session.Lined b.source { s with tokens := { s.tokens with errors := #[] } } :=
    orderly.lined.read ⟨orderly.lined.tokens.reached_of rfl rfl,
      orderly.lined.tokens.pushed, by simp⟩
    (ranked.of_below ⟨ps, below.reached.of_same rfl rfl, below.after, below.pushed⟩)
  exact (forM_record_concludes ordinary known (reads.orderly (Nat.le_refl _) neat lined orderly)
    rfl).of_drained

theorem report_concludes (ordinary : d.Ordinary) (known : Known b.source d.line)
    (orderly : Orderly b s) :
    Finishes b (Halts b fails) (fun _ _ => True) s (report d) :=
  (flush_concludes orderly).andThen fun _ _ _ calm drained =>
    (record_concludes ordinary known calm drained).weaken fun _ _ _ _ => trivial

theorem skipStatement_concludes : ∀ {n m : Nat} {s : Session}, Orderly b s → s.tokens.ahead < n →
    s.tokens.ahead < m →
    Concludes b stops (fun _ t => Reads s t) s (skipStatement n s)
      (skipStatement m (s.granted b)) := by
  intro n
  induction n with
  | zero => exact fun _ none_ => absurd none_ (Nat.not_lt_zero _)
  | succ n ih =>
    intro m s orderly room room'
    obtain _ | m := m
    · omega
    unfold skipStatement
    apply (peekKind_concludes orderly).bind
    rintro kind t onward calm ⟨reads, facing⟩
    -- a token other than the end of the file is taken, and skipping goes on
    have further (solid : kind ≠ .endOfFile) :
        Concludes b stops (fun _ u => Reads s u) s ((do discard nextToken; skipStatement n) t)
          ((do discard nextToken; skipStatement m) (t.granted b)) := by
      have ahead := onward.ahead
      apply (facing.take solid calm).after onward
      rintro _ u onward' calm' ⟨reads', shorter⟩
      apply (ih calm' (by omega) (by omega)).rebase (onward.trans onward') |>.weaken
      intro _ v _ reads''
      exact (reads.trans reads').trans reads''
    split
    · exact .ok onward calm reads
    · exact .ok onward calm reads
    · apply ((facing.take (by decide) calm).rebase onward).weaken
      intro _ u _ given
      exact reads.trans given.1
    · exact .ite (fun _ => .ok onward calm reads) fun _ => further (by decide)
    · exact further (by assumption)

theorem recover_concludes {x y : Compile Unit} {yields : Unit → Session → Prop}
    (runs : Concludes b (Halts b Diagnostic.Ordinary) yields s (x t) (y (t.granted b))) :
    Concludes b (Halts b fails) (fun _ _ => True) s (recover x t) (recover y (t.granted b)) := by
  apply runs.attempt
  · intro _ u onward calm _
    exact .ok onward calm trivial
  · intro stop u onward coherent halts
    cases halts with
    | abort exceeded => exact .error onward coherent (.abort exceeded)
    | error calm known ordinary =>
      apply ((report_concludes ordinary known calm).rebase onward).andThen
      intro _ v _ calm' _
      have room := calm'.room
      have enough := calm'.enough
      exact (skipStatement_concludes calm' (by omega)
        (by show v.tokens.ahead < b.budget; omega)).weaken fun _ _ _ _ => trivial

/-- Words of these kinds are appended. What is ahead and what waits for a target stays. -/
structure Adds (s : Session) (new : List Bool) (t : Session) : Prop where
  kinds : t.kinds = s.kinds ++ new
  pending : t.pending = s.pending
  tokens : t.tokens = s.tokens

theorem kinds_length (s : Session) : s.kinds.length = s.writer.ip := by
  simp [Session.kinds, CodeWriter.ip]

theorem writer_concludes {writer : CodeWriter} {new : List Bool} (orderly : Orderly b s)
    (kinds : ({ s with writer } : Session).kinds = s.kinds ++ new)
    (outer : writer.outer = s.writer.outer) (missed : writer.missed = s.writer.missed)
    (ranked : ∀ {line}, Ranked b.source line s.writer s.tokens →
      Ranked b.source line writer s.tokens)
    (given : Adds s new { s with writer } → yields a { s with writer }) :
    Concludes b stops yields s (.ok a { s with writer })
      (.ok a (({ s with writer } : Session).granted b)) := by
  have onward : Onward s { s with writer } :=
    { Onward.refl s with kinds := ⟨new, kinds.symm⟩, outer }
  have calm : Orderly b { s with writer } :=
    { orderly with
      missed := missed.trans orderly.missed
      pending := fun a waits => onward.kind (orderly.pending a waits)
      lined := orderly.lined.write ranked }
  exact .ok onward calm (given ⟨kinds, rfl, rfl⟩)

theorem opcode_kinds (op : Opcode) (s : Session) :
    ({ s with writer := s.writer.opcode op } : Session).kinds = s.kinds ++ [true] := by
  simp [Session.kinds, CodeWriter.opcode]

theorem operand_kinds (word : UInt32) (s : Session) :
    ({ s with writer := s.writer.operand word } : Session).kinds = s.kinds ++ [false] := by
  simp [Session.kinds, CodeWriter.operand]

theorem emit_concludes (op : Opcode) (orderly : Orderly b s) :
    Finishes b stops (fun a t => Adds s [true] t ∧ t.kinds[a]? = some true) s (emit op) :=
  writer_concludes orderly (opcode_kinds op s) rfl rfl (·.opcode) fun adds =>
    ⟨adds, by rw [opcode_kinds, ← kinds_length]; simp⟩

theorem emitOperand_concludes (word : UInt32) (orderly : Orderly b s) :
    Finishes b stops (fun a t => Adds s [false] t ∧ t.kinds[a]? = some false) s
      (emitOperand word) :=
  writer_concludes orderly (operand_kinds word s) rfl rfl (·.operand) fun adds =>
    ⟨adds, by rw [operand_kinds, ← kinds_length]; simp⟩

theorem emitWith_concludes (op : Opcode) (word : UInt32) (orderly : Orderly b s) :
    Finishes b stops (fun _ t => Adds s [true, false] t) s (emitWith op word) :=
  writer_concludes orderly (by simp [Session.kinds, CodeWriter.opcode, CodeWriter.operand]) rfl rfl
    (·.opcode.operand) id

theorem replace_kinds (isOpcode : Bool) (address : Nat) (word : UInt32) (s : Session) :
    ({ s with writer := s.writer.replace isOpcode address word } : Session).kinds = s.kinds := by
  rw [Session.kinds, CodeWriter.replace, Array.toList_modify, Session.kinds]
  generalize s.writer.entries.toList = entries
  induction entries generalizing address with
  | nil => simp
  | cons e entries ih =>
    cases address with
    | zero => simp
    | succ n => simpa using ih n

theorem has_of_kind (there : s.kinds[address]? = some isOpcode) :
    s.writer.has isOpcode address = true := by
  rw [Session.kinds, List.getElem?_map, Array.getElem?_toList] at there
  obtain ⟨e, found, same⟩ := Option.map_eq_some_iff.mp there
  simp [CodeWriter.has, found, same]

theorem replace_concludes (word : UInt32) (orderly : Orderly b s)
    (there : s.kinds[address]? = some isOpcode) :
    Finishes b stops (fun _ t => Adds s [] t) s (modifyWriter (·.replace isOpcode address word)) :=
  writer_concludes orderly ((replace_kinds isOpcode address word s).trans (List.append_nil _).symm)
    rfl (by simp [CodeWriter.replace, has_of_kind there]) (·.replace) id

theorem patchAddress_concludes (target : Nat) (orderly : Orderly b s)
    (there : s.kinds[address]? = some false) :
    Finishes b stops (fun _ t => Adds s [] t) s (patchAddress address target) :=
  replace_concludes _ orderly there

theorem patchOpcode_concludes (op : Opcode) (orderly : Orderly b s)
    (there : s.kinds[address]? = some true) :
    Finishes b stops (fun _ t => Adds s [] t) s (patchOpcode address op) :=
  replace_concludes _ orderly there

theorem forM_patchAddress_concludes {addresses : List Nat} (target : Nat) :
    ∀ {s : Session}, Orderly b s → (∀ a ∈ addresses, s.kinds[a]? = some false) →
      Finishes b stops (fun _ t => Adds s [] t) s
        (addresses.forM (fun a => patchAddress a target)) := by
  induction addresses with
  | nil => exact fun orderly _ => .pure orderly ⟨by simp, rfl, rfl⟩
  | cons a addresses ih =>
    intro s orderly there
    apply (patchAddress_concludes target orderly (there a (by simp))).bind
    intro _ t onward calm adds
    apply (ih calm fun a member => onward.kind (there a (by simp [member]))).rebase onward |>.weaken
    intro _ u _ further
    exact ⟨by rw [further.kinds, adds.kinds]; simp, further.pending.trans adds.pending,
      further.tokens.trans adds.tokens⟩

theorem here_concludes (orderly : Orderly b s) :
    Finishes b stops (fun a t => t = s ∧ a = s.writer.ip) s here :=
  .ok (.refl s) orderly ⟨rfl, rfl⟩

/-- The part of a session that being orderly is about. -/
def Session.core (s : Session) := (s.tokens, s.writer, s.scope, s.errors, s.maxErrors, s.budget)

theorem core_concludes (orderly : Orderly b s) (same : t.core = s.core)
    (calls : ∀ c ∈ t.calls, Known b.source c.line)
    (functions : s.functions.length ≤ t.functions.length) (given : Adds s [] t → yields a t) :
    Concludes b stops yields s (.ok a t) (.ok a (t.granted b)) := by
  simp only [Session.core, Prod.mk.injEq] at same
  obtain ⟨tokens, writer, scope, errors, maxErrors, budget⟩ := same
  have kinds : t.kinds = s.kinds := by rw [Session.kinds, writer, Session.kinds]
  have pending : t.pending = s.pending := by rw [Session.pending, scope, Session.pending]
  have depth : t.depth = s.depth := by rw [Session.depth, scope, Session.depth]
  have onward : Onward s t :=
    ⟨budget, maxErrors, by simp [tokens], by simp [kinds], by rw [writer], depth, functions,
      by rw [Session.Flawed, Session.Flawed, errors, tokens]; exact id⟩
  have lined : t.Lined b.source :=
    ⟨by rw [tokens]; exact orderly.lined.tokens, by rw [scope]; exact orderly.lined.scope, calls,
      by rw [errors]; exact orderly.lined.errors, by rw [writer, tokens]; exact orderly.lined.code⟩
  have calm : Orderly b t :=
    ⟨⟨by rw [tokens]; exact orderly.tokens, by rw [writer]; exact orderly.missed,
      by rw [pending, kinds]; exact orderly.pending, lined⟩, by rw [errors]; exact orderly.recorded,
      by rw [errors, maxErrors]; exact orderly.few, by rw [tokens, budget]; exact orderly.room,
      by rw [tokens]; exact orderly.enough⟩
  exact .ok onward calm (given ⟨by rw [kinds, List.append_nil], pending, tokens⟩)

theorem modify_concludes (f : Session → Session) (orderly : Orderly b s)
    (granted : f (s.granted b) = (f s).granted b) (same : (f s).core = s.core)
    (calls : (f s).calls = s.calls) (functions : s.functions.length ≤ (f s).functions.length) :
    Finishes b stops (fun _ t => t = f s) s (modify f : Compile PUnit) := by
  change Concludes b stops _ s (.ok PUnit.unit (f s)) (.ok PUnit.unit (f (s.granted b)))
  rw [granted]
  exact core_concludes orderly same (by rw [calls]; exact orderly.lined.calls) functions
    fun _ => rfl

theorem intern_concludes (v : Value) (orderly : Orderly b s) :
    Finishes b stops (fun _ t => Adds s [] t) s (intern v) := by
  rw [Finishes, intern, get_bind, get_bind, granted_literals]
  cases s.literals.findIdx? (·.same v) with
  | some i => exact .pure orderly ⟨(List.append_nil _).symm, rfl, rfl⟩
  | none =>
    exact core_concludes (t := { s with literals := s.literals.push v }) orderly rfl
      orderly.lined.calls (Nat.le_refl _) id

theorem emitLiteral_concludes (v : Value) (orderly : Orderly b s) :
    Finishes b stops (fun _ t => Adds s [true, false] t) s (emitLiteral v) := by
  unfold emitLiteral
  apply Concludes.get
  apply (intern_concludes v orderly).bind
  intro place t onward calm interned
  apply (emitWith_concludes .literal place calm).after onward
  intro _ u onward' calm' adds
  exact .ok (onward.trans onward') calm' ⟨by rw [adds.kinds, interned.kinds]; simp,
    adds.pending.trans interned.pending, adds.tokens.trans interned.tokens⟩

theorem closed_coherent (onward : Onward s.opened t) (coherent : Coherent b t) :
    Onward s (t.closed s.writer.ip) ∧ Coherent b (t.closed s.writer.ip) ∧
      (t.closed s.writer.ip).kinds = t.kinds := by
  have before : s.opened.kinds = s.kinds ++ [false] := operand_kinds 0 s
  have kept : t.kinds[s.writer.ip]? = some false := by
    apply onward.kind
    rw [before, ← kinds_length]
    simp
  have outer : t.writer.outer = s.writer.count :: s.writer.outer := onward.outer
  have closed : t.writer.closeScope =
      { t.writer with count := s.writer.count, outer := s.writer.outer } := by
    rw [CodeWriter.closeScope, outer]
  have same : (t.closed s.writer.ip).kinds = t.kinds := by
    rw [Session.closed, closed]
    exact replace_kinds _ _ _ { t with
      writer := { t.writer with count := s.writer.count, outer := s.writer.outer } }
  have hit : t.writer.closeScope.has false s.writer.ip = true := by
    rw [closed]
    exact has_of_kind kept
  refine ⟨{ onward with kinds := ?_, outer := ?_ },
    ⟨coherent.tokens, ?_, ?_, coherent.lined.write ?_⟩, same⟩
  · rw [same]
    exact (before ▸ List.prefix_append s.kinds [false]).trans onward.kinds
  · rw [Session.closed, closed]
    rfl
  · simp only [Session.closed, CodeWriter.patch, CodeWriter.replace, hit, ↓reduceIte]
    rw [closed]
    exact coherent.missed
  · rw [same]
    exact coherent.pending
  · intro line ranked
    rw [closed]
    apply Ranked.replace
    exact ranked.of_same rfl rfl

theorem Orderly.opened (orderly : Orderly b s) : Orderly b s.opened := by
  have kinds : s.opened.kinds = s.kinds ++ [false] := operand_kinds 0 s
  have pending : ∀ a ∈ s.opened.pending, s.opened.kinds[a]? = some false := by
    intro a waits
    rw [kinds]
    exact kind_kept (List.prefix_append _ _) (orderly.pending a waits)
  have lined : s.opened.Lined b.source :=
    orderly.lined.write fun ranked => ranked.operand.of_same rfl rfl
  exact { orderly with pending, lined }

theorem Orderly.closed (calm : Orderly b t) (coherent : Coherent b (t.closed s.writer.ip)) :
    Orderly b (t.closed s.writer.ip) :=
  { coherent, calm with }

theorem counted_concludes {x y : Compile α} {yields' : α → Session → Prop}
    (runs : Concludes b (Halts b fails) yields s.opened (x s.opened) (y (s.opened.granted b)))
    (kept : ∀ a t u, yields a t → Adds t [] u → yields' a u) :
    Concludes b (Halts b fails) yields' s (counted x s) (counted y (s.granted b)) := by
  have opened : (s.granted b).opened = s.opened.granted b := rfl
  have writer : (s.granted b).writer = s.writer := rfl
  rw [counted_eq, counted_eq, opened, writer]
  generalize x s.opened = r, y (s.opened.granted b) = r' at runs
  cases runs with
  | @ok a t onward calm given =>
    obtain ⟨further, coherent, kinds⟩ := closed_coherent onward calm.toCoherent
    exact .ok further (calm.closed coherent)
      (kept a t _ given ⟨kinds.trans (List.append_nil _).symm, rfl, rfl⟩)
  | @error stop t onward calm halts =>
    obtain ⟨further, coherent, -⟩ := closed_coherent onward calm
    cases halts with
    | error calm known ordinary =>
      exact .error further coherent (.error (calm.closed coherent) known ordinary)
    | abort exceeded => exact .error further coherent (.abort { exceeded with })

theorem prefixedByCount_concludes {x y : Compile Nat} {yields : Nat → Session → Prop}
    (orderly : Orderly b s) (runs : ∀ t, Onward s t → Orderly b t → Adds s [false] t →
      Concludes b (Halts b fails) yields t (x t) (y (t.granted b)))
    (kept : ∀ n t u, yields n t → Adds t [] u → yields n u) :
    Concludes b (Halts b fails) yields s (prefixedByCount x s)
      (prefixedByCount y (s.granted b)) := by
  unfold prefixedByCount
  apply (emitOperand_concludes 0 orderly).andThen
  rintro address t onward calm ⟨adds, there⟩
  apply (runs t onward calm adds).andThen
  intro n u onward' calm' given
  apply (patchAddress_concludes n calm' (onward'.kind there)).bind
  intro _ v onward'' calm'' patched
  exact .ok onward'' calm'' (kept n u v given patched)

theorem currentScope_concludes (orderly : Orderly b s) (inside : s.InBody) :
    Finishes b stops (fun x t => t = s ∧ s.scope = some x) s currentScope := by
  obtain ⟨x, scope⟩ := Option.isSome_iff_exists.mp inside
  rw [Finishes, currentScope_eq scope, currentScope_eq (s := s.granted b) scope]
  exact .ok (.refl s) orderly ⟨rfl, scope⟩

theorem modifyScope_concludes {f : Scope → Scope} (orderly : Orderly b s)
    (loops : ∀ x, (f x).loops.length = x.loops.length)
    (lined : ∀ {x : Scope}, x.Lined b.source → (f x).Lined b.source)
    (pending : ∀ x, s.scope = some x → ∀ a ∈ (f x).pending, s.kinds[a]? = some false) :
    Finishes b stops (fun _ t => t = { s with scope := s.scope.map f }) s (modifyScope f) := by
  have depth : ({ s with scope := s.scope.map f } : Session).depth = s.depth := by
    cases scope : s.scope with
    | none => simp [Session.depth, scope]
    | some x => simp [Session.depth, scope, loops]
  have waits : ∀ a ∈ ({ s with scope := s.scope.map f } : Session).pending,
      s.kinds[a]? = some false := by
    cases scope : s.scope with
    | none => simp [Session.pending]
    | some x => exact pending x scope
  have known : ∀ x ∈ s.scope.map f, x.Lined b.source := by
    intro y member
    obtain ⟨x, same, rfl⟩ := Option.map_eq_some_iff.mp member
    exact lined (orderly.lined.scope x same)
  exact .ok (t := { s with scope := s.scope.map f })
    { Onward.refl s with depth }
    { orderly with pending := waits, lined := { orderly.lined with scope := known } } rfl

theorem addLocal_concludes {x : Scope} (a : Address) (name : String) (orderly : Orderly b s)
    (scope : s.scope = some x) : Concludes b stops (fun _ t => Adds s [] t) s
      (.ok a { s with scope := some (x.withLocal name) })
      (.ok a (({ s with scope := some (x.withLocal name) } : Session).granted b)) := by
  have changed : Concludes b (fun _ _ => False) _ s _ _ :=
    modifyScope_concludes (f := (·.withLocal name)) orderly (fun _ => rfl) id fun y inner a waits =>
      orderly.pending a (by rw [Session.pending, inner]; exact waits)
  obtain ⟨onward, calm, -⟩ := changed.of_ok rfl
  simp only [scope, Option.map_some] at onward calm
  exact .ok onward calm ⟨(List.append_nil _).symm, by simp only [Session.pending, scope]; rfl, rfl⟩

theorem variableAddress_concludes (known : Known b.source name.line) (orderly : Orderly b s)
    (inside : s.InBody) :
    Finishes b (Halts b Diagnostic.Ordinary) (fun _ t => Adds s [] t) s (variableAddress name) := by
  cases found : s.lookup? name.lexeme with
  | some address =>
    rw [Finishes, variableAddress, get_bind, get_bind, granted_lookup?, found]
    exact .pure orderly ⟨(List.append_nil _).symm, rfl, rfl⟩
  | none =>
    cases main : Token.isMain name.lexeme with
    | true =>
      rw [Finishes, variableAddress, get_bind, get_bind, granted_lookup?, found, main]
      exact .fail orderly known ⟨rfl, rfl⟩
    | false =>
      obtain ⟨x, scope⟩ := Option.isSome_iff_exists.mp inside
      rw [Finishes, (variableAddress_new found main scope).2,
        (variableAddress_new (s := s.granted b) found main scope).2]
      exact addLocal_concludes _ _ orderly scope

theorem assignableAddress_concludes (known : Known b.source name.line) (orderly : Orderly b s)
    (inside : s.InBody) :
    Finishes b (Halts b Diagnostic.Ordinary) (fun _ t => Adds s [] t) s
      (assignableAddress name) := by
  unfold assignableAddress
  apply (variableAddress_concludes known orderly inside).bind
  intro address t onward calm adds
  apply Concludes.ite
  · intro _
    exact .ite (fun _ => (Concludes.fail calm known ⟨rfl, rfl⟩).rebase onward)
      fun _ => .ok onward calm adds
  · intro _
    exact .ok onward calm adds

theorem functionPlace_concludes (name : String) (orderly : Orderly b s) :
    Finishes b stops (fun place t => Adds s [] t ∧ place < t.functions.length) s
      (functionPlace name) := by
  rw [Finishes, functionPlace, get_bind, get_bind, granted_functions]
  cases found : s.functions.place? (functionKey name) with
  | some place => exact .pure orderly ⟨⟨(List.append_nil _).symm, rfl, rfl⟩, place?_lt found⟩
  | none =>
    exact core_concludes
      (t := { s with functions := s.functions ++ [(functionKey name, .pending name)] }) orderly rfl
      orderly.lined.calls (by simp) fun adds => ⟨adds, by simp⟩

theorem checkCall_concludes {place : Nat} (known : Known b.source name.line) (arguments : Nat)
    (orderly : Orderly b s) (entered : place < s.functions.length) :
    Finishes b (Halts b Diagnostic.Ordinary) (fun _ t => Adds s [] t) s
      (checkCall place name arguments) := by
  have noted : Concludes b (Halts b Diagnostic.Ordinary) (fun _ t => Adds s [] t) s
      (.ok () { s with calls := s.calls.push ⟨place, name.lexeme, arguments, name.line⟩ })
      (.ok () (({ s with calls := s.calls.push ⟨place, name.lexeme, arguments, name.line⟩ } :
        Session).granted b)) :=
    core_concludes orderly rfl (fun c member => (Array.mem_push.mp member).elim
      (orderly.lined.calls c) fun same => same ▸ known) (Nat.le_refl _) id
  have there : place < s.functions.entries.length := by simpa [NameTable.entries] using entered
  rw [Finishes, checkCall, get_bind, get_bind, granted_functions, List.getElem?_eq_getElem there]
  cases s.functions.entries[place] with
  | pending | user => exact noted
  | offered f =>
    simp only
    cases (f.arity?.getD .any).violation? arguments with
    | none => exact .pure orderly ⟨(List.append_nil _).symm, rfl, rfl⟩
    | some v => exact .fail orderly known ⟨rfl, rfl⟩

end Scriptlet.Compile
