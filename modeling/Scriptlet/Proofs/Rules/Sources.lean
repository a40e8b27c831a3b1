import Scriptlet.Proofs.Compile.Programs
import Scriptlet.Proofs.Rules.Loops
import Scriptlet.Proofs.Script.Sessions

/-!
The whole source keeps a session orderly. Between the items of a source no function is open, and the
rules for its header and its functions end like all others, with one exception. A function is ended
also if its body gave up or failed: then a label that was never bound, or the block that was never
closed, is put on record although the limit is already passed, and the message that there are too
many errors is recorded a second time.
-/
namespace Scriptlet.Compile

open Actions Source

variable {b : Terms} {n k k' : Nat} {stops : Stop → Session → Prop} {fails : Diagnostic → Prop}
    {s t u : Session} {x : Scope}
  {d : Diagnostic} {name : Token}

def Regime.header : Regime := .free (fun _ => True) fun _ there => there

theorem report_keeps (ordinary : d.Ordinary) (known : Known b.source d.line) :
    Keeps b .header n (report d) (report d) :=
  fun _ calm _ _ => report_concludes ordinary known calm

theorem literalValue_takes : Takes b .header n literalValue literalValue := by
  intro s orderly _ _
  unfold literalValue
  apply (accept_concludes (by decide) orderly).bind
  intro negative t onward calm _
  have ahead := onward.ahead
  apply Concludes.rebase onward
  apply (nextToken_concludes calm).bind
  intro tok u onward' calm' took
  have spent := took.spent
  cases literal : tok.literal? with
  | none => exact refuse_concludes rfl calm calm' took
  | some v =>
    rw [literal_cost literal] at spent
    apply Concludes.ite
    · intro _
      exact .ok onward' calm' ⟨trivial, by omega⟩
    · intro _
      apply Concludes.ite
      · intro _
        exact refuse_concludes rfl calm calm' took
      · intro _
        exact .ok onward' calm' ⟨trivial, by omega⟩

theorem literalItems_keeps (bound : n ≤ k) (bound' : n ≤ k') :
    ∀ items, Keeps b .header n (literalItems k items) (literalItems k' items) := by
  refine Regime.Meets.recursion (fun m k k' below again items => ?_) bound bound'
  unfold literalItems
  exact literalValue_takes.andThen below fun _ => (accept_keeps (by decide)).andThen fun _ =>
    .ite .pure ((expect_keeps rfl).andThen fun _ => again _)

theorem literalInitializer_keeps : Keeps b .header n literalInitializer literalInitializer :=
  (accept_keeps (by decide)).andThen fun _ => .ite
    ((accept_keeps (by decide)).andThen fun _ => .ite .pure (.get fun _ orderly _ =>
      literalItems_keeps (Nat.le_of_lt orderly.room) (Nat.le_of_lt orderly.enough) _))
    fun s orderly there few => (literalValue_takes s orderly there few).weaken
      fun _ _ _ given => given.1

theorem headerValue_keeps : Keeps b .header n headerValue headerValue :=
  (accept_keeps (by decide)).andThen fun _ => .ite literalInitializer_keeps
    ((accept_keeps (by decide)).andThen fun _ => .ite
      (expect_then rfl fun _ _ => (expect_keeps rfl).andThen fun _ => .pure) .pure)

theorem headerVariables_keeps (bound : n ≤ k) (bound' : n ≤ k') :
    Keeps b .header n (headerVariables k) (headerVariables k') := by
  refine Regime.Meets.rounds (fun m k k' below again => ?_) bound bound'
  -- a comma behind one variable, and then the next one
  have next : Keeps b .header m (do if ← accept .comma then headerVariables k)
      (do if ← accept .comma then headerVariables k') :=
    (accept_keeps (by decide)).andThen fun _ => .ite again .pure
  unfold headerVariables
  refine declaredName_then fun name known => headerValue_keeps.andThen fun value =>
    .get fun _ _ few => .ite ?_ ?_
  · exact (report_keeps ⟨rfl, rfl⟩ known).andThen fun _ => next.mono few
  · exact Keeps.andThen (fun _ calm _ _ => modify_concludes
      (fun s => { s with globals := s.globals ++ [(name.lexeme, ⟨value, false⟩)] }) calm rfl rfl rfl
      (Nat.le_refl _) |>.weaken fun _ _ _ _ => trivial) fun _ => next.mono few

theorem declareFunction_concludes (name : String) (orderly : Orderly b s) :
    Finishes b stops (fun _ _ => True) s (declareFunction name) := by
  unfold declareFunction
  apply (functionPlace_concludes name orderly).andThen
  intro place t _ calm _
  rw [get_bind, get_bind, granted_functions]
  generalize t.functions.entries[place]? = entry
  split
  · apply (modify_concludes
        (fun s => { s with functions := s.functions.modifyAt place fun _ => .pending name })
      calm rfl rfl rfl (by simp [length_modifyAt])).andThen
    intro _ u _ calm' _
    exact .pure calm' trivial
  · exact .pure calm trivial

structure Scope.Unused (x : Scope) : Prop where
  labels : x.labels = []
  loops : x.loops = []

theorem parameter_concludes (known : Known b.source name.line) (orderly : Orderly b s)
    (unused : x.Unused) :
    Finishes b (Halts b Diagnostic.Ordinary) (fun y _ => y.Unused) s (parameter x name) := by
  unfold parameter
  cases declared : x.declares name.lexeme with
  | true =>
    rw [Scope.addParameter, declared]
    apply (report_concludes ⟨rfl, rfl⟩ known orderly).andThen
    exact fun _ t _ calm _ => .pure calm unused
  | false =>
    rw [Scope.addParameter, declared]
    exact .pure orderly ⟨unused.labels, unused.loops⟩

theorem parameters_concludes : ∀ {k k' : Nat} {x : Scope} {s : Session}, Orderly b s → x.Unused →
    s.tokens.ahead < k → s.tokens.ahead < k' →
    Concludes b (Halts b Diagnostic.Ordinary) (fun y _ => y.Unused) s (parameters k x s)
      (parameters k' x (s.granted b)) := by
  intro k
  induction k with
  | zero => intro _ _ _ _ _ none_; exact absurd none_ (Nat.not_lt_zero _)
  | succ k ih =>
    intro k' x s orderly unused room room'
    obtain _ | k' := k'
    · omega
    unfold parameters
    apply (declaredName_concludes orderly).andThen
    rintro name t₁ _ calm₁ ⟨took, shorter⟩
    apply (parameter_concludes took.known calm₁ unused).andThen
    intro y t₂ onward₂ calm₂ unused
    apply (accept_concludes (by decide) calm₂).andThen
    intro found t₃ onward₃ calm₃ _
    apply Concludes.ite
    · intro _
      exact .pure calm₃ unused
    · intro _
      apply (discard_expect_concludes rfl (by decide) calm₃).andThen
      intro _ t₄ onward₄ calm₄ _
      have ahead := ((onward₂.trans onward₃).trans onward₄).ahead
      exact ih calm₄ unused (by omega) (by omega)

theorem parameterList_concludes (orderly : Orderly b s) (unused : x.Unused) :
    Finishes b (Halts b Diagnostic.Ordinary) (fun y _ => y.Unused) s (parameterList x) := by
  unfold parameterList
  apply (discard_expect_concludes rfl (by decide) orderly).andThen
  intro _ t₁ _ calm₁ _
  apply (accept_concludes (by decide) calm₁).andThen
  intro found t₂ _ calm₂ _
  apply Concludes.ite
  · intro _
    exact .pure calm₂ unused
  · intro _
    exact parameters_concludes calm₂ unused (Nat.lt_of_succ_lt calm₂.room)
      (Nat.lt_of_succ_lt calm₂.enough)

def functionHead (name : Token) : Compile Scope := do
  modify fun s => { s with inHeader := false }
  let place ← declareFunction name.lexeme
  if place.isNone then report (problemAt .duplicateFunctionName name)
  parameterList (Scope.start name.lexeme place (← here))

def conclude (x : Scope) (body : Except Stop Unit) : Compile Unit := do
  let ending ← attempt (endFunction x)
  settle body
  settle ending

def functionEnding (body : Except Stop Unit) : Compile Unit := do
  let ending ← attempt endCurrent
  settle body
  settle ending

theorem functionDefinition_parts (name : Token) :
    functionDefinition name = (do
      let scope ← functionHead name
      setScope scope
      functionEnding (← attempt functionBody)) := by
  simp only [functionDefinition, functionHead, functionEnding, bind_assoc]
  refine congrArg (modify _ >>= ·) (funext fun _ => ?_)
  refine congrArg (declareFunction name.lexeme >>= ·) (funext fun place => ?_)
  split
  · simp only [bind_assoc]
  · simp only [bind_assoc]

theorem functionHead_concludes (known : Known b.source name.line) (orderly : Orderly b s) :
    Finishes b (Halts b Diagnostic.Ordinary) (fun x _ => x.Unused) s (functionHead name) := by
  unfold functionHead
  apply (modify_concludes (fun s => { s with inHeader := false }) orderly rfl rfl rfl
    (Nat.le_refl _)).andThen
  intro _ t₁ _ calm₁ _
  apply (declareFunction_concludes name.lexeme calm₁).andThen
  intro place t₂ _ calm₂ _
  have list : ∀ t, Orderly b t →
      Finishes b (Halts b Diagnostic.Ordinary) (fun x _ => x.Unused) t
        (do parameterList (Scope.start name.lexeme place (← here))) :=
    fun t calm => (here_concludes calm).andThen fun _ _ _ calm' _ =>
      parameterList_concludes calm' ⟨rfl, rfl⟩
  apply Concludes.ite
  · intro _
    apply (report_concludes ⟨rfl, rfl⟩ known calm₂).andThen
    intro _ t₃ _ calm₃ _
    exact list t₃ calm₃
  · intro _
    exact list t₂ calm₂

/-- How the body of a function may stop that started in `s`: at the end of the source, or before
anything of it was compiled. -/
structure BodyHalts (b : Terms) (s : Session) (stop : Stop) (t : Session) : Prop where
  halts : Halts b Diagnostic.Ordinary stop t
  early : ∀ d, stop = .error d → Unclosed d ∨ t.scope = s.scope

theorem functionBody_concludes (orderly : Orderly b s) (inside : s.InBody) :
    Finishes b (BodyHalts b s) (fun _ _ => True) s functionBody := by
  unfold functionBody
  apply (nextPastBreaks_concludes orderly).bind
  intro tok t onward calm took
  apply Concludes.ite
  · intro _
    apply Concludes.rebase onward
    apply Concludes.get
    have room := calm.room
    have enough := calm.enough
    have statements : StatementsMeet b (t.tokens.ahead + 1) (statement t.budget) (statement b) :=
      statement_meets (by omega) (by omega)
    have block := blockBody_concludes statements calm (onward.inBody inside) (Nat.lt_succ_self _)
      (Nat.lt_of_succ_lt room) (Nat.lt_of_succ_lt enough)
    apply block.loosen
    intro stop u halts
    refine ⟨halts.loosen fun _ unclosed => unclosed.1, ?_⟩
    rintro d rfl
    cases halts with
    | error _ _ unclosed => exact Or.inl unclosed
  · intro _
    apply (unget_concludes orderly calm took).bind
    intro _ u onward' calm' reads
    refine .error onward' calm'.toCoherent ⟨.error calm' took.known ⟨rfl, rfl⟩,
      fun _ _ => Or.inr ?_⟩
    obtain ⟨tokens, line, rfl⟩ := reads
    rfl

def reportUnbound (labels : List (String × UInt32)) : Compile Unit :=
  labels.forM fun (name, line) => report ((Diagnostic.error .labelNotDefined line).withToken name)

def enterFunction (x : Scope) : Compile Unit :=
  match x.place with
  | none => pure ()
  | some place => modify fun s => { s with functions := s.functions.modifyAt place (finished x) }

def Session.returned (s : Session) : Session :=
  { s with writer := (s.writer.opcode .returnValue).operand 0 }

theorem endFunction_parts (x : Scope) (s : Session) :
    endFunction x s = (do reportUnbound x.unboundLabels; enterFunction x) s.returned := rfl

theorem returned_onward (s : Session) : Onward s s.returned := by
  have kinds : s.returned.kinds = s.kinds ++ [true, false] := by
    simp [Session.returned, Session.kinds, CodeWriter.opcode, CodeWriter.operand]
  exact { Onward.refl s with kinds := ⟨[true, false], kinds.symm⟩ }

theorem Coherent.returned (coherent : Coherent b s) : Coherent b s.returned :=
  { coherent with
    pending := fun a waits => (returned_onward s).kind (coherent.pending a waits)
    lined := coherent.lined.write (·.opcode.operand) }

theorem Orderly.returned (orderly : Orderly b s) : Orderly b s.returned :=
  { orderly.toCoherent.returned, orderly with }

theorem reportUnbound_concludes {labels : List (String × UInt32)}
    (known : ∀ label ∈ labels, Known b.source label.2) : ∀ {s : Session}, Orderly b s →
      Finishes b (Halts b fails) (fun _ _ => True) s (reportUnbound labels) := by
  induction labels with
  | nil => exact fun orderly => .pure orderly trivial
  | cons label labels ih =>
    intro s orderly
    let unbound := (Diagnostic.error .labelNotDefined label.2).withToken label.1
    have one : unbound.Ordinary := ⟨rfl, rfl⟩
    obtain ⟨first, others⟩ := List.forall_mem_cons.mp known
    apply (report_concludes one first orderly).andThen
    intro _ t _ calm _
    exact ih others calm

theorem enterFunction_concludes (orderly : Orderly b s) :
    Finishes b stops (fun _ _ => True) s (enterFunction x) := by
  unfold enterFunction
  cases x.place with
  | none => exact .pure orderly trivial
  | some place =>
    exact (modify_concludes
      (fun s => { s with functions := s.functions.modifyAt place (finished x) }) orderly rfl rfl rfl
      (by simp [length_modifyAt])).weaken fun _ _ _ _ => trivial

theorem endFunction_concludes (lined : x.Lined b.source) (orderly : Orderly b s) :
    Finishes b (Halts b fails) (fun _ _ => True) s (endFunction x) := by
  rw [Finishes, endFunction_parts, endFunction_parts]
  apply Concludes.rebase (returned_onward s)
  apply (reportUnbound_concludes lined.unbound orderly.returned).andThen
    (y := reportUnbound x.unboundLabels)
  exact fun _ _ _ calm _ => enterFunction_concludes calm

/-- The errors of a session that is beyond its limit, and then another one. -/
structure Repeated (s : Session) : Prop where
  drained : s.tokens.errors = #[]
  errors : ∃ (ds : Array Diagnostic) (d : Diagnostic), (∀ e ∈ ds, e.Ordinary) ∧
    ds.size = s.maxErrors + 1 ∧ d.Ordinary ∧
    (d.problem = .labelNotDefined ∨ d.problem = .expectedRightBrace) ∧
    s.errors = ((ds.push (Diagnostic.fatal .tooManyErrors s.tokens.line)).push d).push
      (Diagnostic.fatal .tooManyErrors s.tokens.line)

theorem Exceeded.report (exceeded : Exceeded s) (ordinary : d.Ordinary) :
    Compile.report d s = .error .abort { s with
      errors := (s.errors.push d).push (Diagnostic.fatal .tooManyErrors s.tokens.line) } := by
  obtain ⟨ds, -, size, errors⟩ := exceeded.errors
  have many : s.maxErrors < (s.errors.push d).size := by
    rw [errors, Array.size_push, Array.size_push]
    omega
  rw [Compile.report, bind_ok _ (flush_none exceeded.drained), record_eq ordinary.not_fatal,
    if_pos many]

theorem Exceeded.repeated (exceeded : Exceeded s) (ordinary : d.Ordinary)
    (which : d.problem = .labelNotDefined ∨ d.problem = .expectedRightBrace) :
    Repeated { s with
      errors := (s.errors.push d).push (Diagnostic.fatal .tooManyErrors s.tokens.line) } := by
  obtain ⟨ds, recorded, size, errors⟩ := exceeded.errors
  exact ⟨exceeded.drained, ds, d, recorded, size, ordinary, which, by rw [errors]⟩

/-- How a rule may end that runs beyond the limit. -/
inductive Overflows (b : Terms) (s : Session) :
    EStateM.Result Stop Session Unit → EStateM.Result Stop Session Unit → Prop where
  | ok {t : Session} : Onward s t → Coherent b t → Exceeded t →
      Overflows b s (.ok () t) (.ok () (t.granted b))
  | error {t : Session} : Onward s t → Coherent b t → Repeated t →
      Overflows b s (.error .abort t) (.error .abort (t.granted b))

theorem endFunction_overflows (lined : x.Lined b.source) (coherent : Coherent b s)
    (exceeded : Exceeded s) :
    Overflows b s (endFunction x s) (endFunction x (s.granted b)) := by
  have onward := returned_onward s
  have calm := coherent.returned
  have beyond : Exceeded s.returned := { exceeded with }
  have beyond' : Exceeded (s.returned.granted b) := { exceeded with }
  rw [endFunction_parts, endFunction_parts]
  change Overflows b s _ ((do reportUnbound x.unboundLabels; enterFunction x)
    (s.returned.granted b))
  have known := lined.unbound
  generalize x.unboundLabels = labels at known
  cases labels with
  | nil =>
    change Overflows b s (enterFunction x s.returned) (enterFunction x (s.returned.granted b))
    unfold enterFunction
    cases x.place with
    | none => exact .ok onward calm beyond
    | some place =>
      refine .ok (t := { s.returned with
          functions := s.returned.functions.modifyAt place (finished x) })
        (onward.trans { Onward.refl _ with functions := ?_ })
        { calm with lined := { calm.lined with } } { beyond with }
      simp [length_modifyAt]
  | cons label labels =>
    let unbound := (Diagnostic.error .labelNotDefined label.2).withToken label.1
    have one : unbound.Ordinary := ⟨rfl, rfl⟩
    have gives_up : ∀ {v : Session}, Exceeded v →
        (do reportUnbound (label :: labels); enterFunction x) v = .error .abort { v with
          errors := (v.errors.push unbound).push
            (Diagnostic.fatal .tooManyErrors v.tokens.line) } :=
      fun beyond => bind_error _ (bind_error _ (beyond.report one))
    rw [gives_up beyond, gives_up beyond']
    exact .error (onward.trans (recorded_onward _ _ _)) { calm with
      lined := calm.lined.exceed (known label (by simp)) } (beyond.repeated one (Or.inl rfl))

inductive Stopped (b : Terms) : Stop → Session → Prop where
  | error {d : Diagnostic} {t : Session} : Orderly b t → Known b.source d.line → d.Ordinary →
      Stopped b (.error d) t
  | late {d : Diagnostic} {t : Session} : Exceeded t → Known b.source d.line → Unclosed d →
      Stopped b (.error d) t
  | abort {t : Session} : Exceeded t → Stopped b .abort t
  | again {t : Session} : Repeated t → Stopped b .abort t

theorem Halts.stopped {stop : Stop} (halts : Halts b Diagnostic.Ordinary stop t) :
    Stopped b stop t := by
  cases halts with
  | error orderly known ordinary => exact .error orderly known ordinary
  | abort exceeded => exact .abort exceeded

theorem functionEnding_eq (scope : s.scope = some x) (body : Except Stop Unit) :
    functionEnding body s = conclude x body { s with scope := none } := by
  have same : attempt endCurrent s = attempt (endFunction x) { s with scope := none } := by
    rw [attempt, attempt, endCurrent_eq scope]
  change EStateM.bind _ _ _ = EStateM.bind _ _ _
  rw [EStateM.bind, EStateM.bind, same]

theorem Onward.outside (onward : Onward { s with scope := some x } t) (none_ : s.scope = none) :
    Onward s { t with scope := none } :=
  { onward with depth := by simp [Session.depth, none_] }

theorem Coherent.outside (coherent : Coherent b s) : Coherent b { s with scope := none } :=
  { coherent with
    pending := fun _ waits => nomatch waits
    lined := { coherent.lined with scope := fun _ none_ => nomatch none_ } }

theorem Orderly.outside (orderly : Orderly b s) : Orderly b { s with scope := none } :=
  { orderly.toCoherent.outside, orderly with }

theorem endFunction_bound (bound : x.unboundLabels = []) (orderly : Orderly b s) :
    Finishes b stops (fun _ _ => True) s (endFunction x) := by
  rw [Finishes, endFunction_parts, endFunction_parts, bound]
  exact Concludes.rebase (returned_onward s) (enterFunction_concludes orderly.returned)

theorem endFunction_aborts (lined : x.Lined b.source) (orderly : Orderly b s) :
    Finishes b (fun stop t => Exceeded t ∧ stop = .abort) (fun _ _ => True) s (endFunction x) := by
  have ended : Finishes b (Halts b fun _ => False) (fun _ _ => True) s (endFunction x) :=
    endFunction_concludes lined orderly
  apply ended.loosen
  intro stop t halts
  cases halts with
  | error _ _ never => exact never.elim
  | abort exceeded => exact ⟨exceeded, rfl⟩

theorem ended_concludes (lined : x.Lined b.source) (orderly : Orderly b s) :
    Finishes b (Stopped b) (fun _ _ => True) s (conclude x (.ok ())) := by
  apply (endFunction_aborts lined orderly).attempt
  · intro _ t onward calm _
    exact .ok onward calm trivial
  · rintro _ t onward coherent ⟨exceeded, rfl⟩
    exact .error onward coherent (.abort exceeded)

theorem failed_concludes (lined : x.Lined b.source) (orderly : Orderly b s)
    (known : Known b.source d.line) (ordinary : d.Ordinary)
    (early : Unclosed d ∨ x.unboundLabels = []) :
    Finishes b (Stopped b) (fun _ _ => True) s (conclude x (.error (.error d))) := by
  have ended : Finishes b (fun _ t => Exceeded t ∧ Unclosed d) (fun _ _ => True) s
      (endFunction x) := by
    rcases early with unclosed | bound
    · exact (endFunction_aborts lined orderly).loosen fun _ _ given => ⟨given.1, unclosed⟩
    · exact endFunction_bound bound orderly
  apply ended.attempt
  · intro _ t onward calm _
    exact .error onward calm.toCoherent (.error calm known ordinary)
  · rintro stop t onward coherent ⟨exceeded, unclosed⟩
    exact .error onward coherent (.late exceeded known unclosed)

theorem aborted_concludes (lined : x.Lined b.source) (coherent : Coherent b s)
    (exceeded : Exceeded s) :
    Finishes b (Stopped b) (fun _ _ => True) s (conclude x (.error .abort)) := by
  have ended := endFunction_overflows lined coherent exceeded
  rw [Finishes, conclude, bind_apply, bind_apply, attempt, attempt]
  generalize endFunction x s = r, endFunction x (s.granted b) = r' at ended
  cases ended with
  | ok onward coherent exceeded => exact .error onward coherent (.abort exceeded)
  | error onward coherent repeated => exact .error onward coherent (.again repeated)

theorem unused_bound (unused : x.Unused) : x.unboundLabels = [] := by
  simp [Scope.unboundLabels, unused.labels]

theorem entered_orderly (orderly : Orderly b s) (unused : x.Unused) :
    Orderly b { s with scope := some x } := by
  have none_ : ({ s with scope := some x } : Session).pending = [] := by
    simp [Session.pending, Scope.pending, unused.labels, unused.loops]
  have known : ∀ y ∈ some x, y.Lined b.source := by
    rintro _ ⟨⟩
    simp [Scope.Lined, unused.labels]
  exact { orderly with pending := by simp [none_], lined := { orderly.lined with scope := known } }

theorem functionDefinition_concludes (known : Known b.source name.line)
    (orderly : Orderly b s) (outside : s.scope = none) :
    Finishes b (Stopped b) (fun _ _ => True) s (functionDefinition name) := by
  rw [functionDefinition_parts]
  apply ((functionHead_concludes known orderly).loosen fun _ _ halts => halts.stopped).andThen
  intro x t onward calm unused
  have none_ := onward.outside_of outside
  rw [setScope, modify_bind, modify_bind]
  apply Concludes.attempt (t := { t with scope := some x })
    (functionBody_concludes (entered_orderly calm unused) rfl)
  · intro _ u further calm' _
    obtain ⟨y, scope⟩ := Option.isSome_iff_exists.mp (further.inBody rfl)
    rw [functionEnding_eq scope, functionEnding_eq (s := u.granted b) scope]
    exact (ended_concludes (calm'.lined.scope y scope) calm'.outside).rebase (further.outside none_)
  · intro stop u further coherent halts
    obtain ⟨y, scope⟩ := Option.isSome_iff_exists.mp (further.inBody rfl)
    rw [functionEnding_eq scope, functionEnding_eq (s := u.granted b) scope]
    apply Concludes.rebase (further.outside none_)
    have lined := coherent.lined.scope y scope
    cases halts.halts with
    | abort exceeded => exact aborted_concludes lined coherent.outside { exceeded with }
    | @error d u calm' known ordinary =>
      apply failed_concludes lined calm'.outside known ordinary
      rcases halts.early d rfl with unclosed | same
      · exact Or.inl unclosed
      · obtain rfl : x = y := Option.some.inj (same.symm.trans scope)
        exact Or.inr (unused_bound unused)

end Scriptlet.Compile
