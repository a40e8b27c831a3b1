import Scriptlet.Proofs.Rules.Sources

/-!
What comes of compiling a source, whatever the source is. The budget that a compilation starts with
is never spent, and any larger one gives the same result. Nothing is ever wrong that the source is
not to blame for: no token is lost, every patch hits a word of its kind, and a function leaves
neither a loop nor a counting scope open. The errors on record are within the limit, or there is one
more than it allows and a last one that says so; only if a function is ended beyond the limit, one
more error and the same last one can follow.
-/
namespace Scriptlet.Compile

open Actions Source

variable {b : Terms} {stops : Stop → Session → Prop} {fails : Diagnostic → Prop} {s t u : Session}
  {stop : Stop} {d : Diagnostic} {tok : Token} {budget : Nat} {start : Session} {name : Token}

structure GivesUp (stop : Stop) (s : Session) : Prop where
  abort : stop = .abort
  beyond : Exceeded s ∨ Repeated s

theorem Halts.givesUp (halts : Halts b (fun _ => False) stop t) : GivesUp stop t := by
  cases halts with
  | error _ _ never => exact never.elim
  | abort exceeded => exact ⟨rfl, Or.inl exceeded⟩

theorem GivesUp.recorded (givesUp : GivesUp stop s) : s.errors ≠ #[] := by
  rcases givesUp.beyond with exceeded | repeated
  · exact exceeded.recorded
  · obtain ⟨ds, d, -, -, -, -, errors⟩ := repeated.errors
    simp [errors]

theorem fail_concludes (orderly : Orderly b s) (known : Known b.source d.line)
    (ordinary : d.Ordinary) :
    Concludes b (Stopped b) (fun _ _ => True) s ((fail d : Compile Unit) s)
      (fail d (s.granted b)) :=
  .error (.refl s) orderly.toCoherent (.error orderly known ordinary)

theorem topLevelItem_concludes (known : Known b.source tok.line) (orderly : Orderly b s)
    (outside : s.scope = none) : Finishes b (Stopped b) (fun _ _ => True) s (topLevelItem tok) := by
  unfold topLevelItem
  apply Concludes.get
  generalize tok.kind = kind
  split
  · apply (peekKind_concludes orderly).andThen
    intro ahead t onward calm _
    apply Concludes.ite
    · intro _
      exact functionDefinition_concludes known calm (onward.outside_of outside)
    · intro _
      exact fail_concludes calm known ⟨rfl, rfl⟩
  · apply Concludes.ite
    · intro _
      exact (headerVariables_keeps (Nat.le_of_lt orderly.room) (Nat.le_of_lt orderly.enough) s
        orderly trivial (Nat.lt_succ_self _)).loosen fun _ _ halts => halts.stopped
    · intro _
      exact fail_concludes orderly known ⟨rfl, rfl⟩
  · exact fail_concludes orderly known ⟨rfl, rfl⟩

theorem recover_item_concludes {x y : Compile Unit}
    (runs : Concludes b (Stopped b) (fun _ _ => True) s (x t) (y (t.granted b))) :
    Concludes b GivesUp (fun _ _ => True) s (recover x t) (recover y (t.granted b)) := by
  apply runs.attempt
  · intro _ u onward calm _
    exact .ok onward calm trivial
  · intro stop u onward coherent stopped
    cases stopped with
    | abort exceeded => exact .error onward coherent ⟨rfl, Or.inl exceeded⟩
    | again repeated => exact .error onward coherent ⟨rfl, Or.inr repeated⟩
    | late exceeded known unclosed =>
      have beyond : Exceeded (u.granted b) := { exceeded with }
      simp only
      rw [bind_error _ (exceeded.report unclosed.1), bind_error _ (beyond.report unclosed.1)]
      exact .error (onward.trans (recorded_onward _ _ _))
        { coherent with lined := coherent.lined.exceed known }
        ⟨rfl, Or.inr (exceeded.repeated unclosed.1 (Or.inr unclosed.2))⟩
    | error calm known ordinary =>
      apply Concludes.rebase onward
      apply ((report_concludes ordinary known calm).loosen fun _ _ halts => halts.givesUp).andThen
      intro _ v _ calm' _
      exact (skipStatement_concludes calm' (Nat.lt_of_succ_lt calm'.room)
        (Nat.lt_of_succ_lt calm'.enough)).weaken fun _ _ _ _ => trivial

/-- The text was read to its end. -/
def Session.Through (s : Session) : Prop := s.tokens.ahead = 0

theorem topLevel_concludes : ∀ {k k' : Nat} {s : Session}, Orderly b s → s.scope = none →
    s.tokens.ahead < k → s.tokens.ahead < k' →
    Concludes b GivesUp (fun _ t => t.Through) s (topLevel k s) (topLevel k' (s.granted b)) := by
  intro k
  induction k with
  | zero => intro _ _ _ _ none_; exact absurd none_ (Nat.not_lt_zero _)
  | succ k ih =>
    intro k' s orderly outside room room'
    obtain _ | k' := k'
    · omega
    unfold topLevel
    apply ((flush_concludes orderly).loosen fun _ _ halts => halts.givesUp).andThen
    intro _ t₁ onward₁ calm₁ _
    apply (nextPastBreaks_concludes calm₁).andThen
    intro tok t₂ onward₂ calm₂ took
    have outside₂ := (onward₁.trans onward₂).outside_of outside
    have ahead := onward₁.ahead
    have spent := took.spent
    apply Concludes.ite
    · intro last
      exact .pure calm₂ (by simp [Session.Through, TokenStream.ahead, took.free, took.last last])
    · intro more
      rw [cost_of_kind rfl more] at spent
      apply (recover_item_concludes (topLevelItem_concludes took.known calm₂ outside₂)).andThen
      intro _ t₃ onward₃ calm₃ _
      have ahead' := onward₃.ahead
      exact ih calm₃ (onward₃.outside_of outside₂) (by omega) (by omega)

theorem resolveCall_concludes {missing : List Nat} {call : CallSite}
    (known : Known b.source call.line) (orderly : Orderly b s) :
    Finishes b (Halts b fails) (fun _ _ => True) s (resolveCall missing call) := by
  unfold resolveCall Finishes
  rw [get_bind, get_bind, granted_functions]
  generalize s.functions.entries[call.place]? = entry
  split
  · apply Concludes.ite
    · intro _
      exact .pure orderly trivial
    · intro _
      apply (report_concludes ⟨rfl, rfl⟩ known orderly).andThen
      intro _ t _ calm _
      exact .pure calm trivial
  · rename_i f
    cases (Arity.exactly f.parameters.toNat).violation? call.arguments with
    | none => exact .pure orderly trivial
    | some v =>
      apply (report_concludes ⟨rfl, rfl⟩ known orderly).andThen
      intro _ t _ calm _
      exact .pure calm trivial
  · exact .pure orderly trivial

theorem resolveAll_concludes {calls : List CallSite} (known : ∀ c ∈ calls, Known b.source c.line) :
    ∀ {missing : List Nat} {s : Session}, Orderly b s →
    Finishes b (Halts b fails) (fun _ _ => True) s (calls.foldlM resolveCall missing) := by
  induction calls with
  | nil => exact fun orderly => .pure orderly trivial
  | cons call calls ih =>
    intro missing s orderly
    rw [List.foldlM_cons]
    obtain ⟨first, others⟩ := List.forall_mem_cons.mp known
    apply (resolveCall_concludes first orderly).andThen
    intro missing t _ calm _
    exact ih others calm

theorem resolveMain_concludes (orderly : Orderly b s) (there : s.kinds[mainOperand]? = some false) :
    Finishes b (Halts b fails) (fun _ _ => True) s resolveMain := by
  unfold resolveMain Finishes
  rw [get_bind, get_bind, granted_functions]
  generalize s.functions.place? "Main" = place, s.functions.find? "Main" = main
  split
  · exact (patchAddress_concludes _ orderly there).weaken fun _ _ _ _ => trivial
  · exact report_concludes ⟨rfl, rfl⟩ orderly.lined.tokens.line orderly

theorem sourceRule_concludes (orderly : Orderly b s) (outside : s.scope = none)
    (there : s.kinds[mainOperand]? = some false) :
    Finishes b GivesUp (fun _ t => t.Through ∧ t.tokens.errors = #[]) s sourceRule := by
  unfold sourceRule
  apply Concludes.get
  apply (topLevel_concludes orderly outside (Nat.lt_of_succ_lt orderly.room)
    (Nat.lt_of_succ_lt orderly.enough)).andThen
  intro _ t₁ onward₁ calm₁ through
  have resolved : Finishes b (Halts b fun _ => False) (fun _ _ => True) t₁ resolveCalls :=
    Concludes.get
      ((resolveAll_concludes (fun c member => calm₁.lined.calls c (Array.mem_toList_iff.mp member))
        calm₁).discard fun _ _ _ _ => trivial)
  apply (resolved.loosen fun _ _ halts => halts.givesUp).andThen
  intro _ t₂ onward₂ calm₂ _
  have there₂ := (onward₁.trans onward₂).kind there
  apply ((resolveMain_concludes calm₂ there₂).loosen fun _ _ halts => halts.givesUp).andThen
  intro _ t₃ onward₃ calm₃ _
  apply ((flush_concludes calm₃).loosen fun _ _ halts => halts.givesUp).weaken
  intro _ t₄ onward₄ drained
  have ahead := ((onward₂.trans onward₃).trans onward₄).ahead
  exact ⟨Nat.le_zero.mp (Nat.le_trans ahead (Nat.le_of_eq through)), drained⟩

theorem start_orderly (registry : Registry) (maxErrors : Nat) (source : String)
    (enough : source.length + 2 ≤ budget) :
    Orderly ⟨budget, source⟩ (.start registry maxErrors source) := by
  have ahead : (TokenStream.ofSource source).ahead = source.length := by
    simp [TokenStream.ofSource, TokenStream.ahead, String.length_toList]
  refine ⟨⟨⟨rfl, fun d member => ?_, fun _ given => ?_⟩, rfl, fun a waits => ?_,
    start_lined registry maxErrors source⟩, fun d member => ?_, Nat.zero_le _, ?_, ?_⟩
  · exact absurd member (Array.not_mem_empty d)
  · cases given
  · cases waits
  · exact absurd member (Array.not_mem_empty d)
  · show (TokenStream.ofSource source).ahead + 1 < source.length + 2
    omega
  · show (TokenStream.ofSource source).ahead + 1 < budget
    omega

theorem start_concludes (registry : Registry) (maxErrors : Nat) (source : String)
    (enough : source.length + 2 ≤ budget) :
    Concludes ⟨budget, source⟩ GivesUp (fun _ t => t.Through ∧ t.tokens.errors = #[])
      (.start registry maxErrors source) (sourceRule (.start registry maxErrors source))
      (sourceRule ((Session.start registry maxErrors source).granted budget)) :=
  sourceRule_concludes (start_orderly registry maxErrors source enough) rfl rfl

theorem Orderly.not_internal (orderly : Orderly b s) (member : d ∈ s.errors) :
    d.problem ≠ .internalError :=
  (orderly.recorded d member).not_internal

theorem GivesUp.not_internal (givesUp : GivesUp stop s) (member : d ∈ s.errors) :
    d.problem ≠ .internalError := by
  rcases givesUp.beyond with exceeded | repeated
  · obtain ⟨ds, recorded, -, errors⟩ := exceeded.errors
    rw [errors, Array.mem_push] at member
    rcases member with old | rfl
    · exact (recorded d old).not_internal
    · exact fun same => nomatch same
  · obtain ⟨ds, e, recorded, -, ordinary, -, errors⟩ := repeated.errors
    rw [errors, Array.mem_push, Array.mem_push, Array.mem_push] at member
    rcases member with ((old | rfl) | rfl) | rfl
    · exact (recorded d old).not_internal
    · exact fun same => nomatch same
    · exact ordinary.not_internal
    · exact fun same => nomatch same

/-- Compiling a source ends, with success or by giving up: its budget is never spent, which would be
an internal error, and with any larger budget it does the same. -/
theorem sourceRule_terminates (registry : Registry) (maxErrors : Nat) (source : String)
    (more : Nat) :
    ∃ s, (∀ d ∈ s.errors, d.problem ≠ .internalError) ∧
      (sourceRule (.start registry maxErrors source) = .ok () s ∧
        sourceRule ((Session.start registry maxErrors source).granted (source.length + 2 + more)) =
          .ok () (s.granted (source.length + 2 + more)) ∨
      sourceRule (.start registry maxErrors source) = .error .abort s ∧
        sourceRule ((Session.start registry maxErrors source).granted (source.length + 2 + more)) =
          .error .abort (s.granted (source.length + 2 + more))) := by
  have concludes := start_concludes registry maxErrors source
    (Nat.le_add_right (source.length + 2) more)
  generalize sourceRule (.start registry maxErrors source) = r,
    sourceRule ((Session.start registry maxErrors source).granted (source.length + 2 + more)) = r'
    at concludes
  cases concludes with
  | @ok _ s _ orderly _ => exact ⟨s, fun _ => orderly.not_internal, Or.inl ⟨rfl, rfl⟩⟩
  | @error stop s _ _ givesUp =>
    obtain rfl := givesUp.abort
    exact ⟨s, fun _ => givesUp.not_internal, Or.inr ⟨rfl, rfl⟩⟩

def ended {α : Type} : EStateM.Result Stop Session α → Session
  | .ok _ s => s
  | .error _ s => s

/-- The sessions between the items of a source. -/
inductive Visited (start : Session) : Session → Prop where
  | start : Visited start start
  | item {s t u v : Session} {tok : Token} : Visited start s → flush s = .ok () t →
      nextPastBreaks t = .ok tok u → tok.kind ≠ .endOfFile →
      recover (topLevelItem tok) u = .ok () v →
      Visited start v

inductive Defining (start : Session) (name : Token) : Session → Prop where
  | intro {s t u v : Session} : Visited start s → flush s = .ok () t →
      nextPastBreaks t = .ok name u →
      name.kind = .symbol → peekKind u = .ok .leftParen v → Defining start name v

theorem Concludes.ended {α : Type} {yields : α → Session → Prop}
    {r r' : EStateM.Result Stop Session α} (concludes : Concludes b stops yields s r r') :
    Onward s (ended r) ∧ Coherent b (ended r) := by
  cases concludes with
  | ok onward orderly _ => exact ⟨onward, orderly.toCoherent⟩
  | error onward coherent _ => exact ⟨onward, coherent⟩

theorem flush_orderly (orderly : Orderly b s) (ok : flush s = .ok () t) :
    Onward s t ∧ Orderly b t := by
  have concludes : Finishes b (Halts b fun _ => False) (fun _ t => t.tokens.errors = #[]) s flush :=
    flush_concludes orderly
  exact ⟨(concludes.of_ok ok).1, (concludes.of_ok ok).2.1⟩

theorem nextPastBreaks_orderly (orderly : Orderly b s) (ok : nextPastBreaks s = .ok tok t) :
    Onward s t ∧ Orderly b t ∧ Known b.source tok.line := by
  have concludes : Finishes b (Halts b fun _ => False) (Took b s) s nextPastBreaks :=
    nextPastBreaks_concludes orderly
  obtain ⟨onward, calm, took⟩ := concludes.of_ok ok
  exact ⟨onward, calm, took.known⟩

theorem Visited.orderly (visited : Visited start s) (orderly : Orderly b start)
    (outside : start.scope = none) : Onward start s ∧ Orderly b s := by
  induction visited with
  | start => exact ⟨.refl _, orderly⟩
  | item _ flushed taken _ recovered ih =>
    obtain ⟨so_far, calm⟩ := ih
    obtain ⟨onward₁, calm₁⟩ := flush_orderly calm flushed
    obtain ⟨onward₂, calm₂, known⟩ := nextPastBreaks_orderly calm₁ taken
    have so_far := (so_far.trans onward₁).trans onward₂
    obtain ⟨onward₃, calm₃, -⟩ :=
      (recover_item_concludes (topLevelItem_concludes known calm₂
        (so_far.outside_of outside))).of_ok recovered
    exact ⟨so_far.trans onward₃, calm₃⟩

theorem Defining.orderly (defining : Defining start name s)
    (orderly : Orderly b start) (outside : start.scope = none) :
    Onward start s ∧ Orderly b s ∧ Known b.source name.line := by
  obtain ⟨visited, flushed, taken, _, peeked⟩ := defining
  obtain ⟨so_far, calm⟩ := visited.orderly orderly outside
  obtain ⟨onward₁, calm₁⟩ := flush_orderly calm flushed
  obtain ⟨onward₂, calm₂, known⟩ := nextPastBreaks_orderly calm₁ taken
  have concludes : Concludes b (Halts b fun _ => False) _ _ _ _ := peekKind_concludes calm₂
  obtain ⟨onward₃, calm₃, -⟩ := concludes.of_ok peeked
  exact ⟨((so_far.trans onward₁).trans onward₂).trans onward₃, calm₃, known⟩

theorem finalSession_outcome (registry : Registry) (maxErrors : Nat) (source : String) :
    Onward (.start registry maxErrors source) (finalSession registry maxErrors source) ∧
      Coherent ⟨source.length + 2, source⟩ (finalSession registry maxErrors source) ∧
      (Orderly ⟨source.length + 2, source⟩ (finalSession registry maxErrors source) ∨
        GivesUp .abort (finalSession registry maxErrors source)) := by
  have concludes := start_concludes registry maxErrors source (Nat.le_refl (source.length + 2))
  unfold finalSession
  generalize sourceRule (.start registry maxErrors source) = r,
    sourceRule (Session.granted _ _) = r' at concludes
  cases concludes with
  | ok onward orderly _ => exact ⟨onward, orderly.toCoherent, Or.inl orderly⟩
  | error onward coherent givesUp =>
    obtain rfl := givesUp.abort
    exact ⟨onward, coherent, Or.inr givesUp⟩

theorem finalSession_clean {registry : Registry} {maxErrors : Nat} {source : String}
    (clean : (finalSession registry maxErrors source).errors = #[]) :
    sourceRule (.start registry maxErrors source) =
      .ok () (finalSession registry maxErrors source) := by
  have concludes := start_concludes registry maxErrors source (Nat.le_refl (source.length + 2))
  unfold finalSession at clean ⊢
  generalize sourceRule (.start registry maxErrors source) = r,
    sourceRule (Session.granted _ _) = r' at concludes clean
  cases concludes with
  | ok _ _ _ => rfl
  | error _ _ givesUp =>
    obtain rfl := givesUp.abort
    exact absurd clean givesUp.recorded

theorem body_closes {x : Scope} (known : Known b.source name.line) (orderly : Orderly b s)
    (head : functionHead name s = .ok x t) (flat : s.writer.outer = []) :
    (ended (functionBody { t with scope := some x })).writer.outer = [] ∧
      ∃ y, (ended (functionBody { t with scope := some x })).scope = some y ∧ y.loops = [] := by
  obtain ⟨onward, calm, unused⟩ := (functionHead_concludes known orderly).of_ok head
  have body := (functionBody_concludes (entered_orderly calm unused) rfl).ended.1
  obtain ⟨y, scope⟩ := Option.isSome_iff_exists.mp (body.inBody rfl)
  refine ⟨body.outer.trans (onward.outer.trans flat), y, scope, ?_⟩
  have depth := body.depth
  simp only [Session.depth, scope, Option.map_some, unused.loops, Option.some.injEq] at depth
  exact List.length_eq_zero_iff.mp depth

/-- Compiling is consistent, whatever the source. No internal error is recorded, no token was given
back on top of another one, and every patch hit a word of its kind. Behind the body of each function
that is defined all loops are closed, and behind its definition the outermost counting scope is the
only one, whether they were compiled, failed or were given up. -/
theorem compile_consistent (host : Registry) (options : Options) (source : String) :
    let start := Session.start (options.registry host) options.maxErrors source
    let final := finalSession (options.registry host) options.maxErrors source
    (∀ d ∈ final.errors, d.problem ≠ .internalError) ∧ final.tokens.lost = [] ∧
    final.writer.missed = [] ∧ ∀ name s, Defining start name s →
        (ended (functionDefinition name s)).writer.outer = [] ∧
        ∀ x t, functionHead name s = .ok x t →
          (ended (functionBody { t with scope := some x })).writer.outer = [] ∧
            ∃ y, (ended (functionBody { t with scope := some x })).scope = some y ∧
            y.loops = [] := by
  intro start final
  obtain ⟨-, coherent, outcome⟩ := finalSession_outcome (options.registry host)
    options.maxErrors source
  refine ⟨?_, coherent.tokens.lost, coherent.missed, ?_⟩
  · rcases outcome with orderly | givesUp
    · exact fun _ => orderly.not_internal
    · exact fun _ => givesUp.not_internal
  · intro name s defining
    have first : Orderly ⟨source.length + 2, source⟩ start :=
      start_orderly _ _ source (Nat.le_refl _)
    obtain ⟨onward, calm, known⟩ := defining.orderly first rfl
    have flat : s.writer.outer = [] := onward.outer
    refine ⟨?_, fun x t head => body_closes known calm head flat⟩
    exact (functionDefinition_concludes known calm (onward.outside_of rfl)).ended.1.outer.trans flat

def brokenLoop : String := "Main() \x7b while 1 \x7b x = ) \x7d \x7d"

theorem compile_consistent_brokenLoop :
    ∃ name s x t, Defining (.start .empty 0 brokenLoop) name s ∧ functionHead name s = .ok x t ∧
      (ended (functionDefinition name s)).writer.outer = [] ∧
      ∃ y, (ended (functionBody { t with scope := some x })).scope = some y ∧ y.loops = [] := by
  have reached : (match nextPastBreaks (.start .empty 0 brokenLoop) with
    | .ok name u => decide (name.kind = .symbol) && match peekKind u with
      | .ok kind s => decide (kind = .leftParen) && match functionHead name s with
        | .ok _ _ => true
        | .error _ _ => false
      | .error _ _ => false
    | .error _ _ => false) = true := by decide +kernel
  split at reached
  · rename_i name u taken
    obtain ⟨symbol, reached⟩ := Bool.and_eq_true_iff.mp reached
    split at reached
    · rename_i kind s peeked
      obtain ⟨parenthesis, reached⟩ := Bool.and_eq_true_iff.mp reached
      obtain rfl := of_decide_eq_true parenthesis
      split at reached
      · rename_i x t head
        have defining : Defining (.start .empty 0 brokenLoop) name s :=
          .intro .start (flush_none rfl) taken (of_decide_eq_true symbol) peeked
        obtain ⟨-, -, -, functions⟩ := compile_consistent .empty ⟨0, true, false, []⟩ brokenLoop
        obtain ⟨flat, bodies⟩ := functions name s defining
        exact ⟨name, s, x, t, defining, head, flat, (bodies x t head).2⟩
      · cases reached
    · cases reached
  · cases reached

/-- The errors of a compilation with a limit. -/
inductive Limited (limit : Nat) : List Diagnostic → Prop where
  | few {ds : List Diagnostic} : (∀ d ∈ ds, d.Ordinary) → ds.length ≤ limit → Limited limit ds
  | exceeded {ds : List Diagnostic} {line : UInt32} : (∀ d ∈ ds, d.Ordinary) →
      ds.length = limit + 1 → Limited limit (ds ++ [.fatal .tooManyErrors line])
  | repeated {ds : List Diagnostic} {d : Diagnostic} {line : UInt32} : (∀ d ∈ ds, d.Ordinary) →
      ds.length = limit + 1 → d.Ordinary → d.problem = .labelNotDefined ∨
      d.problem = .expectedRightBrace →
      Limited limit (ds ++ [.fatal .tooManyErrors line, d, .fatal .tooManyErrors line])

theorem Orderly.limited (orderly : Orderly b s) : Limited s.maxErrors s.errors.toList :=
  .few (fun d member => orderly.recorded d (Array.mem_toList_iff.mp member))
    (by simpa using orderly.few)

theorem GivesUp.limited (givesUp : GivesUp stop s) : Limited s.maxErrors s.errors.toList := by
  rcases givesUp.beyond with exceeded | repeated
  · obtain ⟨ds, recorded, size, errors⟩ := exceeded.errors
    rw [errors, Array.toList_push]
    exact .exceeded (fun d member => recorded d (Array.mem_toList_iff.mp member))
      (by simpa using size)
  · obtain ⟨ds, d, recorded, size, ordinary, which, errors⟩ := repeated.errors
    rw [errors, Array.toList_push, Array.toList_push, Array.toList_push, List.append_assoc,
      List.append_assoc]
    exact .repeated (fun d member => recorded d (Array.mem_toList_iff.mp member))
      (by simpa using size) ordinary which

/-- A compilation that fails gives at least one error. All errors are problems of the source and as
many as the limit allows at most, or there is one more and then the message that there are too many.
That is the end of the list unless a function is ended beyond the limit: then one label without a
place or one block without an end follows, and the message again. -/
theorem compile_limited {host : Registry} {options : Options} {source : String}
    {ds : List Diagnostic} (failed : compile host options source = .error ds) :
    ds ≠ [] ∧ Limited options.maxErrors ds := by
  obtain ⟨onward, -, outcome⟩ := finalSession_outcome (options.registry host)
    options.maxErrors source
  unfold compile at failed
  dsimp only at failed
  generalize finalSession (options.registry host) options.maxErrors source = final at *
  have limit : final.maxErrors = options.maxErrors := onward.maxErrors
  split at failed
  · cases failed
  · rename_i some_
    obtain rfl := Except.error.inj failed
    rw [← limit]
    refine ⟨fun none_ => some_ (by simpa using none_), ?_⟩
    rcases outcome with orderly | givesUp
    · exact orderly.limited
    · exact givesUp.limited

def lateLabel : String := "Main() \x7b\n goto a\n x = )\n\x7d"

theorem compile_limited_lateLabel :
    ∃ ds, compile .empty ⟨0, true, false, []⟩ lateLabel = .error ds ∧
      ds.map (·.problem) = [.expectedExpression, .tooManyErrors, .labelNotDefined, .tooManyErrors] ∧
      ds ≠ [] ∧ Limited 0 ds := by
  have fails :
      (((compile .empty ⟨0, true, false, []⟩ lateLabel).map fun _ => false).tryCatch fun ds =>
      .ok (decide (ds.map (·.problem) =
        [.expectedExpression, .tooManyErrors, .labelNotDefined, .tooManyErrors]))).toOption =
      some true := by decide +kernel
  cases failed : compile .empty ⟨0, true, false, []⟩ lateLabel with
  | ok p =>
    rw [failed] at fails
    cases fails
  | error ds =>
    rw [failed] at fails
    exact ⟨ds, rfl, of_decide_eq_true (Option.some.inj fails), compile_limited failed⟩

end Scriptlet.Compile
