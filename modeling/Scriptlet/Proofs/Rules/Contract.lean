import Scriptlet.Compile.Basic
import Scriptlet.Proofs.Compile.Emission
import Scriptlet.Proofs.Rules.Lines
import Scriptlet.Proofs.Source.Pieces

/-!
How every rule of the compiler ends, whether it succeeds, fails or gives up. A session is orderly if
no token was lost, every patch hit a word of its kind, the operands that wait for a target are
operands, all errors on record are problems of the source and within the limit, all lines are lines
of the source, and the budget exceeds what is ahead. A rule that starts in an orderly session ends
in one, unless it gives up because the limit is passed; it reads on, only appends code, and leaves
as many loops and counting scopes open as it found. No rule gets rid of a problem of the text: what
is ahead will be met, and what was met will be on record. All this does not depend on how large the
budget is: the run with any other sufficient budget is the same.

The statements are about what a rule makes of one session, and compose along the sequence of its
actions.
-/
namespace Scriptlet

open Actions Source

def Problem.isOrdinary : Problem → Bool
  | .internalError | .tooManyErrors => false
  | _ => true

structure Diagnostic.Ordinary (d : Diagnostic) : Prop where
  mild : d.severity = .error
  ordinary : d.problem.isOrdinary = true

variable {d : Diagnostic}

theorem Diagnostic.Ordinary.not_fatal (ordinary : d.Ordinary) : d.isFatal = false := by
  simp [Diagnostic.isFatal, ordinary.mild]

theorem Diagnostic.Ordinary.not_internal (ordinary : d.Ordinary) : d.problem ≠ .internalError := by
  intro same
  have about := ordinary.ordinary
  rw [same] at about
  cases about

theorem Token.quotationErrors_ordinary (line : UInt32) (content : List Char)
    (ending : Token.Ending) :
    ∀ d ∈ quotationErrors line content ending, d.Ordinary := by
  cases ending <;> simp [quotationErrors]
  exact ⟨rfl, rfl⟩

theorem Token.scan_ordinary (cs : List Char) (line : UInt32) :
    ∀ d ∈ (Token.scan cs line).errors, d.Ordinary := by
  fun_induction Token.scan cs line with
  | case1 line => simp
  | case2 line c rest p shorter same ih => exact ih
  | case3 line c rest p shorter same ih =>
    intro d member
    rcases List.mem_cons.mp member with rfl | further
    · exact ⟨rfl, rfl⟩
    · exact ih d further
  | case4 | case5 => simp
  | case6 line c rest p shorter content ending same =>
    exact Token.quotationErrors_ordinary _ content ending

namespace TokenStream

/-- No token was lost, what was met is a problem of the source, and the end of the file is given
back only at the end of the text. -/
structure Neat (s : TokenStream) : Prop where
  lost : s.lost = []
  errors : ∀ d ∈ s.errors, d.Ordinary
  ended : ∀ t ∈ s.pushed, t.kind = .endOfFile → s.rest = []

/-- A problem was met or is ahead. -/
def Flawed (s : TokenStream) : Prop :=
  s.errors ≠ #[] ∨ ∃ p ∈ Token.pieces s.rest, p.role.isReported = true

variable {s : TokenStream}

theorem Neat.next (neat : s.Neat) : s.next.2.Neat := by
  unfold TokenStream.next
  split
  · exact ⟨neat.lost, neat.errors, by simp⟩
  · refine ⟨neat.lost, fun d member => ?_, by simp [TokenStream.scan]⟩
    have listed := Array.mem_toList_iff.mpr member
    rw [TokenStream.scan, Array.toList_appendList, List.mem_append] at listed
    rcases listed with old | new
    · exact neat.errors d (Array.mem_toList_iff.mp old)
    · exact Token.scan_ordinary _ _ d new

theorem Neat.next_end (neat : s.Neat) (last : s.next.1.kind = .endOfFile) : s.next.2.rest = [] := by
  unfold TokenStream.next at last ⊢
  cases pushed : s.pushed with
  | some t =>
    rw [pushed] at last
    exact neat.ended t (by simp [pushed]) last
  | none =>
    rw [pushed] at last
    exact Token.scan_end last

theorem Neat.unget (neat : s.Neat) (free : s.pushed = none) {t : Token}
    (last : t.kind = .endOfFile → s.rest = []) : (s.unget t).Neat := by
  refine ⟨by simp [TokenStream.unget, free, neat.lost], neat.errors, ?_⟩
  rintro _ ⟨⟩
  exact last

theorem Neat.peek (neat : s.Neat) : s.peek.2.Neat := neat.next.unget s.next_pushed neat.next_end

theorem Neat.nextPastBreaks (neat : s.Neat) : s.nextPastBreaks.2.Neat := by
  fun_induction TokenStream.nextPastBreaks s with
  | case1 s read lineBreak shorter ih => exact ih neat.next
  | case2 s read other => exact neat.next

theorem Neat.nextPastBreaks_end (neat : s.Neat) (last : s.nextPastBreaks.1.kind = .endOfFile) :
    s.nextPastBreaks.2.rest = [] := by
  fun_induction TokenStream.nextPastBreaks s with
  | case1 s read lineBreak shorter ih => exact ih neat.next last
  | case2 s read other => exact neat.next_end last

theorem Flawed.next (flawed : s.Flawed) : s.next.2.Flawed := by
  unfold TokenStream.next
  split
  · exact flawed
  · obtain ⟨before, cut, shows_⟩ := Token.scan_pieces s.rest s.line
    have either : s.errors ≠ #[] ∨ (Token.scan s.rest s.line).errors ≠ [] →
        (s.scan.2).errors ≠ #[] := by
      intro some_ none_
      have both : s.errors.toList ++ (Token.scan s.rest s.line).errors = [] := by
        rw [← Array.toList_appendList]
        exact congrArg Array.toList none_
      obtain ⟨old, new⟩ := List.append_eq_nil_iff.mp both
      exact some_.elim (fun some_ => some_ (Array.toList_eq_nil_iff.mp old)) fun some_ => some_ new
    rcases flawed with met | ⟨p, member, bad⟩
    · exact Or.inl (either (Or.inl met))
    · rw [cut, List.mem_append] at member
      rcases member with taken | ahead
      · exact Or.inl (either (Or.inr ((shows_ p taken).reported bad)))
      · exact Or.inr ⟨p, ahead, bad⟩

theorem Flawed.nextPastBreaks (flawed : s.Flawed) : s.nextPastBreaks.2.Flawed := by
  fun_induction TokenStream.nextPastBreaks s with
  | case1 s read lineBreak shorter ih => exact ih flawed.next
  | case2 s read other => exact flawed.next

theorem nextPastBreaks_pushed (s : TokenStream) : s.nextPastBreaks.2.pushed = none := by
  fun_induction TokenStream.nextPastBreaks s with
  | case1 s read lineBreak shorter ih => exact ih
  | case2 s read other => exact s.next_pushed

end TokenStream

namespace Compile

variable {α β : Type} {a : Nat} {isOpcode : Bool}

def Session.kinds (s : Session) : List Bool := s.writer.entries.toList.map (·.isOpcode)

/-- The operands that wait for a label or for the end of a loop. -/
def Scope.pending (x : Scope) : List Nat :=
  x.labels.flatMap (·.2.waiting) ++ x.loops.flatMap fun l => l.breaks ++ l.continues

def Session.pending (s : Session) : List Nat := (s.scope.map Scope.pending).getD []

def Session.depth (s : Session) : Option Nat := s.scope.map (·.loops.length)

def Session.granted (b : Nat) (s : Session) : Session := { s with budget := b }

theorem granted_literals (b : Nat) (s : Session) : (s.granted b).literals = s.literals := rfl

theorem granted_functions (b : Nat) (s : Session) : (s.granted b).functions = s.functions := rfl

theorem granted_lookup? (b : Nat) (s : Session) (name : String) :
    (s.granted b).lookup? name = s.lookup? name := rfl

structure Terms where
  budget : Nat
  source : String

instance : Coe Terms Nat := ⟨Terms.budget⟩

/-- Nothing went wrong that the source is not to blame for. -/
structure Coherent (b : Terms) (s : Session) : Prop where
  tokens : s.tokens.Neat
  missed : s.writer.missed = []
  pending : ∀ a ∈ s.pending, s.kinds[a]? = some false
  lined : s.Lined b.source

/-- Compiling can go on, with the budget it has and with a budget of `b`. -/
structure Orderly (b : Terms) (s : Session) : Prop extends Coherent b s where
  recorded : ∀ d ∈ s.errors, d.Ordinary
  few : s.errors.size ≤ s.maxErrors
  room : s.tokens.ahead + 1 < s.budget
  enough : s.tokens.ahead + 1 < b.budget

/-- One error more than the limit allows is on record, and then that there are too many. -/
structure Exceeded (s : Session) : Prop where
  drained : s.tokens.errors = #[]
  errors : ∃ ds : Array Diagnostic, (∀ d ∈ ds, d.Ordinary) ∧ ds.size = s.maxErrors + 1 ∧
    s.errors = ds.push (Diagnostic.fatal .tooManyErrors s.tokens.line)

def Session.Flawed (s : Session) : Prop := s.errors ≠ #[] ∨ s.tokens.Flawed

/-- What no rule takes back. -/
structure Onward (s t : Session) : Prop where
  budget : t.budget = s.budget
  maxErrors : t.maxErrors = s.maxErrors
  ahead : t.tokens.ahead ≤ s.tokens.ahead
  kinds : s.kinds <+: t.kinds
  outer : t.writer.outer = s.writer.outer
  depth : t.depth = s.depth
  functions : s.functions.length ≤ t.functions.length
  flawed : s.Flawed → t.Flawed

theorem Onward.refl (s : Session) : Onward s s :=
  ⟨rfl, rfl, Nat.le_refl _, List.prefix_rfl, rfl, rfl, Nat.le_refl _, id⟩

theorem Onward.trans {s t u : Session} (first : Onward s t) (second : Onward t u) : Onward s u where
  budget := second.budget.trans first.budget
  maxErrors := second.maxErrors.trans first.maxErrors
  ahead := Nat.le_trans second.ahead first.ahead
  kinds := first.kinds.trans second.kinds
  outer := second.outer.trans first.outer
  depth := second.depth.trans first.depth
  functions := Nat.le_trans first.functions second.functions
  flawed := second.flawed ∘ first.flawed

theorem kind_kept {before after : List Bool} (longer : before <+: after)
    (there : before[a]? = some isOpcode) :
    after[a]? = some isOpcode := by
  obtain ⟨more, rfl⟩ := longer
  rw [List.getElem?_append_left (List.getElem?_eq_some_iff.mp there).1]
  exact there

theorem Onward.kind {s t : Session} (onward : Onward s t) (there : s.kinds[a]? = some isOpcode) :
    t.kinds[a]? = some isOpcode :=
  kind_kept onward.kinds there

def Session.InBody (s : Session) : Prop := s.scope.isSome = true

theorem Onward.inBody {s t : Session} (onward : Onward s t) (inside : s.InBody) : t.InBody := by
  have depth := congrArg Option.isSome onward.depth
  simp only [Session.depth, Option.isSome_map] at depth
  exact depth.trans inside

theorem Onward.outside_of {s t : Session} (onward : Onward s t) (outside : s.scope = none) :
    t.scope = none := by
  have depth := onward.depth
  simpa [Session.depth, outside] using depth

/-- How a rule may stop: with a diagnostic to be reported, or because there are too many. -/
inductive Halts (b : Terms) (fails : Diagnostic → Prop) : Stop → Session → Prop where
  | error {d : Diagnostic} {t : Session} : Orderly b t → Known b.source d.line → fails d →
      Halts b fails (.error d) t
  | abort {t : Session} : Exceeded t → Halts b fails .abort t

theorem Halts.loosen {b : Terms} {fails looser : Diagnostic → Prop} {stop : Stop} {t : Session}
    (halts : Halts b fails stop t) (loosen : ∀ d, fails d → looser d) : Halts b looser stop t := by
  cases halts with
  | error orderly known given => exact .error orderly known (loosen _ given)
  | abort exceeded => exact .abort exceeded

/-- How a rule may end that started in `s`: two results that differ in the budget only. A success
has what `yields` says, and a stop what `stops` says. -/
inductive Concludes (b : Terms) (stops : Stop → Session → Prop) (yields : α → Session → Prop)
    (s : Session) : EStateM.Result Stop Session α → EStateM.Result Stop Session α → Prop where
  | ok {a : α} {t : Session} : Onward s t → Orderly b t → yields a t →
      Concludes b stops yields s (.ok a t) (.ok a (t.granted b))
  | error {stop : Stop} {t : Session} : Onward s t → Coherent b t → stops stop t →
      Concludes b stops yields s (.error stop t) (.error stop (t.granted b))

variable {b : Terms} {stops stops' : Stop → Session → Prop} {fails : Diagnostic → Prop}
  {s t w : Session}

abbrev Finishes (b : Terms) (stops : Stop → Session → Prop) (yields : α → Session → Prop)
    (s : Session) (x : Compile α) : Prop :=
  Concludes b stops yields s (x s) (x (s.granted b))

namespace Concludes

variable {yields : α → Session → Prop} {yields' : β → Session → Prop} {x y : Compile α}
  {f g : α → Compile β} {a : α} {r r' : EStateM.Result Stop Session α}

theorem rebase (onward : Onward s t)
    (concludes : Concludes b stops yields t r r') : Concludes b stops yields s r r' := by
  cases concludes with
  | ok further orderly given => exact .ok (onward.trans further) orderly given
  | error further coherent given => exact .error (onward.trans further) coherent given

theorem weaken {weaker : α → Session → Prop} (concludes : Concludes b stops yields s r r')
    (weaken : ∀ a t, Onward s t → yields a t → weaker a t) : Concludes b stops weaker s r r' := by
  cases concludes with
  | ok onward orderly given => exact .ok onward orderly (weaken _ _ onward given)
  | error onward coherent given => exact .error onward coherent given

theorem loosen (concludes : Concludes b stops yields s r r')
    (loosen : ∀ stop t, stops stop t → stops' stop t) : Concludes b stops' yields s r r' := by
  cases concludes with
  | ok onward orderly given => exact .ok onward orderly given
  | error onward coherent given => exact .error onward coherent (loosen _ _ given)

theorem of_ok (concludes : Concludes b stops yields s (x s) (y (s.granted b)))
    (ok : x s = .ok a t) :
    Onward s t ∧ Orderly b t ∧ yields a t := by
  generalize x s = r, y (s.granted b) = r' at concludes ok
  cases concludes with
  | ok onward orderly given =>
    cases ok
    exact ⟨onward, orderly, given⟩
  | error _ _ _ => cases ok

/-- An action on the way from `s`, where the rest is about what happened since `s`. -/
theorem after (first : Concludes b stops yields w (x t) (y (t.granted b))) (onward : Onward s w)
    (rest : ∀ a u, Onward w u → Orderly b u → yields a u →
      Concludes b stops yields' s (f a u) (g a (u.granted b))) :
    Concludes b stops yields' s ((x >>= f) t) ((y >>= g) (t.granted b)) := by
  rw [bind_apply, bind_apply]
  generalize x t = r, y (t.granted b) = r' at first
  cases first with
  | ok further orderly given => exact rest _ _ further orderly given
  | error further coherent given => exact .error (onward.trans further) coherent given

theorem bind (first : Concludes b stops yields s (x t) (y (t.granted b)))
    (rest : ∀ a u, Onward s u → Orderly b u → yields a u →
      Concludes b stops yields' s (f a u) (g a (u.granted b))) :
    Concludes b stops yields' s ((x >>= f) t) ((y >>= g) (t.granted b)) :=
  first.after (.refl s) rest

theorem andThen (first : Concludes b stops yields s (x t) (y (t.granted b)))
    (rest : ∀ a u, Onward s u → Orderly b u → yields a u →
      Concludes b stops yields' u (f a u) (g a (u.granted b))) :
    Concludes b stops yields' s ((x >>= f) t) ((y >>= g) (t.granted b)) :=
  first.bind fun a u onward orderly given => (rest a u onward orderly given).rebase onward

theorem get {f g : Session → Compile β}
    (rest : Concludes b stops yields' s (f t t) (g (t.granted b) (t.granted b))) :
    Concludes b stops yields' s ((MonadState.get >>= f) t) ((MonadState.get >>= g) (t.granted b)) :=
  rest

/-- A rule whose failure is a value. It may have a start of its own, if the rest closes what was
opened before it. -/
theorem attempt {f g : Except Stop α → Compile β} {start : Session}
    (first : Concludes b stops yields start (x t) (y (t.granted b)))
    (succeeded : ∀ a u, Onward start u → Orderly b u → yields a u →
      Concludes b stops' yields' s (f (.ok a) u) (g (.ok a) (u.granted b)))
    (stopped : ∀ stop u, Onward start u → Coherent b u → stops stop u →
      Concludes b stops' yields' s (f (.error stop) u) (g (.error stop) (u.granted b))) :
    Concludes b stops' yields' s ((Compile.attempt x >>= f) t)
      ((Compile.attempt y >>= g) (t.granted b)) := by
  rw [bind_apply, bind_apply, Compile.attempt, Compile.attempt]
  generalize x t = r, y (t.granted b) = r' at first
  cases first with
  | ok onward orderly given => exact succeeded _ _ onward orderly given
  | error onward coherent given => exact stopped _ _ onward coherent given

theorem discard {weaker : PUnit → Session → Prop}
    (concludes : Concludes b stops yields s (x t) (y (t.granted b)))
    (weaken : ∀ a u, Onward s u → yields a u → weaker ⟨⟩ u) :
    Concludes b stops weaker s (Functor.discard x t) (Functor.discard y (t.granted b)) := by
  rw [discard_apply, discard_apply]
  generalize x t = r, y (t.granted b) = r' at concludes
  cases concludes with
  | ok onward orderly given => exact .ok onward orderly (weaken _ _ onward given)
  | error onward coherent given => exact .error onward coherent given

theorem map {f : α → β} (concludes : Concludes b stops yields s (x t) (y (t.granted b)))
    (mapped : ∀ a u, Onward s u → yields a u → yields' (f a) u) :
    Concludes b stops yields' s ((f <$> x) t) ((f <$> y) (t.granted b)) := by
  change Concludes b stops yields' s (EStateM.map f x t) (EStateM.map f y (t.granted b))
  unfold EStateM.map
  generalize x t = r, y (t.granted b) = r' at concludes
  cases concludes with
  | ok onward orderly given => exact .ok onward orderly (mapped _ _ onward given)
  | error onward coherent given => exact .error onward coherent given

theorem ite {c : Prop} [Decidable c] {x' y' : Compile α}
    (yes : c → Concludes b stops yields s (x t) (y (t.granted b)))
    (no : ¬ c → Concludes b stops yields s (x' t) (y' (t.granted b))) :
    Concludes b stops yields s ((if c then x else x') t) ((if c then y else y') (t.granted b)) := by
  by_cases h : c
  · rw [if_pos h, if_pos h]
    exact yes h
  · rw [if_neg h, if_neg h]
    exact no h

theorem pure (orderly : Orderly b s) (given : yields a s) :
    Concludes b stops yields s ((Pure.pure a : Compile α) s)
      ((Pure.pure a : Compile α) (s.granted b)) :=
  .ok (.refl s) orderly given

theorem fail {d : Diagnostic} (orderly : Orderly b s) (known : Known b.source d.line)
    (given : fails d) :
    Concludes b (Halts b fails) yields s (Compile.fail d s) (Compile.fail d (s.granted b)) :=
  .error (.refl s) orderly.toCoherent (.error orderly known given)

end Concludes

end Compile

end Scriptlet
