import Scriptlet.Proofs.Compile.Statements
import Scriptlet.Proofs.Script.Coding

/-!
The loops that are open while a function is compiled. A session knows where `break` and `continue`
of its innermost loop go; opening a loop, testing at its start and closing it change the marks and
the words, and nothing else. Code that does not wait for a target is not touched when the target is
reached.
-/
namespace Scriptlet.Compile

open Actions Code Script

variable {s s' t : Session} {base : List UInt32} {pending : List Nat} {row : List Statement}
  {x : Scope} {l : Loop} {loops : List Loop} {r : Nat × Nat} {outer : List (Nat × Nat)}

def Session.exits (s : Session) : Exits :=
  match s.rounds.length with
  | 0 => none
  | depth + 1 => some (.exit depth, .again depth)

theorem exits_of_rounds (same : s'.rounds = s.rounds) : s'.exits = s.exits := by
  rw [Session.exits, Session.exits, same]

theorem exits_resolve_later (s : Session) (operand address : Nat) :
    s.exits.resolve (.later operand) address = s.exits := by
  unfold Session.exits
  split <;> rfl

theorem exits_cons (rounds : s.rounds = r :: outer) :
    s.exits = some (.exit outer.length, .again outer.length) := by
  rw [Session.exits, rounds]
  rfl

theorem rounds_of_scope (scope : s.scope = some x) :
    s.rounds = x.loops.map fun l => (l.start, l.resume) := by
  rw [Session.rounds, marks_of_scope scope]

theorem innermost_round (rounds : s.rounds = r :: outer) :
    ∃ x l loops, s.scope = some x ∧ x.loops = l :: loops ∧ (l.start, l.resume) = r ∧
      loops.map (fun l => (l.start, l.resume)) = outer := by
  cases scope : s.scope with
  | none => simp [Session.rounds, Session.marks, scope] at rounds
  | some x =>
    rw [rounds_of_scope scope] at rounds
    obtain ⟨l, loops, split, same, tail⟩ := List.map_eq_cons_iff.mp rounds
    exact ⟨x, l, loops, rfl, split, same, tail⟩

theorem Tracks.not_pending (tracks : Tracks base pending s row) : s.writer.ip + 1 ∉ pending := by
  intro waits
  have := tracks.pending_lt waits
  omega

theorem waiting_later {marks : NameTable Label × List Loop} {operand : Nat}
    (new : operand ∉ pending) : waiting marks pending (.later operand) = [] := by
  rw [waiting, if_neg new]

theorem looping_rounds (scope : s.scope = some x) :
    (s.looping x).rounds = (s.writer.ip, s.writer.ip) :: s.rounds := by
  rw [rounds_of_scope scope]
  rfl

theorem looping_labels (s : Session) (x : Scope) : (s.looping x).marks.1 = x.labels := rfl

theorem looping_scope (s : Session) (x : Scope) :
    ∃ y l, (s.looping x).scope = some y ∧ y.loops = l :: x.loops :=
  ⟨_, _, rfl, rfl⟩

theorem inLoop_eq {body : Nat → Compile Unit} (scope : s.scope = some x)
    (ran : body s.writer.ip (s.looping x) = .ok () t)
    (closed : closeLoop ⟨x.loops.length⟩ t = .ok () s') :
    inLoop body s = .ok () s' := by
  have attempted : attempt (body s.writer.ip) (s.looping x) = .ok (.ok ()) t := by rw [attempt, ran]
  rw [inLoop_looping scope, bind_ok _ attempted, bind_ok _ closed]
  rfl

theorem testing_rounds (scope : s.scope = some x) (around : x.loops = l :: loops) :
    (s.testing x l loops).rounds = s.rounds := by
  rw [rounds_of_scope scope, around]
  rfl

theorem testing_labels (l : Loop) (loops : List Loop) (scope : s.scope = some x) :
    (s.testing x l loops).marks.1 = s.marks.1 := by
  rw [marks_of_scope scope]
  rfl

theorem resume_eq (scope : s.scope = some x) (around : x.loops = l :: loops) :
    modifyScope (·.modifyLoop fun l => { l with resume := s.writer.ip }) s =
      .ok () (s.resumed x l loops) := by
  change EStateM.Result.ok () _ = _
  simp only [scope, Option.map_some, Scope.modifyLoop, around]
  rfl

end Scriptlet.Compile
