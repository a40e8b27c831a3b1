import Scriptlet.Proofs.Machine.Events

/-!
Calls with an admitted number of arguments. If no function of the host and no native function is
ever called with another number, then it makes no difference to any run what they would do with one.
-/
namespace Scriptlet

open Actions

namespace Function

def offers (name : String) (count : Nat) : Function → Bool
  | .host known arity => known == name && arity.admits count
  | _ => false

/-- A native function that does something else with numbers of arguments that it does not admit. -/
def stray (natives : String → List Value → Value) : Function → Function
  | .native f =>
    .native { f with
      apply := fun vs => if f.arity.admits vs.length then f.apply vs else natives f.name vs }
  | f => f

end Function

def Program.stray (natives : String → List Value → Value) (p : Program) : Program :=
  { p with functions := p.functions.map (Function.stray natives) }

/-- A host that does something else with calls that no function of the program admits. -/
def Host.stray {World : Type} (p : Program)
    (calls : String → List Value → World → Except String Value × World) (host : Host World) :
    Host World :=
  { host with
    call := fun name vs =>
      if p.functions.any (·.offers name vs.length) then host.call name vs else calls name vs }

namespace Machine

variable {World : Type} {p : Program} {host : Host World} {m : Machine World}
  {natives : String → List Value → Value}
  {calls : String → List Value → World → Except String Value × World} {α : Type}

namespace Request

def stray (p : Program) (calls : String → List Value → World → Except String Value × World) :
    Request World → Request World
  | .start host => .start (host.stray p calls)
  | .step host => .step (host.stray p calls)
  | .run host more => .run (host.stray p calls) more

end Request

/-- The function that the next unit of work calls, and the arguments. -/
def calling? (p : Program) (m : Machine World) : Option (Function × List Value) :=
  match m.work with
  | .instruction i 0 values :: _ =>
    i.callee?.bind fun callee => (p.functions[callee.1]?).map (·, values.reverse)
  | _ => none

/-- Functions of the host and native functions are called with admitted numbers of arguments only.
-/
def Admits (p : Program) (m : Machine World) : Prop :=
  m.atBoundary = false → ∀ f arguments, m.calling? p = some (f, arguments) →
    ∀ arity, f.arity? = some arity → arity.admits arguments.length = true

theorem call_stray {place : Nat} {arguments : List Value} (wanted : Bool) (m : Machine World)
    (admitted : ∀ f arity, p.functions[place]? = some f → f.arity? = some arity →
      arity.admits arguments.length = true) :
    call (host.stray p calls) (p.stray natives) place arguments wanted m =
      call host p place arguments wanted m := by
  have strayed : (p.stray natives).functions[place]? =
      (p.functions[place]?).map (Function.stray natives) := Array.getElem?_map ..
  cases found : p.functions[place]? with
  | none =>
    rw [found] at strayed
    rw [call, call, found, strayed]
    rfl
  | some f =>
    rw [found] at strayed
    have admits := fun arity => admitted f arity found
    cases f with
    | user f =>
      rw [call_user found, call_user strayed]
      rfl
    | native f =>
      have same : (if f.arity.admits arguments.length then f.apply arguments
          else natives f.name arguments) = f.apply arguments := if_pos (admits f.arity rfl)
      rw [call_native found, call_native strayed]
      dsimp only
      rw [same]
    | host name arity =>
      have offered : p.functions.any (·.offers name arguments.length) = true := by
        refine Array.any_eq_true'.mpr ⟨_, Array.mem_of_getElem? found, ?_⟩
        simp [Function.offers, admits arity rfl]
      have same : (host.stray p calls).call name arguments = host.call name arguments :=
        if_pos offered
      rw [call_host found, call_host strayed, same]

theorem beginStatement_stray :
    (beginStatement (p.stray natives) : Action World Unit) = beginStatement p := by
  simp only [beginStatement, opcode, await, Program.stray]

theorem token_stray : (token (p.stray natives) : Action World Unit) = token p := by
  simp only [token, opcode, await, Program.stray]

theorem leave_stray (v : Value) : leave (host.stray p calls) v = leave host v := by
  simp only [leave, halt, Host.stray]

theorem complete_stray {i : Instruction} (other : i.callee? = none) (values : List Value) :
    complete (host.stray p calls) (p.stray natives) i values = complete host p i values := by
  by_cases legal : i.Legal
  · cases legal with
    | callStatement | call => cases other
    | returnValue => simp only [complete, leave_stray]
    | _ => simp only [complete, Program.stray]
  · rw [complete_illegal legal, complete_illegal legal]

theorem advance_stray (admitted : m.Admits p) (busy : m.atBoundary = false) :
    advance (host.stray p calls) (p.stray natives) m = advance host p m := by
  have admits := admitted busy
  by_cases completes : ∃ i values rest, m.work = .instruction i 0 values :: rest
  · obtain ⟨i, values, rest, working⟩ := completes
    rw [advance_complete working, advance_complete working]
    cases calling : i.callee? with
    | some callee =>
      obtain ⟨place, wanted⟩ := callee
      rw [complete_callee calling, complete_callee calling]
      refine call_stray wanted _ fun f arity found known => admits f values.reverse ?_ arity known
      simp only [calling?, working, calling, Option.bind_some, found, Option.map_some]
    | none => rw [complete_stray calling]
  · rw [advance, advance, get_bind, get_bind, token_stray]
    rcases working : m.work with _ | ⟨⟨i, _ | n, values⟩ | ⟨_ | n, operands⟩, rest⟩
    case cons.instruction.zero => exact absurd ⟨i, values, rest, working⟩ completes
    all_goals simp only [Program.stray]

theorem bind_congr_of {β : Type} {x y : Action World α} {f g : α → Action World β}
    (first : x m = y m) (then_ : ∀ a m', y m = .ok a m' → f a m' = g a m') :
    (x >>= f) m = (y >>= g) m := by
  cases ran : y m with
  | ok a m' => rw [bind_ok _ (first.trans ran), bind_ok _ ran, then_ a m' ran]
  | error e m' => rw [bind_error _ (first.trans ran), bind_error _ ran]

theorem met_of_ok {r : EStateM.Result Fault (Machine World) α} {a : α}
    (after : After (Met p) r) (ok : r = .ok a m) : Met p m := by
  subst ok
  exact after

section Runs

variable (admitted : ∀ m : Machine World, Met p m → m.Admits p)

include admitted

theorem workOff_stray (depth fuel : Nat) (met : Met p m) :
    workOff (host.stray p calls) (p.stray natives) depth fuel m = workOff host p depth fuel m := by
  induction fuel generalizing m with
  | zero => rfl
  | succ n ih =>
    by_cases working : Working depth m
    · rw [workOff_working working, workOff_working working]
      refine bind_congr_of (advance_stray (admitted m met) working.2.2) fun _ m' ran => ih ?_
      obtain ⟨gs, visited⟩ := met
      exact met_of_ok (advance_met visited working.2.2) ran
    · rw [workOff_idle working, workOff_idle working]

theorem goOn_stray (met : Met p m) :
    goOn (host.stray p calls) (p.stray natives) m = goOn host p m := by
  rw [goOn, goOn, get_bind, get_bind]
  exact bind_congr_of (workOff_stray admitted _ _ met) fun _ _ _ => rfl

theorem step_stray (met : Met p m) :
    step (host.stray p calls) (p.stray natives) m = step host p m := by
  cases running : m.halted with
  | true => rw [step_halted running, step_halted running]
  | false =>
    have begun : Met p (m.announced host) := announced_met met
    have same : m.announced (host.stray p calls) = m.announced host := rfl
    have words : (p.stray natives).words = p.words := rfl
    rw [step_announced running, step_announced running, same, words]
    split
    · rename_i boundary
      split
      · rfl
      · refine bind_congr_of (congrFun beginStatement_stray _) fun _ m' ran => goOn_stray
          admitted ?_
        obtain ⟨gs, visited⟩ := begun
        exact met_of_ok (beginStatement_met visited boundary) ran
    · exact goOn_stray admitted begun

theorem runFor_stray (n : Nat) (met : Met p m) :
    runFor (host.stray p calls) (p.stray natives) n m = runFor host p n m := by
  induction n generalizing m with
  | zero => rw [runFor, runFor]
  | succ n ih =>
    rw [runFor, runFor]
    refine bind_congr_of (step_stray admitted met) fun more m' ran => ?_
    cases more with
    | true =>
      simp only [↓reduceIte]
      exact ih (met_of_ok (step_met met) ran)
    | false => simp only [Bool.false_eq_true, ↓reduceIte]

theorem perform_stray (r : Request World) (met : Met p m) :
    (r.stray p calls).perform (p.stray natives) m = r.perform p m ∧ Met p (r.perform p m) := by
  cases r with
  | start host => exact ⟨rfl, announced_met met⟩
  | step host => exact ⟨congrArg ending (step_stray admitted met), (step_met met).ending⟩
  | run host more =>
    exact ⟨congrArg ending (runFor_stray admitted _ met), (runFor_met _ met).ending⟩

theorem performAll_stray (requests : List (Request World)) (met : Met p m) :
    performAll (p.stray natives) (requests.map (Request.stray p calls)) m =
      performAll p requests m := by
  induction requests generalizing m with
  | nil => simp only [performAll, List.map_nil, List.foldl_nil]
  | cons r requests ih =>
    have first : (r.stray p calls).perform (p.stray natives) m = r.perform p m ∧
        Met p (r.perform p m) :=
      perform_stray admitted r met
    have rest := ih first.2
    rw [performAll, performAll] at rest ⊢
    rw [List.map_cons, List.foldl_cons, List.foldl_cons, first.1, rest]

end Runs

end Machine

end Scriptlet
