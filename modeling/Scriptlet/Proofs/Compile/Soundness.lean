import Scriptlet.Proofs.Compile.Programs
import Scriptlet.Proofs.Rules.Outcomes

/-!
What compiling returns is a sound program: the rule for sources has succeeded, and left its code
among the words. Sound programs do not go wrong.
-/
namespace Scriptlet.Compile

variable {host : Registry} {source : String} {p : Program} {options : Options}

theorem compile_ran (ok : compile host options source = .ok p) :
    ∃ s, sourceRule (Session.start (options.registry host) options.maxErrors source) = .ok () s ∧
      s.errors = #[] ∧ p = s.program options.lineNumbers := by
  unfold compile at ok
  dsimp only at ok
  split at ok
  · rename_i clean
    have clean := Array.isEmpty_iff.mp clean
    exact ⟨_, finalSession_clean clean, clean, (Except.ok.inj ok).symm⟩
  · cases ok

theorem compile_sound (built : Registry.Built host)
    (ok : compile host options source = .ok p) (short : source.length < 2 ^ 32) (small : p.Small) :
    p.Sound := by
  obtain ⟨s, ran, clean, rfl⟩ := compile_ran ok
  obtain ⟨t, arranged, resolved, -, place, ⟨f, main⟩, reads⟩ :=
    sourceRule_ok ran clean (start_arranged (options.registry_proper built) _ _)
  exact arranged.sound resolved (entry_lt main) (reads.makes _) short small

/-- Compiled programs cannot go wrong. Whatever the host answers, a step from a state that was
reached fails only at a call that is too deep or that the host refuses, and so does a whole run.
The function table counts variables in words, so a source has to be shorter than the number of
words there are. -/
theorem compiled_fault {World : Type} {registry : Registry} {options : Options} {source : String}
    {p : Program} (built : Registry.Built registry) (ok : compile registry options source = .ok p)
    (short : source.length < 2 ^ 32) (small : p.Small) (host : Host World) (world : World) :
    (∀ m f m', Machine.Reachable host p world m → Machine.step host p m = .error f m' →
      f = .callDepthExceeded ∨ ∃ name reason, f = .host name reason) ∧
    ∀ n f m', Machine.runFor host p n (.init p world) = .error f m' →
      f = .callDepthExceeded ∨ ∃ name reason, f = .host name reason := by
  have sound := compile_sound built ok short small
  exact ⟨fun m f m' reached failed => Machine.reachable_fault sound reached failed,
    fun n f m' failed => Machine.runFor_fault sound n .init failed⟩

theorem compiled_fault_refused :
    let registry := Registry.empty.addHost "ask" .any
    let host : Host Unit := ⟨id, id, fun _ _ world => (.error "busy", world)⟩
    ∃ p m m', compile registry ⟨45, true, false, []⟩ "Main() \x7b ask(1) \x7d" = .ok p ∧ p.Small ∧
      Machine.Reachable host p () m ∧ Machine.step host p m = .error (.host "ask" "busy") m' ∧
      (Machine.Fault.host "ask" "busy" = .callDepthExceeded ∨
        ∃ name reason, Machine.Fault.host "ask" "busy" = .host name reason) := by
  intro registry host
  have runs : (match compile registry ⟨45, true, false, []⟩ "Main() \x7b ask(1) \x7d" with
    | .error _ => false
    | .ok p => decide p.Small && match Machine.step host p (.init p ()) with
      | .error _ _ => false
      | .ok _ m => match Machine.step host p m with
        | .error f _ => decide (f = .host "ask" "busy")
        | .ok _ _ => false) = true := by decide +kernel
  split at runs
  · cases runs
  rename_i p ok
  obtain ⟨small, runs⟩ := Bool.and_eq_true_iff.mp runs
  have small := of_decide_eq_true small
  split at runs
  · cases runs
  rename_i more m first
  split at runs
  · rename_i f m' second
    obtain rfl := of_decide_eq_true runs
    have reached := Machine.Reachable.init.step first
    have built : Registry.Built registry := .addHost _ _ .empty
    exact ⟨p, m, m', ok, small, reached, second,
      (compiled_fault built ok (by decide) small host ()).1 m _ m' reached second⟩
  · cases runs

end Scriptlet.Compile
