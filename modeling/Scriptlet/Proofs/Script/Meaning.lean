import Scriptlet.Proofs.Machine.Refinement
import Scriptlet.Proofs.Script.Evaluation

/-!
Compiling keeps the meaning of a script. Calls of a program that represents a script answer as the
script does, by induction on how deep they may nest, so the program gives what the script gives.
Together with what the machine makes of code this holds of the machine as well.
-/
namespace Scriptlet

namespace Recursion

open Actions Code Compile
open Script (Definition Env Flow execAll)

variable {World : Type} {host : Host World} {p : Program} {places : String → Option Nat}
variable {script : Script} {s : State World} {d : Definition} {f : UserFunction} {y : Scope}
  {row : List Statement} {rounds : Nat}

theorem argument_eq {n i : Nat} (vs : List Int32) (inside : i < n) :
    ((vs.map Value.integer).take n ++
      List.replicate (n - ((vs.map Value.integer).take n).length) Value.zero)[i]? =
        some (.integer (vs.getD i 0)) := by
  by_cases given : i < vs.length
  · rw [List.getElem?_append_left (by simp; omega), List.getElem?_take_of_lt inside,
      List.getElem?_map, List.getD_eq_getElem?_getD, List.getElem?_eq_getElem given]
    rfl
  · rw [List.getElem?_append_right (by simp; omega), List.getElem?_replicate,
      if_pos (by simp; omega), List.getD_eq_getElem?_getD, List.getElem?_eq_none (by omega)]
    rfl

theorem reflects_start (present : Present p places d f y row) (vs : List Int32) (ip : Nat) :
    Reflects y (.start d.parameters vs) { s with
      ip
      parameters := (Frame.ofCall f (vs.map .integer) 0).parameters
      locals := (Frame.ofCall f (vs.map .integer) 0).locals } := by
  have few := present.few
  intro x a found
  unfold Scope.resolve? at found
  rw [Env.start, ← present.given]
  cases at_ : y.parameters.idxOf? x with
  | some i =>
    rw [at_] at found
    obtain rfl := Option.some.inj found
    have inside := (List.findIdx?_eq_some_iff_getElem.mp at_).1
    simp only [Scope.slot]
    rw [toNat_word (by omega)]
    change (List.toArray _)[i]? = _
    rw [List.getElem?_toArray]
    exact argument_eq vs (present.parameters ▸ inside)
  | none =>
    rw [at_] at found
    obtain ⟨i, at_, rfl⟩ := Option.map_eq_some_iff.mp found
    have inside := (List.findIdx?_eq_some_iff_getElem.mp at_).1
    simp only [Scope.slot]
    rw [toNat_word (by omega)]
    change (Array.replicate f.locals.toNat Value.zero)[i]? = _
    rw [Array.getElem?_replicate, if_pos (present.locals ▸ inside)]
    rfl

theorem body_returns (host : Host World) {calls : Nat → Calls World} {answers : Script.Calls}
    {env env' : Env} {flow : Flow} (present : Present p places d f y row)
    (setting : Setting p places y calls answers)
    (ran : execAll answers rounds d.body env = some (env', flow)) :
    Returns host p y calls f.ip.toNat env flow.value := by
  obtain ⟨code, last⟩ := holds_append present.holds
  have ends := runs_of_liesAll host setting rounds present.lies closed_none code env env' flow ran
  cases flow with
  | onward => exact Leads.returns ends (returns_zero (holds_cons last).1)
  | returned v => exact ends
  | broken | continued =>
    obtain ⟨_, none_, _⟩ := ends
    cases none_

theorem find?_definition {name : String} (found : script.find? name = some d) :
    d ∈ script.definitions ∧ d.name = name := by
  rw [Script.find?] at found
  have same := List.find?_some found
  exact ⟨List.mem_of_find?_eq_some found, eq_of_beq same⟩

theorem enter_answers (host : Host World) (represents : Represents p places script)
    (small : p.Small) (rounds depth : Nat) :
    ∀ name vs v place, script.call rounds depth name vs = some v → places name = some place →
      ∃ f, p.functions[place]? = some (.user f) ∧ ∃ least, ∀ fuel ≥ least, ∀ s : State World,
        ∃ result, enter host p fuel depth f (vs.map .integer) s =
          some (.integer v, { s with result }) := by
  induction depth with
  | zero =>
    intro name vs v place answer
    cases answer
  | succ depth ih =>
    intro name vs v place answer placed
    rw [Script.call] at answer
    obtain ⟨d, found, answer⟩ := Option.bind_eq_some_iff.mp answer
    obtain ⟨⟨env', flow⟩, ran, rfl⟩ := Option.map_eq_some_iff.mp answer
    obtain ⟨member, rfl⟩ := find?_definition found
    obtain ⟨f, y, row, present⟩ := represents.present d member
    obtain ⟨i, there, function⟩ := present.placed
    obtain rfl := Option.some.inj (placed.symm.trans there)
    have setting : Setting p places y (fun fuel => enter host p fuel depth)
        (script.call rounds depth) :=
      ⟨small, present.few, ih⟩
    obtain ⟨least, count, returns⟩ := body_returns host present setting ran
    refine ⟨f, function, max least count, fun fuel enough s => ?_⟩
    obtain ⟨t, kept, done⟩ := returns fuel (by omega) _ rfl
      (reflects_start (s := s) present vs f.ip.toNat)
    have all := done (fuel - count)
    rw [Nat.sub_add_cancel (by omega)] at all
    have inside : f.ip.toNat ≤ p.words.size :=
      Nat.le_trans (Nat.le_add_right _ _) present.holds.le_size
    refine ⟨t.result, ?_⟩
    rw [enter]
    simp only [inside, ↓reduceIte]
    change (body host p (enter host p fuel depth) fuel fuel _).bind _ = _
    rw [all]
    obtain ⟨globals, world, asked⟩ := kept
    cases t
    cases globals
    cases world
    cases asked
    rfl

section Outermost

variable {calls : Calls World} {nesting : Nat} {t : State World}

theorem outermost_inside (inside : s.ip < p.words.size) (n : Nat) :
    outermost host p calls nesting (n + 1) s =
      (statement host p calls nesting >>= fun
        | some _ => pure ()
        | none => outermost host p calls nesting n : Eval World Unit) s := by
  rw [outermost]
  change (if s.ip < p.words.size then _ else _ : Eval World Unit) s = _
  exact congrFun (if_pos inside) s

theorem outermost_next (inside : s.ip < p.words.size)
    (ran : statement host p calls nesting s = some (none, t)) (n : Nat) :
    outermost host p calls nesting (n + 1) s = outermost host p calls nesting n t := by
  rw [outermost_inside inside, bind_some ran]

theorem outermost_last {v : Value} (inside : s.ip < p.words.size)
    (ran : statement host p calls nesting s = some (some v, t)) (n : Nat) :
    outermost host p calls nesting (n + 1) s = some ((), t) := by
  rw [outermost_inside inside, bind_some ran]
  rfl

end Outermost

theorem run_of_represents (host : Host World) (represents : Represents p places script)
    (small : p.Small) {v : Int32} (gives : script.run rounds = some v) (world : World) :
    ∃ fuel s, run host p fuel world = some s ∧ s.result = .integer v ∧
      s.world = host.onEnd (host.onStart world) := by
  obtain ⟨place, more, placed, front⟩ := represents.entry
  obtain ⟨f, function, least, called⟩ :=
    enter_answers host represents small rounds Machine.maxDepth "Main" [] v place gives placed
  have words := small.words
  have functions := small.functions
  have there := (Array.getElem?_eq_some_iff.mp function).1
  -- The program begins with the call of its entry, and returns behind it.
  have holds :
      Holds p.words 0 (rowWords Target.word ([.plain (.call place [])] ++ [Statement.final])) :=
    ⟨[], more, by rw [front, List.nil_append], rfl⟩
  obtain ⟨first, last⟩ := holds_cons holds
  have final := (holds_cons last).1
  have size : 3 + 2 ≤ p.words.size := final.le_size
  let start : State World := ⟨0, #[], #[], p.globals, .zero, host.onStart world, []⟩
  obtain ⟨result, called⟩ := called (least + 2) (by omega) { start with ip := 3 }
  have fits : Plain.Fits (.call place []) := by
    change place < 2 ^ 32
    omega
  have calls : statement host p (enter host p (least + 2) Machine.maxDepth) (least + 2) start =
      some (none, { start with ip := 3, result := .integer v }) := by
    have evaluated :
        parts (expression host p (enter host p (least + 2) Machine.maxDepth) (least + 2))
          (Plain.call place []).parts.length { start with ip := 3 } =
          some ([], { start with ip := 3 }) :=
      rfl
    rw [statement_plain (s := start) fits (by simp [Plain.parts]) first.append.1 evaluated,
      Plain.instruction, Plain.opcode, Plain.operand, execute]
    simp only [function]
    exact bind_some called
  have ran : outermost host p (enter host p (least + 2) Machine.maxDepth) (least + 2)
      (least + 2) start =
      some ((), { start with ip := 5, result := .integer v }) := by
    rw [outermost_next (s := start) (by change 0 < _; omega) calls]
    exact outermost_last (by change 3 < _; omega) (statement_final final) least
  refine ⟨least + 2, { start with ip := 5, result := .integer v, world := host.onEnd start.world },
    ?_, rfl, rfl⟩
  change (outermost host p _ _ _ start).bind _ = _
  rw [ran]
  rfl

end Recursion

namespace Compile

open Script

/-- Sources of scripts compile, and the program gives what the script gives: whenever evaluation of
the tree comes to an end, with calls nested no deeper than the machine allows, the machine completes
with the same value, whatever host it runs on. The number of rounds only says how long evaluation
may take. Sources have to be shorter than the number of words there are, since the function table
counts parameters in words, and the places of the program have to fit into its words. -/
theorem compile_preserves {registry : Registry} {options : Options} {script : Script}
    (proper : script.Proper (options.registry registry)) (short : script.text.length < 2 ^ 32) :
    ∃ p, compile registry options script.text = .ok p ∧
      (p.Small → ∀ {World : Type} (host : Host World) (world : World) (rounds : Nat) (v : Int32),
        script.run rounds = some v →
          ∃ n m, Machine.runFor host p n (Machine.init p world) = .ok (some (.integer v)) m) := by
  obtain ⟨p, places, ok, represents⟩ := compile_script proper short
  refine ⟨p, ok, fun small World host world rounds v gives => ?_⟩
  obtain ⟨fuel, s, completes, result, _⟩ :=
    Recursion.run_of_represents host (represents small) small gives world
  obtain ⟨n, ran⟩ := Recursion.runFor_of_run Recursion.shows_itself rfl completes
  rw [result] at ran
  exact ⟨n, _, ran⟩

def doubles : Script where
  definitions := [
    ⟨"Twice", ["n"], [.returnValue (.binary (.arithmetic .add) (.var "n") (.var "n"))]⟩,
    ⟨"Main", [], [
      .for_ "i" (.literal 1) (.literal 9) ⟨2, by decide, by decide⟩ [
        .if_ (.binary (.relation .equal) (.var "i") (.literal 5)) [.break_],
        .assign "s" (.binary (.arithmetic .add) (.var "s") (.call "Twice" [.var "i"]))],
      .returnValue (.var "s")]⟩]

theorem compile_preserves_doubles :
    let host : Host Unit := ⟨id, id, fun _ _ world => (.error "none", world)⟩
    ∃ p, compile .empty ⟨45, true, false, []⟩ doubles.text = .ok p ∧ p.Small ∧
      ∃ n m, Machine.runFor host p n (Machine.init p ()) = .ok (some (.integer 8)) m := by
  intro host
  have proper : doubles.Proper (Options.registry ⟨45, true, false, []⟩ .empty) := by
    decide +kernel
  have compact : (match compile .empty ⟨45, true, false, []⟩ doubles.text with
    | .error _ => false
    | .ok p => decide p.Small) = true := by decide +kernel
  obtain ⟨p, ok, preserves⟩ := compile_preserves proper (by decide +kernel)
  rw [ok] at compact
  have small : p.Small := of_decide_eq_true compact
  exact ⟨p, ok, small, preserves small host () 5 8 (by decide +kernel)⟩

end Compile

end Scriptlet
