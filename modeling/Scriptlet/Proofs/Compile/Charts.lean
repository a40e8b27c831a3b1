import Scriptlet.Proofs.Compile.Tables
import Scriptlet.Proofs.Machine.Charts

/-!
The chart of a compiled program: the statements in front of all functions and those of the
functions. They assign no variable of the registry, since those are read-only, so these variables
have the values that they were registered with, whatever runs and whatever fails.
-/
namespace Scriptlet

open Code

namespace Compile

open Machine

variable {registry : Registry} {options : Options} {source : String} {p : Program} {s t : Session}
  {limit : Nat} {bs : List Body} {place : Nat}

def Unregistered (registry : Registry) (a : Address) : Prop :=
  a.scope = .globals → registry.constants.length ≤ a.index.toNat

theorem mayAssign_unregistered {maxErrors : Nat} {more : NameTable Global} {a : Address}
    (globals : t.globals = (Session.start registry maxErrors source).globals ++ more)
    (may : t.MayAssign a) : Unregistered registry a := by
  intro scope
  refine Nat.le_of_not_lt fun registered => ?_
  have read_only := may scope
  rw [globals, NameTable.entries, List.map_append, List.getElem?_append_left
    (by simpa [Session.start] using registered)] at read_only
  simp [Session.start, registered] at read_only

theorem Paved.charted (sound : p.Sound) (paved : Paved limit t bs)
    (paves : Body.Paves 0 (entryBody place :: bs) p.words.size)
    (sounds : ∀ b ∈ entryBody place :: bs, b.Sound p)
    (users : ∀ f, .user f ∈ p.functions → ∃ b ∈ bs, b.start = f.ip.toNat)
    (unregistered : ∀ a, t.MayAssign a → Unregistered registry a) :
    Charted p (boundaries (entryBody place :: bs)) (Unregistered registry) := by
  refine ⟨bodies_chained sound (fun _ => ⟨by rintro t ⟨⟩, by rintro a ⟨⟩⟩) paves
    sounds fun b member x there ip => ⟨fun target aims => ?_, fun a stores => ?_⟩,
    fun f member => ?_⟩
  · rw [x.instruction_target? ip, Option.map_eq_some_iff] at aims
    obtain ⟨open_, aims, rfl⟩ := aims
    obtain ⟨target, between, rfl⟩ := (sounds b member).targets x there open_ aims
    exact List.mem_flatMap.mpr ⟨b, member, between⟩
  · rcases List.mem_cons.mp member with rfl | member
    · obtain rfl := List.mem_singleton.mp there
      cases stores
    · obtain ⟨_, _, _, coded⟩ := paved.defined b member
      exact unregistered a ((coded.valid x there).slot stores).2
  · obtain ⟨b, member, start⟩ := users f member
    refine List.mem_flatMap.mpr ⟨b, List.mem_cons_of_mem _ member, ?_⟩
    rw [← start]
    exact start_mem_bounds _ _

/-- The session that a program was made from, the place of the function that it starts with and the
bodies of its functions. -/
structure Assembled (limit : Nat) (t : Session) (place : Nat) (bs : List Body) (p : Program) :
    Prop where
  arranged : Arranged limit t
  paved : Paved limit t bs
  defined : ∀ (q : Nat) (name : String), t.functions.entries[q]? ≠ some (.pending name)
  resolved : ∀ c ∈ t.calls.toList, Resolved t c
  main : ∃ f, t.functions.entries[place]? = some (.user f)
  makes : Makes t place p

theorem compile_assembled (built : Registry.Built registry)
    (ok : compile registry options source = .ok p) :
    ∃ t place bs, Assembled source.length t place bs p ∧ ∃ more, t.globals =
      (Session.start (options.registry registry) options.maxErrors source).globals ++ more := by
  obtain ⟨s, ran, clean, rfl⟩ := compile_ran ok
  obtain ⟨more, globals, -⟩ := (sourceRule_extends ran clean).globals
  obtain ⟨t, arranged, defined, resolved, place, main, reads⟩ :=
    sourceRule_ok ran clean (start_arranged (options.registry_proper built) _ _)
  obtain ⟨bs, paved⟩ := arranged.paved
  have same : t.globals = s.globals := by
    obtain ⟨tokens, line, rfl⟩ := reads
    rfl
  exact ⟨t, place, bs, ⟨arranged, paved, defined, resolved, main, reads.makes _⟩, more,
    same.trans globals⟩

theorem Assembled.paves (assembled : Assembled limit t place bs p) (short : limit < 2 ^ 32)
    (small : p.Small) :
    Body.Paves 0 (entryBody place :: bs) p.words.size ∧ (∀ b ∈ entryBody place :: bs, b.Sound p) ∧
      ∀ f, .user f ∈ p.functions → ∃ b ∈ bs, b.start = f.ip.toNat := by
  obtain ⟨f, main⟩ := assembled.main
  exact assembled.arranged.paves assembled.defined (entry_lt main) assembled.makes short small
    assembled.paved

theorem compile_charted (built : Registry.Built registry)
    (ok : compile registry options source = .ok p) (short : source.length < 2 ^ 32)
    (small : p.Small) :
    ∃ place bs, (entryBody place).Sound p ∧
      Charted p (boundaries (entryBody place :: bs))
        (Unregistered (options.registry registry)) := by
  have sound := compile_sound built ok short small
  obtain ⟨t, place, bs, assembled, more, globals⟩ := compile_assembled built ok
  obtain ⟨paves, sounds, users⟩ := assembled.paves short small
  exact ⟨place, bs, sounds _ List.mem_cons_self, assembled.paved.charted sound paves sounds users
    fun a may => mayAssign_unregistered globals may⟩

def Leads {World : Type} (constants : List Value) (others : Nat) (m : Machine World) : Prop :=
  ∃ now, now.length = others ∧ m.globals.toList = constants ++ now

theorem leads_of_kept {World : Type} {m : Machine World} {constants declared : List Value}
    (globals : p.globals.toList = constants ++ declared) (size : m.globals.size = p.globals.size)
    (kept : ∀ k < constants.length, m.globals[k]? = p.globals[k]?) :
    Leads constants declared.length m := by
  have lengths := congrArg List.length globals
  rw [Array.length_toList, List.length_append] at lengths
  refine ⟨m.globals.toList.drop constants.length, ?_, ?_⟩
  · rw [List.length_drop, Array.length_toList]
    omega
  · have first : m.globals.toList.take constants.length = constants := by
      refine List.ext_getElem? fun k => ?_
      rw [List.getElem?_take]
      split
      · rename_i inside
        rw [Array.getElem?_toList, kept k inside, ← Array.getElem?_toList, globals,
          List.getElem?_append_left inside]
      · rename_i outside
        exact (List.getElem?_eq_none (Nat.le_of_not_lt outside)).symm
    nth_rewrite 1 [← List.take_append_drop constants.length m.globals.toList]
    rw [first]

/-- The variables of the registry never change. A program starts with the values that they were
registered with, followed by those of the variables that the source declares. Whatever calls are
made from outside and whatever hosts answer, and between any two units of work, the former are the
same, and only the latter may be others. -/
theorem registered_kept {World : Type} (built : Registry.Built registry)
    (ok : compile registry options source = .ok p) (short : source.length < 2 ^ 32)
    (small : p.Small) :
    let constants := (options.registry registry).constants.map (·.2)
    ∃ declared, p.globals.toList = constants ++ declared ∧
      (∀ m : Machine World, Machine.Called p m → Leads constants declared.length m) ∧
      ∀ m : Machine World, Met p m → Leads constants declared.length m := by
  intro constants
  obtain ⟨declared, globals, -⟩ := (compile_tabled built ok).globals
  obtain ⟨place, bs, -, charted⟩ := compile_charted built ok short small
  have leads : ∀ m : Machine World, Met p m → Leads constants declared.length m := by
    rintro m ⟨gs, visited⟩
    obtain ⟨-, size, kept⟩ := visited_onChart charted visited
    refine leads_of_kept globals size fun k inside => kept k fun a may scope => ?_
    rw [List.length_map] at inside
    exact Nat.ne_of_gt (Nat.lt_of_lt_of_le inside (may scope))
  exact ⟨declared, globals, fun m called => leads m (called_met called), leads⟩

theorem registered_kept_assigned :
    let registry := Registry.empty.addConstant "speed" (.atom (.integer 3))
    let options : Options := ⟨45, true, true, [("limit", .atom (.integer 5))]⟩
    let constants := (options.registry registry).constants.map (·.2)
    ∃ p declared now, compile registry options "var a\nMain() \x7b a = limit + speed \x7d" = .ok p ∧
      p.Small ∧ p.globals.toList = constants ++ declared ∧
      (ending (runFor Host.silent p 9 (init p ()))).globals.toList = constants ++ now ∧
      now.length = declared.length ∧ now ≠ declared := by
  intro registry options constants
  have runs : ((compile registry options "var a\nMain() \x7b a = limit + speed \x7d").toOption.any
      fun p => decide p.Small &&
        decide ((ending (runFor Host.silent p 9 (init p ()))).globals.map Value.describe ≠
          p.globals.map Value.describe)) = true := by
    decide +kernel
  cases ok : compile registry options "var a\nMain() \x7b a = limit + speed \x7d" with
  | error ds =>
    rw [ok] at runs
    cases runs
  | ok p =>
    rw [ok] at runs
    obtain ⟨small, assigned⟩ := Bool.and_eq_true_iff.mp runs
    have small := of_decide_eq_true small
    have assigned := of_decide_eq_true assigned
    have built : Registry.Built registry := .addConstant _ _ .empty
    obtain ⟨declared, globals, called, -⟩ :=
      @registered_kept registry options _ p Unit built ok (by decide) small
    obtain ⟨now, length, after⟩ := called _ ((Machine.Called.fresh ()).run Host.silent 9)
    refine ⟨p, declared, now, rfl, small, globals, after, length, ?_⟩
    rintro rfl
    exact assigned (congrArg _ (Array.toList_inj.mp (after.trans globals.symm)))

end Compile

end Scriptlet
