import Scriptlet.Proofs.Compile.Soundness
import Scriptlet.Proofs.Format.RoundTrip

/-!
What compiling puts into the tables of a program. Literals are no lists, the variables that a source
declares are at most lists of such values, and every other variable and function comes from the
registry as it stands there.
-/
namespace Scriptlet

namespace Compile

open Actions

variable {s s' t : Session} {v : Value} {u : Unit}

theorem nesting_atom (atom : v.isList = false) : v.nesting = 0 := by
  cases v with
  | atom a => rfl
  | list items => cases atom

theorem nesting_flat (flat : v.Flat) : v.nesting ≤ 1 := by
  cases flat with
  | atom atom =>
    rw [nesting_atom atom]
    exact Nat.zero_le 1
  | @list items atoms =>
    have none_ : Value.nestingOf items = 0 := by
      induction items with
      | nil => rfl
      | cons v rest ih =>
        obtain ⟨first, others⟩ := List.forall_mem_cons.mp atoms
        rw [Value.nestingOf, nesting_atom first, ih others]
        rfl
    simp [Value.nesting, none_]

/-- Literals that are no lists and flat variables may be added. Functions of the registry stay, and
none is added. -/
structure Extends (s s' : Session) : Prop where
  literals : ∃ more, s'.literals.toList = s.literals.toList ++ more ∧ ∀ v ∈ more, v.isList = false
  globals : ∃ more, s'.globals = s.globals ++ more ∧ ∀ g ∈ more, g.2.value.nesting ≤ 1
  offered : ∀ (place : Nat) (f : Function), s'.functions.entries[place]? = some (.offered f) →
    s.functions.entries[place]? = some (.offered f)

theorem Extends.trans {s'' : Session} (first : Extends s s') (second : Extends s' s'') :
    Extends s s'' := by
  obtain ⟨more, literals, atoms⟩ := first.literals
  obtain ⟨more', literals', atoms'⟩ := second.literals
  obtain ⟨added, globals, flat⟩ := first.globals
  obtain ⟨added', globals', flat'⟩ := second.globals
  refine ⟨⟨more ++ more', ?_, List.forall_mem_append.mpr ⟨atoms, atoms'⟩⟩,
    ⟨added ++ added', ?_, List.forall_mem_append.mpr ⟨flat, flat'⟩⟩,
    fun place f entry => first.offered place f (second.offered place f entry)⟩
  · rw [literals', literals, List.append_assoc]
  · rw [globals', globals, List.append_assoc]

theorem Reads.extends (reads : Reads s s') : Extends s s' := by
  obtain ⟨tokens, line, rfl⟩ := reads
  exact ⟨⟨[], by simp⟩, ⟨[], by simp⟩, fun _ _ entry => entry⟩

theorem Grows.extends (grows : Grows s s') : Extends s s' := by
  refine ⟨grows.literals, ⟨[], by simp [grows.globals]⟩, fun place f entry => ?_⟩
  rcases grows.entry_old entry with old | ⟨name, other⟩
  · exact old
  · cases other

theorem Declares.extends (declares : Declares s s') : Extends s s' := by
  obtain ⟨more, reads, flat⟩ := declares.tables
  have added : Extends s { s with globals := s.globals ++ more } :=
    ⟨⟨[], by simp⟩, ⟨more, rfl, fun g member => nesting_flat (flat g member)⟩,
      fun _ _ entry => entry⟩
  exact added.trans reads.extends

theorem functionDefinition_extends {name : Token} (ok : functionDefinition name s = .ok u s')
    (clean : s'.errors = #[]) : Extends s s' := by
  obtain ⟨place, r, s₁, s₂, x, y, declared, _, defines⟩ := functionDefinition_ok ok clean
  obtain ⟨_, placed⟩ := declareFunction_ok declared
  obtain ⟨functions, rfl, _, pending, others⟩ := placed place rfl
  -- The entry that is declared is pending, so no entry of the registry changes its place.
  have declares : Extends s { s with inHeader := false, functions } := by
    refine ⟨⟨[], by simp⟩, ⟨[], by simp⟩, fun q f entry => ?_⟩
    by_cases same : q = place
    · subst same
      have entry : functions.entries[q]? = some (.offered f) := entry
      rw [pending] at entry
      cases entry
    · exact (others q same).symm.trans entry
  have opens : Extends s₁ { s₁ with scope := some x } :=
    ⟨⟨[], by simp⟩, ⟨[], by simp⟩, fun _ _ entry => entry⟩
  have ends : Extends s₂ s' := by
    rw [defines.result]
    refine ⟨⟨[], by simp⟩, ⟨[], by simp⟩, fun q f entry => ?_⟩
    rw [entries_modifyAt] at entry
    split at entry
    · obtain ⟨callee, found, same⟩ := Option.map_eq_some_iff.mp entry
      cases callee with
      | offered g =>
        cases same
        exact found
      | pending | user => cases same
    · exact entry
  exact ((declares.trans defines.reads.extends).trans opens).trans
    (defines.body.grows.extends.trans ends)

theorem Items.extends (items : Items s s') : Extends s s' := by
  induction items with
  | nothing _ reads _ _ => exact reads.extends
  | function opens _ ran rest ih =>
    exact (opens.reads.extends.trans (functionDefinition_extends ran rest.clean)).trans ih
  | globals opens _ _ declares _ ih => exact (opens.reads.extends.trans declares.extends).trans ih

theorem sourceRule_extends (ok : sourceRule s = .ok u s') (clean : s'.errors = #[]) :
    Extends s s' := by
  obtain ⟨t, items, _, _, place, _, reads⟩ := sourceRule_items ok clean
  have patched : Extends t (t.patched mainOperand place) := (patched_grows _ _ _).extends
  exact (items.extends.trans patched).trans reads.extends

structure Tabled (registry : Registry) (p : Program) : Prop where
  literals : ∀ v ∈ p.literals, v.isList = false
  globals : ∃ declared, p.globals.toList = registry.constants.map (·.2) ++ declared ∧
    ∀ v ∈ declared, v.nesting ≤ 1
  functions : ∀ f ∈ p.functions, (∃ g start, f = .user g ∧ g.ip = .ofNat start ∧
    start < p.words.size) ∨ (∃ name, (name, f) ∈ registry.functions)

theorem Coded.inside {limit : Nat} {f : UserFunction} {b : Body} (coded : Coded limit s f b) :
    b.start < s.writer.words.size := by
  have placed := coded.placed.le_size
  rw [Code.rowWords_append, List.length_append] at placed
  have last : 0 < (Code.rowWords Code.Target.word [Code.Statement.final]).length := by decide
  omega

theorem compile_tabled {host : Registry} {options : Options} {source : String} {p : Program}
    (built : Registry.Built host) (ok : compile host options source = .ok p) :
    Tabled (options.registry host) p := by
  obtain ⟨s, ran, clean, rfl⟩ := compile_ran ok
  have grown := sourceRule_extends ran clean
  refine ⟨?_, ?_, ?_⟩
  · obtain ⟨more, literals, atoms⟩ := grown.literals
    intro v member
    rw [← Array.mem_toList_iff] at member
    exact atoms v (by simpa [Session.program, literals, Session.start] using member)
  · obtain ⟨more, globals, flat⟩ := grown.globals
    refine ⟨more.map fun g => g.2.value, ?_, ?_⟩
    · simp [Session.program, globals, Session.start, NameTable.entries, Function.comp_def]
    · intro v member
      obtain ⟨g, added, rfl⟩ := List.mem_map.mp member
      exact flat g added
  · obtain ⟨t, arranged, resolved, -, place, -, reads⟩ := sourceRule_ok ran clean
      (start_arranged (options.registry_proper built) _ _)
    have table : s.functions = t.functions ∧ s.writer.words.size = t.writer.words.size := by
      obtain ⟨tokens, line, rfl⟩ := reads
      exact ⟨rfl, by
        simp [Session.patched, CodeWriter.words, CodeWriter.patch, CodeWriter.replace,
          CodeWriter.setLine]⟩
    intro f member
    obtain ⟨callee, listed, rfl⟩ := List.mem_map.mp (List.mem_toArray.mp member)
    obtain ⟨q, entry⟩ := List.mem_iff_getElem?.mp listed
    cases callee with
    | pending name => exact absurd (table.1 ▸ entry) (resolved q name)
    | user g =>
      obtain ⟨b, coded⟩ := arranged.coded (table.1 ▸ entry)
      exact Or.inl ⟨g, b.start, rfl, coded.start, Nat.lt_of_lt_of_eq coded.inside table.2.symm⟩
    | offered g =>
      have old := grown.offered q g entry
      simp only [Session.start, NameTable.entries, List.map_map, List.getElem?_map,
        Option.map_eq_some_iff] at old
      obtain ⟨named, found, same⟩ := old
      cases same
      exact Or.inr ⟨named.1, List.mem_of_getElem? found⟩

end Compile

end Scriptlet
