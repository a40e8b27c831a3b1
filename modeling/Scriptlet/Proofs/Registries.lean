import Scriptlet.Options.Basic

/-!
Registries as hosts build them. Every entry of such a registry stands under its own name, which no
other entry has, and is answered by the host or native; a program's own functions are never among
them.
-/
namespace Scriptlet

namespace NameTable

variable {α : Type} {name : String} {table : NameTable α} {entry other : α} {key : String}

theorem find?_mem (found : table.find? name = some entry) : (name, entry) ∈ table := by
  induction table with
  | nil => simp [find?] at found
  | cons head rest ih =>
    obtain ⟨key, old⟩ := head
    simp only [find?] at found
    split at found
    · rename_i same
      simp_all
    · exact List.mem_cons_of_mem _ (ih found)

theorem insert_mem (member : (key, other) ∈ table.insert name entry) :
    (key, other) ∈ table ∨ (key = name ∧ other = entry) := by
  induction table with
  | nil => simp_all [insert]
  | cons head rest ih =>
    obtain ⟨first, old⟩ := head
    simp only [insert] at member
    split at member
    · rename_i same
      simp only [List.mem_cons, Prod.mk.injEq] at member ⊢
      have same : first = name := by simpa using same
      rcases member with ⟨rfl, rfl⟩ | member
      · exact Or.inr ⟨same, rfl⟩
      · exact Or.inl (Or.inr member)
    · simp only [List.mem_cons] at member ⊢
      rcases member with first | later
      · exact Or.inl (Or.inl first)
      · rcases ih later with old | new
        · exact Or.inl (Or.inr old)
        · exact Or.inr new

theorem insertNew_mem (member : (key, other) ∈ table.insertNew name entry) :
    (key, other) ∈ table ∨ (key = name ∧ other = entry) := by
  unfold insertNew at member
  split at member
  · exact Or.inl member
  · simpa using member

def names (table : NameTable α) : List String := table.map (·.1)

theorem mem_names_iff : name ∈ table.names ↔ table.contains name = true := by
  induction table with
  | nil => simp [names, contains, find?]
  | cons head rest ih =>
    obtain ⟨key, entry⟩ := head
    simp only [names, List.map_cons, List.mem_cons, contains, find?] at ih ⊢
    by_cases same : key = name
    · simp [same]
    · have other : ¬name = key := fun h => same h.symm
      simp [same, other, ih]

theorem names_insert (table : NameTable α) (name : String) (entry : α) :
    (table.insert name entry).names =
      if table.contains name then table.names else table.names ++ [name] := by
  induction table with
  | nil => simp [insert, names, contains, find?]
  | cons head rest ih =>
    obtain ⟨key, old⟩ := head
    simp only [names, contains, insert, find?] at ih ⊢
    by_cases same : key = name
    · simp [same]
    · simp only [beq_iff_eq, same, ↓reduceIte, List.map_cons, ih]
      by_cases known : (find? rest name).isSome = true <;> simp [known]

theorem nodup_append_new {names : List String} (distinct : names.Nodup) (new : name ∉ names) :
    (names ++ [name]).Nodup := by
  rw [List.nodup_append]
  refine ⟨distinct, by simp, ?_⟩
  intro a member b same
  rw [List.mem_singleton] at same
  exact fun equal => new (same ▸ equal ▸ member)

theorem insert_distinct (distinct : table.names.Nodup) (name : String) (entry : α) :
    (table.insert name entry).names.Nodup := by
  rw [names_insert]
  split
  · exact distinct
  · rename_i new
    exact nodup_append_new distinct (fun member => new (mem_names_iff.mp member))

theorem insertNew_distinct (distinct : table.names.Nodup) (name : String) (entry : α) :
    (table.insertNew name entry).names.Nodup := by
  unfold insertNew
  split
  · exact distinct
  · rename_i new
    rw [names, List.map_append]
    exact nodup_append_new distinct (fun member => new (mem_names_iff.mp member))

theorem find?_of_mem (distinct : table.names.Nodup) (member : (name, entry) ∈ table) :
    table.find? name = some entry := by
  induction table with
  | nil => simp at member
  | cons head rest ih =>
    obtain ⟨key, old⟩ := head
    obtain ⟨first, distinct⟩ := List.nodup_cons.mp distinct
    rcases List.mem_cons.mp member with same | later
    · cases same
      simp [find?]
    · have other : key ≠ name := by
        rintro rfl
        exact first (List.mem_map.mpr ⟨_, later, rfl⟩)
      simpa [find?, other] using ih distinct later

end NameTable

namespace Registry

variable {r : Registry} {entry : String × Function}

/-- The registries that the operations of a host can make. -/
inductive Built : Registry → Prop where
  | empty : Built .empty
  | addHost {r : Registry} (name : String) (arity : Arity) : Built r → Built (r.addHost name arity)
  | addNative {r : Registry} (f : NativeFunction) : Built r → Built (r.addNative f)
  | addConstant {r : Registry} (name : String) (value : Value) :
      Built r → Built (r.addConstant name value)
  | addBuiltins {r : Registry} : Built r → Built r.addBuiltins

def Proper (entry : String × Function) : Prop :=
  entry.2.name = entry.1 ∧ ∀ f, entry.2 ≠ .user f

theorem addBuiltins_mem (member : entry ∈ r.addBuiltins.functions) :
    entry ∈ r.functions ∨ Proper entry := by
  simp only [addBuiltins, addNewConstants] at member
  revert member
  generalize Builtin.functions = added
  generalize r.functions = table
  induction added generalizing table with
  | nil => exact Or.inl
  | cons f rest ih =>
    intro member
    rcases ih _ member with before | proper
    · obtain ⟨key, other⟩ := entry
      rcases NameTable.insertNew_mem before with old | ⟨rfl, rfl⟩
      · exact Or.inl old
      · exact Or.inr ⟨rfl, by simp⟩
    · exact Or.inr proper

theorem built_proper (built : Built r) (member : entry ∈ r.functions) : Proper entry := by
  induction built with
  | empty => simp [Registry.empty] at member
  | addHost name arity _ ih | addNative f _ ih =>
    obtain ⟨key, other⟩ := entry
    rcases NameTable.insert_mem member with old | ⟨rfl, rfl⟩
    · exact ih old
    · exact ⟨rfl, by simp⟩
  | addConstant name value _ ih => exact ih member
  | addBuiltins _ ih =>
    rcases addBuiltins_mem member with old | proper
    · exact ih old
    · exact proper

theorem addBuiltins_distinct (distinct : r.functions.names.Nodup) :
    r.addBuiltins.functions.names.Nodup := by
  simp only [addBuiltins, addNewConstants]
  generalize Builtin.functions = added
  generalize r.functions = table at distinct ⊢
  induction added generalizing table with
  | nil => exact distinct
  | cons f rest ih => exact ih _ (NameTable.insertNew_distinct distinct _ _)

theorem built_distinct (built : Built r) : r.functions.names.Nodup := by
  induction built with
  | empty => exact List.nodup_nil
  | addHost name arity _ ih | addNative f _ ih => exact NameTable.insert_distinct ih _ _
  | addConstant name value _ ih => exact ih
  | addBuiltins _ ih => exact addBuiltins_distinct ih

theorem built_native_name (built : Built r) (name : String) : (r.native name).name = name := by
  unfold native
  split
  · rename_i f found
    exact (built_proper built (NameTable.find?_mem found)).1
  · rfl

end Registry

end Scriptlet
