import Scriptlet.Proofs.Compile.Tables

/-!
Loading what was compiled and saved. The reader is stricter than the compiler in two points: it
refuses lists that nest too deep and functions with too many slots. A host can offer variables of
any depth, and a source can have any number of variables, so these are the only programs that can be
compiled and saved but not loaded.
-/
namespace Scriptlet

namespace Format

variable {α : Type} {bytes : List UInt8} {registry : Registry} {p : Program} {P : α → Prop}
  {rest : List UInt8} {read : Decode α} {words : Nat}

theorem items_all (each : ∀ bytes x rest, read bytes = .ok (x, rest) → P x) (n : Nat) :
    ∀ {done items : Array α} {bytes rest : List UInt8}, (∀ x ∈ done, P x) →
      decodeItems read n done bytes = .ok (items, rest) → ∀ x ∈ items, P x := by
  induction n with
  | zero =>
    intro done items bytes rest all ok
    obtain ⟨rfl, rfl⟩ := decode_pure_ok ok
    exact all
  | succ n ih =>
    intro done items bytes rest all ok
    obtain ⟨x, middle, first, ok⟩ := decode_bind_ok ok
    refine ih ?_ ok
    intro y member
    rcases Array.mem_push.mp member with old | rfl
    · exact all y old
    · exact each _ _ _ first

theorem table_all {items : Array α} (each : ∀ bytes x rest, read bytes = .ok (x, rest) → P x)
    (ok : decodeTable read bytes = .ok (items, rest)) : ∀ x ∈ items, P x := by
  obtain ⟨length, middle, _, ok⟩ := decode_bind_ok ok
  exact items_all each _ (by simp) ok

theorem nestingOf_le {items : List Value} {n : Nat} (all : ∀ v ∈ items, v.nesting ≤ n) :
    Value.nestingOf items ≤ n := by
  induction items with
  | nil => exact Nat.zero_le n
  | cons v rest ih =>
    obtain ⟨first, others⟩ := List.forall_mem_cons.mp all
    rw [Value.nestingOf]
    exact Nat.max_le.mpr ⟨first, ih others⟩

theorem value_shallow (levels : Nat) : ∀ bytes v rest,
    decodeValue levels bytes = .ok (v, rest) → v.nesting ≤ levels := by
  have step : ∀ levels, (∀ n, levels = n + 1 → ∀ bytes v rest,
      decodeValue n bytes = .ok (v, rest) → v.nesting ≤ n) → ∀ bytes v rest,
        decodeValue levels bytes = .ok (v, rest) → v.nesting ≤ levels := by
    intro levels below bytes v rest ok
    rw [decodeValue.eq_def] at ok
    obtain ⟨tag, middle, _, ok⟩ := decode_bind_ok ok
    cases kind : Value.Kind.ofTag? tag.toNat with
    | none =>
      rw [kind] at ok
      cases ok
    | some k =>
      rw [kind] at ok
      cases k with
      | list =>
        cases levels with
        | zero => cases ok
        | succ n =>
          obtain ⟨items, _, table, ok⟩ := decode_bind_ok ok
          obtain ⟨rfl, _⟩ := decode_pure_ok ok
          have all := table_all (below n rfl) table
          rw [Value.nesting]
          exact Nat.succ_le_succ (nestingOf_le fun v member =>
            all v (Array.mem_toList_iff.mp member))
      | _ =>
        obtain ⟨_, _, _, ok⟩ := decode_bind_ok ok
        obtain ⟨rfl, _⟩ := decode_pure_ok ok
        exact Nat.zero_le _
  induction levels with
  | zero => exact step 0 (by simp)
  | succ levels ih =>
    apply step
    intro n same
    cases same
    exact ih

theorem function_slots : ∀ bytes f rest, decodeFunction registry words bytes = .ok (f, rest) →
      ∀ g, f = .user g → g.locals.toNat + g.parameters.toNat ≤ maxSlots := by
  intro bytes f rest ok g same
  obtain ⟨name, _, _, ok⟩ := decode_bind_ok ok
  obtain ⟨kind, _, _, ok⟩ := decode_bind_ok ok
  match kind.toNat, ok with
  | 0, ok =>
    obtain ⟨ip, _, _, ok⟩ := decode_bind_ok ok
    obtain ⟨locals, _, _, ok⟩ := decode_bind_ok ok
    obtain ⟨parameters, _, _, ok⟩ := decode_bind_ok ok
    by_cases inside : words ≤ ip.toNat
    · simp only [inside, ↓reduceIte] at ok
      cases ok
    by_cases slots : maxSlots < locals.toNat + parameters.toNat
    · simp only [inside, slots, ↓reduceIte] at ok
      cases ok
    simp only [inside, slots, ↓reduceIte] at ok
    obtain ⟨rfl, _⟩ := decode_pure_ok ok
    cases same
    exact Nat.not_lt.mp slots
  | 1, ok =>
    obtain ⟨rfl, _⟩ := decode_pure_ok ok
    cases same
  | 2, ok =>
    obtain ⟨rfl, _⟩ := decode_pure_ok ok
    cases same
  | n + 3, ok => cases ok

theorem decodeProgram_limits (read : decodeProgram registry bytes = .ok (p, rest)) :
    (∀ f, .user f ∈ p.functions → f.locals.toNat + f.parameters.toNat ≤ maxSlots) ∧
      ∀ v ∈ p.globals, v.nesting ≤ maxNesting := by
  obtain ⟨flags, body, rfl⟩ := decodeProgram_header read
  rw [header_read] at read
  obtain ⟨words, _, _, read⟩ := decode_bind_ok read
  obtain ⟨functions, _, second, read⟩ := decode_bind_ok read
  obtain ⟨globals, _, third, read⟩ := decode_bind_ok read
  obtain ⟨literals, _, _, read⟩ := decode_bind_ok read
  obtain ⟨lines, _, _, read⟩ := decode_bind_ok read
  by_cases code : words.isEmpty
  · simp only [code, ↓reduceIte] at read
    cases read
  simp only [code, Bool.false_eq_true, ↓reduceIte] at read
  obtain ⟨rfl, _⟩ := decode_pure_ok read
  exact ⟨fun f member => table_all function_slots second _ member f rfl,
    table_all (value_shallow maxNesting) third⟩

theorem decode_eq_ok_iff :
    Program.decode registry bytes = .ok p ↔ ∃ rest,
    decodeProgram registry bytes = .ok (p, rest) := by
  change (Prod.fst <$> decodeProgram registry bytes) = .ok p ↔ _
  cases decodeProgram registry bytes with
  | error e => simp [Functor.map, Except.map]
  | ok read =>
    obtain ⟨q, rest⟩ := read
    simp [Functor.map, Except.map]

theorem encode_words (written : p.encode = .ok bytes) : p.words.size < 2 ^ 32 := by
  obtain ⟨_, _, tables, written, _⟩ := encode_ok written
  obtain ⟨words, first, _⟩ := encoded_bind_ok written
  obtain ⟨length, counted, _⟩ := encoded_bind_ok first
  exact (encodeLength_ok counted).1

theorem loadable_read (written : p.encode = .ok bytes) (loadable : Loadable registry p) :
    decodeProgram registry bytes = .ok (p, []) := by
  obtain ⟨code, lines, tables, tablesWritten, rfl⟩ := encode_ok written
  have bit : linesBit p.lines &&& linesFlag = linesBit p.lines := by
    cases p.lines <;> simp [linesBit, linesFlag]
  have read := tables_read_back code lines tablesWritten loadable bit []
  rwa [List.append_nil] at read

theorem registry_admits (distinct : registry.functions.names.Nodup)
    (proper : ∀ entry ∈ registry.functions, Registry.Proper entry) {name : String} {f : Function}
    (offered : (name, f) ∈ registry.functions) : Admits registry words f := by
  have found := NameTable.find?_of_mem distinct offered
  obtain ⟨own, notUser⟩ := proper _ offered
  cases f with
  | user g => exact absurd rfl (notUser g)
  | host other arity =>
    obtain rfl : other = name := own
    simp [Admits, Registry.arity, found, Function.arity?]
  | native g =>
    obtain rfl : g.name = name := own
    simp [Admits, Registry.native, found]

end Format

theorem Options.registry_distinct {host : Registry} (built : Registry.Built host)
    (options : Options) :
    (options.registry host).functions.names.Nodup := by
  have distinct := Registry.built_distinct built
  unfold Options.registry
  dsimp only
  split
  · exact Registry.addBuiltins_distinct distinct
  · exact distinct

namespace Compile

open Format

def nested : Nat → Value
  | 0 => .list []
  | n + 1 => .list [nested n]

theorem nested_nesting (n : Nat) : (nested n).nesting = n + 1 := by
  induction n with
  | zero => rfl
  | succ n ih => simp [nested, Value.nesting, Value.nestingOf, ih]

section Limits

variable {host : Registry} {options : Options} {source : String} {p : Program} {bytes : List UInt8}

/-- Beyond its two limits the reader asks for nothing that a compiled program does not have. -/
theorem compiled_loadable (built : Registry.Built host) (ok : compile host options source = .ok p)
    (written : p.encode = .ok bytes)
    (slots : ∀ f, .user f ∈ p.functions → f.locals.toNat + f.parameters.toNat ≤ maxSlots)
    (shallow : ∀ c ∈ (options.registry host).constants, c.2.nesting ≤ maxNesting) :
    Loadable (options.registry host) p := by
  have tabled := compile_tabled built ok
  obtain ⟨declared, globals, flat⟩ := tabled.globals
  refine ⟨fun f member => ?_, fun v member => ?_, fun v member => ?_⟩
  · rcases tabled.functions f member with ⟨g, start, rfl, ip, inside⟩ | ⟨name, offered⟩
    · have small := encode_words written
      refine ⟨?_, slots g member⟩
      rw [ip, UInt32.toNat_ofNat_of_lt' (Nat.lt_trans inside small)]
      exact inside
    · exact registry_admits (options.registry_distinct built) (options.registry_proper built)
        offered
  · rw [← Array.mem_toList_iff, globals] at member
    rcases List.mem_append.mp member with old | new
    · obtain ⟨c, listed, rfl⟩ := List.mem_map.mp old
      exact shallow c listed
    · exact Nat.le_trans (flat v new) (by decide)
  · rw [nesting_atom (tabled.literals v member)]
    exact Nat.zero_le _

/-- The variables of the registry are variables of every program compiled for it, so that none that
loads has one of them too deep. -/
theorem compiled_shallow (built : Registry.Built host) (ok : compile host options source = .ok p)
    (shallow : ∀ v ∈ p.globals, v.nesting ≤ maxNesting) :
    ∀ c ∈ (options.registry host).constants, c.2.nesting ≤ maxNesting := by
  intro c member
  obtain ⟨declared, globals, -⟩ := (compile_tabled built ok).globals
  apply shallow c.2
  rw [← Array.mem_toList_iff, globals]
  exact List.mem_append_left _ (List.mem_map.mpr ⟨c, member, rfl⟩)

end Limits

/-- Saved programs can be loaded exactly within the reader's limits: a program that was compiled and
saved loads, with the same tables, if and only if no function of it has too many slots and no
variable of the registry nests too deep. -/
theorem decode_compiled {host : Registry} {options : Options} {source : String} {p : Program}
    {bytes : List UInt8} (built : Registry.Built host) (ok : compile host options source = .ok p)
    (written : p.encode = .ok bytes) : Program.decode (options.registry host) bytes = .ok p ↔
      (∀ f, .user f ∈ p.functions → f.locals.toNat + f.parameters.toNat ≤ maxSlots) ∧
      ∀ c ∈ (options.registry host).constants, c.2.nesting ≤ maxNesting := by
  rw [decode_eq_ok_iff]
  constructor
  · rintro ⟨rest, read⟩
    obtain ⟨slots, shallow⟩ := decodeProgram_limits read
    exact ⟨slots, compiled_shallow built ok shallow⟩
  · rintro ⟨slots, shallow⟩
    exact ⟨[], loadable_read written (compiled_loadable built ok written slots shallow)⟩

def fewSlots : Function → Bool
  | .user f => decide (f.locals.toNat + f.parameters.toNat ≤ maxSlots)
  | _ => true

theorem decode_compiled_nested :
    let options : Options := ⟨45, true, false, [("deep", nested 63)]⟩
    ∃ p bytes, compile .empty options "Main(a) \x7b a = deep \x7d" = .ok p ∧ p.encode = .ok bytes ∧
      Program.decode (options.registry .empty) bytes = .ok p := by
  intro options
  have runs : ((compile .empty options "Main(a) \x7b a = deep \x7d").toOption.any fun p =>
      p.encode.isOk && p.functions.all fewSlots) = true := by decide +kernel
  cases ok : compile .empty options "Main(a) \x7b a = deep \x7d" with
  | error ds =>
    rw [ok] at runs
    cases runs
  | ok p =>
  rw [ok] at runs
  obtain ⟨saved, slots⟩ := Bool.and_eq_true_iff.mp runs
  cases written : p.encode with
  | error e =>
    rw [written] at saved
    cases saved
  | ok bytes =>
    refine ⟨p, bytes, rfl, written, (decode_compiled .empty ok written).mpr ⟨?_, ?_⟩⟩
    · intro f member
      exact of_decide_eq_true (Array.all_eq_true_iff_forall_mem.mp slots _ member)
    · intro c member
      obtain rfl := List.mem_singleton.mp (show c ∈ [("deep", nested 63)] from member)
      exact Nat.le_of_eq (nested_nesting 63)

/-- A host may offer a variable that nests deeper than the reader allows. The program is compiled
and saved, and cannot be loaded. -/
theorem decode_nested_variable :
    let options : Options := ⟨45, true, false, [("deep", nested 64)]⟩
    Registry.Built .empty ∧ ∃ p bytes, compile .empty options "Main() \x7b \x7d" = .ok p ∧
      p.encode = .ok bytes ∧
      Program.decode (options.registry .empty) bytes = .error .nestingTooDeep := by
  intro options
  refine ⟨.empty, ?_⟩
  have runs : ((compile .empty options "Main() \x7b \x7d").toOption.any fun p =>
      p.encode.toOption.any fun bytes =>
        decide ((Program.decode (options.registry .empty) bytes).map (fun _ => ()) =
          .error .nestingTooDeep)) = true := by decide +kernel
  cases ok : compile .empty options "Main() \x7b \x7d" with
  | error ds =>
    rw [ok] at runs
    cases runs
  | ok p =>
  rw [ok] at runs
  cases written : p.encode with
  | error e =>
    have runs : (p.encode.toOption.any _) = true := runs
    rw [written] at runs
    cases runs
  | ok bytes =>
  have runs : (p.encode.toOption.any _) = true := runs
  rw [written] at runs
  have failed := of_decide_eq_true runs
  refine ⟨p, bytes, rfl, written, ?_⟩
  cases read : Program.decode (options.registry .empty) bytes with
  | error e =>
    rw [read] at failed
    cases failed
    rfl
  | ok q =>
    rw [read] at failed
    cases failed

end Compile

end Scriptlet
