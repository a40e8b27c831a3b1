import Mathlib.Data.List.Forall2
import Scriptlet.Proofs.Format.Fields
import Scriptlet.Proofs.Registries

/-!
Whole programs through the byte format. A program that can be written and that the reader's
limits admit reads back as it was, whatever bytes follow. Conversely, everything the reader
accepts is what would be written for the program it gives, except for the unused flags.
-/
namespace Scriptlet

mutual

/-- How deep lists stand inside each other; an atom has no depth. -/
def Value.nesting : Value → Nat
  | .atom _ => 0
  | .list items => Value.nestingOf items + 1

def Value.nestingOf : List Value → Nat
  | [] => 0
  | v :: rest => max v.nesting (Value.nestingOf rest)

end

namespace Format

variable {p : Program} {registry : Registry} {bytes rest : List UInt8} {words : Nat}
  {flags : UInt32}

theorem nesting_le_of_mem {items : List Value} {v : Value} (member : v ∈ items) :
    v.nesting ≤ Value.nestingOf items := by
  induction items with
  | nil => simp at member
  | cons head rest ih =>
    simp only [Value.nestingOf]
    rcases List.mem_cons.mp member with same | later
    · subst same
      omega
    · have := ih later
      omega

theorem encodeValues_eq_items (items : List Value) :
    encodeValues items = encodeItems encodeValue items := by
  induction items with
  | nil => simp only [encodeValues, encodeItems]
  | cons v rest ih => simp only [encodeValues, encodeItems, ih]

theorem encodeValue_list (items : List Value) :
    encodeValue (.list items) = (do return encodeWord 3 ++ (← encodeTable encodeValue items)) := by
  simp only [encodeValue, encodeValues_eq_items, encodeTable]
  cases encodeLength items.length with
  | error e => rfl
  | ok length =>
    cases encodeItems encodeValue items with
    | error e => rfl
    | ok bytes => simp [bind, Except.bind, pure, Except.pure]

theorem decodeValue_tagged (levels : Nat) (tag : UInt32) (rest : List UInt8) :
    decodeValue levels (encodeWord tag ++ rest) = (match Value.Kind.ofTag? tag.toNat with
      | some .integer => do return .integer (← decodeWord).toInt32
      | some .float => do return .float ⟨← decodeDouble⟩
      | some .text => do return .text (← decodeText)
      | some .list =>
        match levels with
        | 0 => throw .nestingTooDeep
        | levels + 1 => do return .list (← decodeTable (decodeValue levels)).toList
      | none => throw (.unknownTag tag) : Decode Value) rest := by
  rw [decodeValue.eq_def]
  refine (decode_bind (decodeWord_encodeWord tag rest)).trans ?_
  cases levels <;> rfl

theorem value_reads_back (levels : Nat) : ∀ v : Value, v.nesting ≤ levels →
    ReadsBack encodeValue (decodeValue levels) v := by
  induction levels with
  | zero =>
    intro v shallow
    cases v with
    | atom a => exact atom_reads_back 0 a
    | list items => simp [Value.nesting] at shallow
  | succ levels ih =>
    intro v shallow
    cases v with
    | atom a => exact atom_reads_back (levels + 1) a
    | list items =>
      intro bytes rest written
      rw [encodeValue_list] at written
      obtain ⟨table, inner, written⟩ := encoded_bind_ok written
      cases written
      have each : ∀ v ∈ items.toArray, ReadsBack encodeValue (decodeValue levels) v := by
        intro v member
        have := nesting_le_of_mem (List.mem_toArray.mp member)
        simp only [Value.nesting] at shallow
        exact ih v (by omega)
      rw [List.append_assoc, decodeValue_tagged]
      change (decodeTable (decodeValue levels) >>= _) _ = _
      rw [decode_bind (table_reads_back items.toArray each table rest inner)]
      rfl
where
  atom_reads_back (levels : Nat) (a : Atom) :
      ReadsBack encodeValue (decodeValue levels) (.atom a) := by
    intro bytes rest written
    cases a with
    | integer n =>
      rw [encodeValue] at written
      cases written
      rw [List.append_assoc, decodeValue_tagged]
      change (decodeWord >>= _) _ = _
      rw [decode_bind (decodeWord_encodeWord _ _), Int32.toInt32_toUInt32]
      rfl
    | float x =>
      rw [encodeValue] at written
      cases written
      rw [List.append_assoc, decodeValue_tagged]
      change (decodeDouble >>= _) _ = _
      rw [decode_bind (decodeDouble_encodeDouble _ _)]
      rfl
    | text s =>
      rw [encodeValue] at written
      obtain ⟨text, inner, written⟩ := encoded_bind_ok written
      cases written
      rw [List.append_assoc, decodeValue_tagged]
      change (decodeText >>= _) _ = _
      rw [decode_bind (text_reads_back s text rest inner)]
      rfl

theorem tag_of_ofTag? {n : Nat} {kind : Value.Kind} (h : Value.Kind.ofTag? n = some kind) :
    n = kind.tag := by
  unfold Value.Kind.ofTag? at h
  split at h <;> cases h <;> rfl

theorem value_canonical_step (levels : Nat)
    (below : ∀ n, levels = n + 1 → Canonical encodeValue (decodeValue n)) :
    Canonical encodeValue (decodeValue levels) := by
  intro bytes v rest h
  have split := h
  rw [decodeValue.eq_def] at split
  obtain ⟨tag, middle, first, _⟩ := decode_bind_ok split
  obtain rfl := decodeWord_ok first
  rw [decodeValue_tagged] at h
  -- The tag that was read decides which of the writers is undone.
  cases kind : Value.Kind.ofTag? tag.toNat with
  | none => rw [kind] at h; cases h
  | some k =>
    have same : tag = UInt32.ofNat k.tag := by
      rw [← tag_of_ofTag? kind, UInt32.ofNat_toNat]
    subst same
    rw [kind] at h
    cases k with
    | integer =>
      obtain ⟨w, last, second, h⟩ := decode_bind_ok h
      obtain ⟨rfl, rfl⟩ := decode_pure_ok h
      refine ⟨encodeWord 0 ++ encodeWord w, ?_, ?_⟩
      · rw [decodeWord_ok second]
        simp [Value.Kind.tag]
      · simp [encodeValue]
    | float =>
      obtain ⟨w, last, second, h⟩ := decode_bind_ok h
      obtain ⟨rfl, rfl⟩ := decode_pure_ok h
      refine ⟨encodeWord 1 ++ encodeDouble w, ?_, ?_⟩
      · rw [decodeDouble_ok second]
        simp [Value.Kind.tag]
      · simp [encodeValue]
    | text =>
      obtain ⟨s, last, second, h⟩ := decode_bind_ok h
      obtain ⟨rfl, rfl⟩ := decode_pure_ok h
      obtain ⟨text, rfl, written⟩ := text_canonical _ _ _ second
      refine ⟨encodeWord 2 ++ text, ?_, ?_⟩
      · simp [Value.Kind.tag]
      · rw [encodeValue, written]
        rfl
    | list =>
      cases levels with
      | zero => cases h
      | succ levels =>
        obtain ⟨items, last, second, h⟩ := decode_bind_ok h
        obtain ⟨rfl, rfl⟩ := decode_pure_ok h
        obtain ⟨table, rfl, written⟩ := table_canonical (below levels rfl) _ _ _ second
        refine ⟨encodeWord 3 ++ table, ?_, ?_⟩
        · simp [Value.Kind.tag]
        · rw [encodeValue_list, ← writeTable, written]
          rfl

theorem value_canonical (levels : Nat) : Canonical encodeValue (decodeValue levels) := by
  induction levels with
  | zero => exact value_canonical_step 0 (by simp)
  | succ levels ih =>
    apply value_canonical_step
    intro n same
    cases same
    exact ih

/-- What the reader demands of a function: of one of the program, an entry inside the code and
slots within the limit; of any other, that it is what the registry has under its name. -/
def Admits (registry : Registry) (words : Nat) : Function → Prop
  | .user f => f.ip.toNat < words ∧ f.locals.toNat + f.parameters.toNat ≤ maxSlots
  | .host name arity => arity = registry.arity name
  | .native f => f = registry.native f.name

theorem function_reads_back (f : Function) (admitted : Admits registry words f) :
    ReadsBack encodeFunction (decodeFunction registry words) f := by
  intro bytes rest written
  obtain ⟨name, first, written⟩ := encoded_bind_ok written
  unfold decodeFunction
  cases f with
  | user f =>
    obtain ⟨inside, slots⟩ := admitted
    cases written
    simp only [List.append_assoc]
    rw [decode_bind (text_reads_back _ _ _ first), decode_bind (decodeWord_encodeWord _ _)]
    change (decodeWord >>= _) _ = _
    rw [decode_bind (decodeWord_encodeWord _ _), decode_bind (decodeWord_encodeWord _ _),
      decode_bind (decodeWord_encodeWord _ _)]
    simp only [Nat.not_le.mpr inside, Nat.not_lt.mpr slots, ↓reduceIte]
    rfl
  | host label arity =>
    cases written
    simp only [List.append_assoc]
    rw [decode_bind (text_reads_back _ _ _ first), decode_bind (decodeWord_encodeWord _ _),
      show arity = registry.arity label from admitted]
    rfl
  | native f =>
    cases written
    simp only [List.append_assoc]
    rw [decode_bind (text_reads_back _ _ _ first), decode_bind (decodeWord_encodeWord _ _)]
    change Except.ok (Function.native (registry.native f.name), rest) = _
    rw [← show f = registry.native f.name from admitted]

theorem function_canonical (built : registry.Built) (words : Nat) :
    Canonical encodeFunction (decodeFunction registry words) := by
  intro bytes f rest read
  unfold decodeFunction at read
  obtain ⟨name, tail, first, read⟩ := decode_bind_ok read
  obtain ⟨kind, body, second, read⟩ := decode_bind_ok read
  obtain ⟨text, front, written⟩ := text_canonical _ _ _ first
  have whole : bytes = text ++ (encodeWord (UInt32.ofNat kind.toNat) ++ body) := by
    rw [front, decodeWord_ok second, UInt32.ofNat_toNat]
  match number : kind.toNat, read with
  | 0, read =>
    obtain ⟨ip, tail, third, read⟩ := decode_bind_ok read
    obtain ⟨locals, tail, fourth, read⟩ := decode_bind_ok read
    obtain ⟨parameters, tail, fifth, read⟩ := decode_bind_ok read
    by_cases inside : words ≤ ip.toNat
    · simp only [inside, ↓reduceIte] at read
      cases read
    by_cases slots : maxSlots < locals.toNat + parameters.toNat
    · simp only [inside, slots, ↓reduceIte] at read
      cases read
    simp only [inside, slots, ↓reduceIte] at read
    obtain ⟨rfl, rfl⟩ := decode_pure_ok read
    refine ⟨text ++ encodeWord 0 ++ encodeWord ip ++ encodeWord locals ++ encodeWord parameters,
      ?_, ?_⟩
    · rw [whole, number, decodeWord_ok third, decodeWord_ok fourth, decodeWord_ok fifth]
      simp
    · simp only [encodeFunction, Function.name, written]
      rfl
  | 1, read =>
    obtain ⟨rfl, rfl⟩ := decode_pure_ok read
    refine ⟨text ++ encodeWord 1, ?_, ?_⟩
    · rw [whole, number]
      simp
    · simp only [encodeFunction, Function.name, written]
      rfl
  | 2, read =>
    obtain ⟨rfl, rfl⟩ := decode_pure_ok read
    refine ⟨text ++ encodeWord 2, ?_, ?_⟩
    · rw [whole, number]
      simp
    · simp only [encodeFunction, Function.name, Registry.built_native_name built, written]
      rfl
  | n + 3, read => cases read

def header (flags : UInt32) : List UInt8 :=
  encodeWord magic ++ encodeWord version ++ encodeWord flags

def writeLines : Option (Array UInt32) → Encoded
  | some lines => writeTable writeWord lines
  | none => .ok []

def writeTables (p : Program) : Encoded := do
  let words ← writeTable writeWord p.words
  let functions ← writeTable encodeFunction p.functions
  let globals ← writeTable encodeValue p.globals
  let literals ← writeTable encodeValue p.literals
  return words ++ (functions ++ (globals ++ (literals ++ (← writeLines p.lines))))

def linesBit (lines : Option (Array UInt32)) : UInt32 := if lines.isSome then linesFlag else 0

def LinesMatch (p : Program) : Prop := ∀ lines ∈ p.lines, lines.size = p.words.size

theorem encode_eq (code : p.words.isEmpty = false) (lines : LinesMatch p) :
    p.encode = (do return header (linesBit p.lines) ++ (← writeTables p)) := by
  unfold Program.encode writeTables
  cases kept : p.lines with
  | none =>
    simp [code, header, linesBit, writeLines, writeTable, List.append_assoc]
    rfl
  | some ls =>
    have size : ls.size = p.words.size := lines ls (by simp [kept])
    simp [code, size, header, linesBit, writeLines, writeTable, List.append_assoc]
    rfl

theorem encode_ok (h : p.encode = .ok bytes) : p.words.isEmpty = false ∧ LinesMatch p ∧
      ∃ tables, writeTables p = .ok tables ∧ bytes = header (linesBit p.lines) ++ tables := by
  by_cases code : p.words.isEmpty
  · simp only [Program.encode, code, ↓reduceIte] at h
    cases h
  have code : p.words.isEmpty = false := by simpa using code
  by_cases lines : LinesMatch p
  · rw [encode_eq code lines] at h
    obtain ⟨tables, written, h⟩ := encoded_bind_ok h
    cases h
    exact ⟨code, lines, tables, written, rfl⟩
  · cases kept : p.lines with
    | none => exact absurd (by simp [LinesMatch, kept]) lines
    | some ls =>
      have differ : ls.size ≠ p.words.size := fun same => lines (by simp [LinesMatch, kept, same])
      simp [Program.encode, code, kept, differ] at h
      cases h

def decodeMap (flags : UInt32) (words : Nat) : Decode (Option (Array UInt32)) :=
  if flags &&& linesFlag ≠ 0 then some <$> decodeLines words else pure none

theorem header_read (registry : Registry) (flags : UInt32) (rest : List UInt8) :
    decodeProgram registry (header flags ++ rest) = (do
      let words ← decodeTable decodeWord
      let functions ← decodeTable (decodeFunction registry words.size)
      let globals ← decodeTable (decodeValue maxNesting)
      let literals ← decodeTable (decodeValue maxNesting)
      let lines ← decodeMap flags words.size
      if words.isEmpty then throw .empty
      return ⟨words, functions, globals, literals, lines⟩ : Decode Program) rest := by
  unfold decodeProgram header
  simp only [List.append_assoc]
  rw [decode_bind (decodeWord_encodeWord _ _)]
  simp only [ne_eq, not_true_eq_false, ↓reduceIte]
  rw [decode_bind (decodeWord_encodeWord _ _)]
  simp only [not_true_eq_false, ↓reduceIte]
  rw [decode_bind (decodeWord_encodeWord _ _)]
  apply congrFun
  refine bind_congr fun words => bind_congr fun functions => bind_congr fun globals =>
    bind_congr fun literals => ?_
  unfold decodeMap
  by_cases kept : flags &&& linesFlag ≠ 0
  · rw [if_pos kept, if_pos kept]
  · rw [if_neg kept, if_neg kept]

theorem decodeLines_iff {lines : Array UInt32} : decodeLines words bytes = .ok (lines, rest) ↔
    decodeTable decodeWord bytes = .ok (lines, rest) ∧ lines.size = words := by
  constructor
  · intro read
    obtain ⟨length, tail, first, read⟩ := decode_bind_ok read
    by_cases same : length.toNat = words
    · simp only [same, ne_eq, not_true_eq_false, ↓reduceIte] at read
      obtain ⟨more, _, rfl, count, _, _⟩ := items_canonical word_canonical _ _ _ _ _ read
      rw [decodeTable, decode_bind first, same]
      exact ⟨read, by simp [count]⟩
    · simp only [same, ne_eq, not_false_eq_true, ↓reduceIte] at read
      cases read
  · rintro ⟨read, rfl⟩
    obtain ⟨length, tail, first, read⟩ := decode_bind_ok read
    obtain ⟨more, _, rfl, count, _, _⟩ := items_canonical word_canonical _ _ _ _ _ read
    rw [decodeLines, decode_bind first]
    simpa [count] using read

theorem lines_read_back (lines : Array UInt32) :
    ReadsBack (writeTable writeWord) (decodeLines lines.size) lines := fun bytes rest written =>
  decodeLines_iff.mpr ⟨table_reads_back lines (fun w _ => word_reads_back w) bytes rest written,
    rfl⟩

theorem lines_canonical (words : Nat) : Canonical (writeTable writeWord) (decodeLines words) :=
  fun bytes lines rest read => table_canonical word_canonical bytes lines rest
    (decodeLines_iff.mp read).1

theorem linesBit_ne_zero (lines : Option (Array UInt32)) :
    linesBit lines ≠ 0 ↔ lines.isSome = true := by
  cases lines with
  | none => simp [linesBit]
  | some ls => simp [linesBit, linesFlag]

theorem and_linesFlag (flags : UInt32) :
    flags &&& linesFlag = 0 ∨ flags &&& linesFlag = linesFlag := by
  have bit : (flags &&& linesFlag).toNat = flags.toNat % 2 := by
    rw [UInt32.toNat_and]
    exact Nat.and_one_is_mod _
  rcases Nat.mod_two_eq_zero_or_one flags.toNat with even | odd
  · exact Or.inl (UInt32.toNat_inj.mp (bit.trans even))
  · exact Or.inr (UInt32.toNat_inj.mp (bit.trans odd))

/-- Only one of the flags matters to the reader. -/
theorem map_reads_back (bit : flags &&& linesFlag = linesBit p.lines) (lines : LinesMatch p) :
    ReadsBack writeLines (decodeMap flags p.words.size) p.lines := by
  intro bytes rest written
  unfold decodeMap
  rw [bit]
  cases kept : p.lines with
  | none =>
    rw [kept] at written
    cases written
    rfl
  | some ls =>
    rw [kept] at written
    have size : ls.size = p.words.size := lines ls (by simp [kept])
    rw [if_pos ((linesBit_ne_zero _).mpr rfl), map_eq_pure_bind,
      decode_bind (size ▸ lines_read_back ls bytes rest written)]
    rfl

/-- What the reader demands of a program beside its being writable. -/
structure Loadable (registry : Registry) (p : Program) : Prop where
  functions : ∀ f ∈ p.functions, Admits registry p.words.size f
  globals : ∀ v ∈ p.globals, v.nesting ≤ maxNesting
  literals : ∀ v ∈ p.literals, v.nesting ≤ maxNesting

theorem tables_read_back {tables : List UInt8} (code : p.words.isEmpty = false)
    (lines : LinesMatch p) (written : writeTables p = .ok tables) (loadable : Loadable registry p)
    (bit : flags &&& linesFlag = linesBit p.lines) (rest : List UInt8) :
    decodeProgram registry (header flags ++ tables ++ rest) = .ok (p, rest) := by
  obtain ⟨words, wordsWritten, written⟩ := encoded_bind_ok written
  obtain ⟨functions, functionsWritten, written⟩ := encoded_bind_ok written
  obtain ⟨globals, globalsWritten, written⟩ := encoded_bind_ok written
  obtain ⟨literals, literalsWritten, written⟩ := encoded_bind_ok written
  obtain ⟨map, mapWritten, written⟩ := encoded_bind_ok written
  cases written
  have wordsBack := table_reads_back p.words (fun w _ => word_reads_back w)
  have functionsBack := table_reads_back p.functions
    (fun f member => function_reads_back f (loadable.functions f member))
  have globalsBack := table_reads_back p.globals
    (fun v member => value_reads_back maxNesting v (loadable.globals v member))
  have literalsBack := table_reads_back p.literals
    (fun v member => value_reads_back maxNesting v (loadable.literals v member))
  rw [List.append_assoc, header_read]
  simp only [List.append_assoc]
  rw [decode_bind (wordsBack _ _ wordsWritten), decode_bind (functionsBack _ _ functionsWritten),
    decode_bind (globalsBack _ _ globalsWritten), decode_bind (literalsBack _ _ literalsWritten),
    decode_bind (map_reads_back bit lines _ _ mapWritten)]
  simp only [code, Bool.false_eq_true, ↓reduceIte]
  rfl

/-- Reading what was written gives the program and leaves the bytes behind it. -/
theorem decodeProgram_encode {registry : Registry} {p : Program} {bytes : List UInt8}
    (written : p.encode = .ok bytes) (loadable : Loadable registry p) (rest : List UInt8) :
    decodeProgram registry (bytes ++ rest) = .ok (p, rest) := by
  obtain ⟨code, lines, tables, tablesWritten, rfl⟩ := encode_ok written
  have bit : linesBit p.lines &&& linesFlag = linesBit p.lines := by
    cases p.lines <;> simp [linesBit, linesFlag]
  exact tables_read_back code lines tablesWritten loadable bit rest

def mixedProgram : Program where
  words := #[1, 0, 0, 2, 0]
  functions := #[.user ⟨"Main", 3, 1, 2⟩, .host "Print" (.atLeast 1), .native (.disabled "Len")]
  globals := #[.list [.float ⟨0x7FF8000000000001⟩, .text "né"]]
  literals := #[.float ⟨0x8000000000000000⟩, .integer (-1)]
  lines := some #[1, 1, 1, 2, 2]

def printRegistry : Registry := Registry.empty.addHost "Print" (.atLeast 1)

theorem mixedProgram_loadable : Loadable printRegistry mixedProgram where
  functions := by
    simp only [mixedProgram, List.mem_toArray, List.mem_cons, List.not_mem_nil, or_false]
    rintro f (rfl | rfl | rfl)
    · exact ⟨by decide, by decide⟩
    · rfl
    · rfl
  globals := by simp [mixedProgram, Value.nesting, Value.nestingOf, maxNesting]
  literals := by simp [mixedProgram, Value.nesting, maxNesting]

theorem decodeProgram_encode_mixed : ∃ bytes, mixedProgram.encode = .ok bytes ∧
    Loadable printRegistry mixedProgram ∧
    decodeProgram printRegistry (bytes ++ [7]) = .ok (mixedProgram, [7]) :=
  ⟨_, rfl, mixedProgram_loadable, decodeProgram_encode rfl mixedProgram_loadable [7]⟩

theorem decodeProgram_header (read : decodeProgram registry bytes = .ok (p, rest)) :
    ∃ flags body, bytes = header flags ++ body := by
  unfold decodeProgram at read
  obtain ⟨word, afterMagic, first, read⟩ := decode_bind_ok read
  by_cases isMagic : word = magic
  · simp only [isMagic, ne_eq, not_true_eq_false, ↓reduceIte] at read
    obtain ⟨found, afterVersion, second, read⟩ := decode_bind_ok read
    by_cases isVersion : found = version
    · simp only [isVersion, not_true_eq_false, ↓reduceIte] at read
      obtain ⟨flags, body, third, read⟩ := decode_bind_ok read
      refine ⟨flags, body, ?_⟩
      rw [decodeWord_ok first, decodeWord_ok second, decodeWord_ok third, isMagic,
        isVersion, header]
      simp only [List.append_assoc]
    · simp only [isVersion, not_false_eq_true, ↓reduceIte] at read
      cases read
  · simp only [isMagic, ne_eq, not_false_eq_true, ↓reduceIte] at read
    cases read

theorem map_canonical {lines : Option (Array UInt32)}
    (read : decodeMap flags words bytes = .ok (lines, rest)) :
    linesBit lines = flags &&& linesFlag ∧ (∀ ls ∈ lines, ls.size = words) ∧
      ∃ front, bytes = front ++ rest ∧ writeLines lines = .ok front := by
  unfold decodeMap at read
  rcases and_linesFlag flags with clear | kept
  · rw [if_neg (by simp [clear])] at read
    obtain ⟨rfl, rfl⟩ := decode_pure_ok read
    exact ⟨by rw [clear]; rfl, by simp, [], rfl, rfl⟩
  · rw [if_pos (by rw [kept]; decide), map_eq_pure_bind] at read
    obtain ⟨ls, tail, inner, read⟩ := decode_bind_ok read
    obtain ⟨rfl, rfl⟩ := decode_pure_ok read
    refine ⟨by rw [kept]; rfl, ?_, lines_canonical words _ _ _ inner⟩
    intro ls same
    cases same
    exact (decodeLines_iff.mp inner).2

theorem decodeProgram_tables (built : registry.Built)
    (read : decodeProgram registry bytes = .ok (p, rest)) :
    p.words.isEmpty = false ∧ LinesMatch p ∧ ∃ flags tables,
    linesBit p.lines = flags &&& linesFlag ∧
      bytes = header flags ++ tables ++ rest ∧ writeTables p = .ok tables := by
  obtain ⟨flags, body, rfl⟩ := decodeProgram_header read
  rw [header_read] at read
  obtain ⟨words, tail, first, read⟩ := decode_bind_ok read
  obtain ⟨functions, tail, second, read⟩ := decode_bind_ok read
  obtain ⟨globals, tail, third, read⟩ := decode_bind_ok read
  obtain ⟨literals, tail, fourth, read⟩ := decode_bind_ok read
  obtain ⟨lines, tail, fifth, read⟩ := decode_bind_ok read
  by_cases code : words.isEmpty
  · simp only [code, ↓reduceIte] at read
    cases read
  have code : words.isEmpty = false := by simpa using code
  simp only [code, Bool.false_eq_true, ↓reduceIte] at read
  obtain ⟨rfl, rfl⟩ := decode_pure_ok read
  obtain ⟨wordBytes, split1, wordsWritten⟩ := table_canonical word_canonical _ _ _ first
  obtain ⟨functionBytes, split2, functionsWritten⟩ :=
    table_canonical (function_canonical built _) _ _ _ second
  obtain ⟨globalBytes, split3, globalsWritten⟩ := table_canonical (value_canonical _) _ _ _ third
  obtain ⟨literalBytes, split4, literalsWritten⟩ := table_canonical (value_canonical _) _ _ _ fourth
  obtain ⟨bit, size, mapBytes, split5, mapWritten⟩ := map_canonical fifth
  refine ⟨code, size, flags,
    wordBytes ++ (functionBytes ++ (globalBytes ++ (literalBytes ++ mapBytes))), bit, ?_, ?_⟩
  · rw [split1, split2, split3, split4, split5]
    simp only [List.append_assoc]
  · simp only [writeTables, wordsWritten, functionsWritten, globalsWritten, literalsWritten,
      mapWritten]
    rfl

def Alike (p q : Program) : Prop :=
  p.words = q.words ∧ List.Forall₂ (fun f g => f.same g = true) p.functions.toList
    q.functions.toList ∧ p.globals = q.globals ∧ p.literals = q.literals ∧ p.lines = q.lines

theorem encodeFunction_same {f g : Function} (same : f.same g = true) :
    encodeFunction f = encodeFunction g := by
  cases f <;> cases g <;> simp_all [Function.same, encodeFunction, Function.name, functionKind]

theorem encodeItems_same {fs gs : List Function}
    (same : List.Forall₂ (fun f g => f.same g = true) fs gs) :
    encodeItems encodeFunction fs = encodeItems encodeFunction gs := by
  induction same with
  | nil => rfl
  | cons head tail ih => simp only [encodeItems, encodeFunction_same head, ih]

theorem writeTables_alike {q : Program} (alike : Alike p q) : writeTables p = writeTables q := by
  obtain ⟨words, functions, globals, literals, lines⟩ := alike
  simp only [writeTables, writeTable, encodeTable, words, globals, literals, lines,
    encodeItems_same functions, functions.length_eq]

/-- Writing a program that was read gives the bytes it was read from, with the flags reduced to
the one that is used. So two files that hold the same tables agree in all other bytes. -/
theorem encode_decodeProgram {registry : Registry} (built : registry.Built)
    {bytes rest : List UInt8} {p : Program} (read : decodeProgram registry bytes = .ok (p, rest)) :
    ∃ flags tables, bytes = header flags ++ tables ++ rest ∧
      p.encode = .ok (header (flags &&& linesFlag) ++ tables) ∧
      ∀ (registry' : Registry) (bytes' rest' : List UInt8) (q : Program), registry'.Built →
        decodeProgram registry' bytes' = .ok (q, rest') → Alike p q →
        ∃ flags', flags' &&& linesFlag = flags &&& linesFlag ∧
        bytes' = header flags' ++ tables ++ rest' := by
  obtain ⟨code, lines, flags, tables, bit, split, written⟩ := decodeProgram_tables built read
  refine ⟨flags, tables, split, ?_, ?_⟩
  · rw [encode_eq code lines, written, bit]
    rfl
  · intro registry' bytes' rest' q built' read' alike
    obtain ⟨_, _, flags', tables', bit', split', written'⟩ := decodeProgram_tables built' read'
    have same : tables' = tables := by
      rw [writeTables_alike alike, written'] at written
      cases written
      rfl
    refine ⟨flags', ?_, by rw [split', same]⟩
    rw [← bit, ← bit', alike.2.2.2.2]

theorem encode_decodeProgram_mixed :
    ∃ tables, writeTables mixedProgram = .ok tables ∧ printRegistry.Built ∧
    decodeProgram printRegistry (header 7 ++ tables ++ [9]) = .ok (mixedProgram, [9]) ∧
    ∃ flags found, header 7 ++ tables ++ [9] = header flags ++ found ++ [9] ∧
      mixedProgram.encode = .ok (header (flags &&& linesFlag) ++ found) := by
  have built : printRegistry.Built := .addHost _ _ .empty
  have read (tables) (written : writeTables mixedProgram = .ok tables) :
      decodeProgram printRegistry (header 7 ++ tables ++ [9]) = .ok (mixedProgram, [9]) :=
    tables_read_back rfl (by simp [LinesMatch, mixedProgram]) written mixedProgram_loadable
      (by decide) [9]
  obtain ⟨flags, found, split, written, _⟩ := encode_decodeProgram built (read _ rfl)
  exact ⟨_, rfl, built, read _ rfl, flags, found, split, written⟩

end Format

end Scriptlet
