import Scriptlet.Proofs.Formula.Operands
import Scriptlet.Proofs.Script.Blueprints

/-!
Sources of functions that return the value of an expression. The expressions have no literals, so
there is nothing to be computed beforehand. Where the code of such a function starts, there is the
return statement with the number of tokens and the expression in postfix order, and nothing else.
-/
namespace Scriptlet.Formula

open Actions Code Compile Script

variable {s s' t : Session} {σ : Setting} {rest : List Lexeme} {f : String} {x : Scope}

structure Definition where
  name : String
  parameters : List String
  result : Tree Empty

def Definition.bodyLexemes (d : Definition) : List Lexeme :=
  .keyword .return_ :: (d.result.lexemes ++ [.lineBreak, .rightBrace])

def Definition.lexemes (d : Definition) : List Lexeme :=
  .name d.name :: .leftParen :: (parameterLexemes d.parameters ++
    .leftBrace :: .lineBreak :: (d.bodyLexemes ++ [.lineBreak]))

def text (ds : List Definition) : String := String.ofList (spell (ds.flatMap Definition.lexemes))

def Definition.slot (d : Definition) (x : String) : Address :=
  Scope.slot .parameters (d.parameters.idxOf x)

def offers (registry : Registry) (f : String) (n : Nat) : Bool :=
  (registry.functions.find? f).any fun h => (h.arity?.getD .any).admits n

theorem offers_iff {registry : Registry} {n : Nat} : offers registry f n = true ↔
    ∃ h, registry.functions.find? f = some h ∧ (h.arity?.getD .any).admits n = true := by
  unfold offers
  cases registry.functions.find? f <;> simp

def vocabulary (registry : Registry) (ds : List Definition) (d : Definition) : Vocabulary where
  names x := d.parameters.contains x
  calls f n := (ds.map fun d => (d.name, d.parameters.length)).lookup f == some n ||
    isName f && !Token.isMain f && offers registry f n

/-- Names are what they are used for. The name of the entry function is written in one way only. -/
structure Definition.Fits (registry : Registry) (ds : List Definition) (d : Definition) : Prop where
  name : isName d.name = true ∧ (d.name == "Main" || !Token.isMain d.name) = true
  free : d.name ∉ registry.functions.map (·.1)
  parameters : ∀ x ∈ d.parameters, isName x = true ∧ Token.isMain x = false
  distinct : d.parameters.Nodup
  result : d.result.fits (vocabulary registry ds d) = true

instance (registry : Registry) (ds : List Definition) (d : Definition) :
    Decidable (d.Fits registry ds) :=
  decidable_of_iff ((isName d.name = true ∧ (d.name == "Main" || !Token.isMain d.name) = true) ∧
      d.name ∉ registry.functions.map (·.1) ∧
      (∀ x ∈ d.parameters, isName x = true ∧ Token.isMain x = false) ∧
      d.parameters.Nodup ∧ d.result.fits (vocabulary registry ds d) = true)
    ⟨fun ⟨n, f, p, d, r⟩ => ⟨n, f, p, d, r⟩, fun ⟨n, f, p, d, r⟩ => ⟨n, f, p, d, r⟩⟩

structure Proper (registry : Registry) (ds : List Definition) : Prop where
  definitions : ∀ d ∈ ds, d.Fits registry ds
  distinct : (ds.map (·.name)).Nodup
  entry : "Main" ∈ ds.map (·.name)

instance (registry : Registry) (ds : List Definition) : Decidable (Proper registry ds) :=
  decidable_of_iff ((∀ d ∈ ds, d.Fits registry ds) ∧ (ds.map (·.name)).Nodup ∧
      "Main" ∈ ds.map (·.name))
    ⟨fun ⟨d, n, e⟩ => ⟨d, n, e⟩, fun ⟨d, n, e⟩ => ⟨d, n, e⟩⟩

variable {registry : Registry} {ds : List Definition} {d : Definition}

theorem Proper.named (proper : Proper registry ds) (member : d ∈ ds) :
    (vocabulary registry ds d).Named where
  names x known := by
    have given : x ∈ d.parameters := List.contains_iff_mem.mp known
    exact ((proper.definitions d member).parameters x given).1
  calls f n known := by
    simp only [vocabulary, Bool.or_eq_true, Bool.and_eq_true, beq_iff_eq] at known
    rcases known with own | ⟨⟨name, _⟩, _⟩
    · obtain ⟨e, there, rfl, _⟩ := mem_of_lookup own
      exact (proper.definitions e there).name.1
    · exact name

theorem Proper.legible (proper : Proper registry ds) (member : d ∈ ds) :
    ∀ l ∈ d.lexemes, l.Legible := by
  have fits := proper.definitions d member
  simp only [Definition.lexemes, Definition.bodyLexemes, List.forall_mem_cons,
    List.forall_mem_append]
  exact ⟨name_legible fits.name.1, leftParen_legible,
    parameterLexemes_legible fun x given => (fits.parameters x given).1, leftBrace_legible,
    lineBreak_legible, ⟨keyword_legible .return_,
      d.result.lexemes_legible (proper.named member) fits.result, lineBreak_legible,
      rightBrace_legible, by simp⟩, lineBreak_legible, by simp⟩

def Returns (e : Tree Empty) (r : Naming) (_ : Nat) (row : List Statement) : Prop :=
  ∃ ts, row = [.plain (.returnValue ts)] ∧ Codes r e ts

theorem functionBody_returns {place : Nat} (fits : d.result.fits σ.words = true)
    (small : d.bodyLexemes.length ≤ σ.budget) (speaks : Speaks σ { s with scope := some x })
    (fresh : Fresh (some place) s.writer.ip x)
    (ahead : Ahead (.leftBrace :: .lineBreak :: (d.bodyLexemes ++ rest)) s.tokens) :
    ∃ s' y row, functionBody { s with scope := some x } = .ok () s' ∧
      Bodywork σ.signature σ.budget (Returns d.result) s s' rest x y row := by
  simp only [Definition.bodyLexemes, List.length_cons, List.length_append, List.length_nil] at small
  simp only [Definition.bodyLexemes, List.cons_append, List.append_assoc, List.nil_append] at ahead
  obtain ⟨brace, s₁, opened, open_, ahead⟩ :=
    nextPastBreaks_sees (s := { s with scope := some x }) (by decide) (Or.inl ahead)
  have reads₁ := (nextPastBreaks_reads opened).1
  have past : Past (.keyword .return_ :: (d.result.lexemes ++ .lineBreak :: .rightBrace :: rest))
      s₁.tokens := Or.inr ahead
  obtain ⟨word, s₂, taken, read, ahead⟩ := nextPastBreaks_sees (by simp [Lexeme.keyword]) past
  have reads₂ := reads₁.trans (nextPastBreaks_reads taken).1
  obtain ⟨ts, s₃, ran, speaks₃, ahead, emits, valid, codes⟩ :=
    returnStatement_returns fits (by omega) (speaks.of_reads reads₂) ahead
  have past₃ : Past (.rightBrace :: rest) s₃.tokens := Or.inr ahead
  obtain ⟨last, s', closed, close, ahead⟩ := nextPastBreaks_sees (by decide) past₃
  have reads₃ := (nextPastBreaks_reads closed).1
  have whole := (reads₂.emits.trans emits).then_reads reads₃
  obtain ⟨y, scope⟩ := Option.isSome_iff_exists.mp (speaks₃.of_reads reads₃).scope
  have grown := whole.grows.scope
  rw [scope] at grown
  obtain ⟨grown⟩ := grown
  have labels : y.labels = [] := by
    have same := congrArg Prod.fst whole.marks
    rw [marks_of_scope scope, marks_of_scope (x := x) rfl] at same
    exact same.trans fresh.labels
  have codes' := codes.mono reads₃.emits.grows.naming
  rw [naming_of_scope scope] at codes'
  refine ⟨s', y, [.plain (.returnValue ts)], ?_, ahead, (speaks₃.of_reads reads₃).toReady,
    scope, ?_, grown, ?_, ts, rfl, codes'⟩
  · obtain ⟨n, budget⟩ : ∃ n, σ.budget = n + 2 := ⟨σ.budget - 2, by omega⟩
    have kind : brace.kind = .leftBrace := open_.1
    have started : word.kind = .keyword .return_ := read.1
    have ended : last.kind = .rightBrace := close.1
    rw [functionBody, bind_ok _ opened, if_pos kind, get_bind, (speaks.of_reads reads₁).budget,
      budget, blockBody, bind_ok _ (flush_none past.errors), bind_ok _ taken, started]
    have stated : statement (n + 2) word s₂ = .ok () s₃ := by
      rw [statement, started]
      exact ran
    refine (bind_ok _ (recover_of_ok stated)).trans ?_
    rw [blockBody, bind_ok _ (flush_none past₃.errors), bind_ok _ closed, ended]
    rfl
  · rw [Scope.unboundLabels, labels]
    rfl
  · exact (fresh.tracks (s := { s with scope := some x }) rfl).append_plain whole
      (valid.mono reads₃.emits.grows.within)

theorem place?_of_find? {α : Type} {table : NameTable α} {name : String} {entry : α}
    (found : table.find? name = some entry) :
    ∃ i, table.place? name = some i ∧ table.entries[i]? = some entry := by
  induction table with
  | nil => cases found
  | cons pair rest ih =>
    obtain ⟨key, first⟩ := pair
    rw [NameTable.find?] at found
    rw [NameTable.place?, List.findIdx?_cons]
    by_cases same : (key == name) = true
    · simp only [same, ↓reduceIte] at found ⊢
      exact ⟨0, rfl, found⟩
    · simp only [same, Bool.false_eq_true, ↓reduceIte] at found ⊢
      obtain ⟨i, placed, there⟩ := ih found
      exact ⟨i + 1, Option.map_eq_some_iff.mpr ⟨i, placed, rfl⟩, there⟩

theorem offeredBy_of_find? {h : Function} (found : registry.functions.find? f = some h) :
    ∃ i, (offeredBy registry).place? f = some i ∧
      (offeredBy registry).entries[i]? = some (.offered h) := by
  obtain ⟨i, placed, entry⟩ := place?_of_find? found
  refine ⟨i, ?_, ?_⟩
  · rw [place?_eq] at placed ⊢
    rwa [offeredBy, List.map_map]
  · rw [NameTable.entries, List.getElem?_map, Option.map_eq_some_iff] at entry
    obtain ⟨pair, there, rfl⟩ := entry
    rw [NameTable.entries, offeredBy, List.map_map, List.getElem?_map, there]
    rfl

theorem resolve?_parameter {y : Scope} (given : y.parameters = d.parameters) {x : String}
    (member : x ∈ d.parameters) : y.resolve? x = some (d.slot x) := by
  obtain ⟨i, found⟩ : ∃ i, d.parameters.idxOf? x = some i := by
    rw [← Option.isSome_iff_exists, List.isSome_idxOf?]
    exact member
  have place : d.parameters.idxOf x = i := by
    rw [List.idxOf?, List.findIdx?_eq_some_iff_findIdx_eq] at found
    exact found.2
  simp only [Scope.resolve?, given, found, Definition.slot, place]

def signature (registry : Registry) (ds : List Definition) : Signature where
  functions := ds.map fun d => (d.name, d.parameters.length)
  registered := registry.functions.map (·.1) ++ registry.constants.map (·.1)

def setting (registry : Registry) (ds : List Definition) (d : Definition) (budget : Nat) :
    Setting where
  signature := signature registry ds
  words := vocabulary registry ds d
  budget := budget

theorem speaks_of_ready {budget : Nat} (given : x.parameters = d.parameters)
    (ready : Ready (signature registry ds) budget s)
    (offering : Offering (offeredBy registry) s.functions) :
    Speaks (setting registry ds d budget) { s with scope := some x } where
  toInside := ⟨ready.of_tables rfl rfl rfl rfl rfl, rfl⟩
  slots x known := Or.inl ⟨_, resolve?_parameter given (List.contains_iff_mem.mp known)⟩
  callees f n known := by
    simp only [setting, vocabulary, Bool.or_eq_true, Bool.and_eq_true, beq_iff_eq,
      Bool.not_eq_true'] at known
    rcases known with own | ⟨⟨_, other⟩, offered⟩
    · exact Or.inl own
    · obtain ⟨h, found, admits⟩ := offers_iff.mp offered
      obtain ⟨i, placed, entry⟩ := offeredBy_of_find? found
      obtain ⟨there, entry⟩ := offering f i h placed entry
      refine Or.inr ⟨?_, i, h, there, entry, admits⟩
      simp [functionKey, other]

def Definition.blueprint (d : Definition) : Blueprint where
  name := d.name
  parameters := d.parameters
  body := d.bodyLexemes
  code := Returns d.result

theorem sourced_of_proper (proper : Proper registry ds) :
    Planned (signature registry ds) registry (ds.map Definition.blueprint) where
  registered := rfl
  own f n known := by
    obtain ⟨d, member, rfl, _⟩ := mem_of_lookup known
    have fits := proper.definitions d member
    exact ⟨fits.name.2, fits.free⟩
  listed f n known := by
    obtain ⟨d, member, same, count⟩ := mem_of_lookup known
    exact ⟨d.blueprint, List.mem_map_of_mem member, same, count⟩
  upcoming b member budget small := by
    obtain ⟨d, there, rfl⟩ := List.mem_map.mp member
    have fits := proper.definitions d there
    refine ⟨fun x given => (fits.parameters x given).2, fits.distinct,
      lookup_of_mem proper.distinct there, small, ?_, ?_⟩
    · rintro r r' start row within ⟨ts, rfl, codes⟩
      exact ⟨ts, rfl, codes.mono within⟩
    · intro s x place rest ready offering fresh given ahead
      simp only [Blueprint.lexemes, Definition.blueprint, List.length_cons,
        List.length_append] at small
      exact functionBody_returns (σ := setting registry ds d budget) fits.result
        (show d.bodyLexemes.length ≤ budget by omega) (speaks_of_ready given ready offering)
        fresh ahead
  distinct := by
    rw [List.map_map]
    exact proper.distinct
  entry := by
    obtain ⟨d, member, main⟩ := List.mem_map.mp proper.entry
    exact ⟨d.blueprint, List.mem_map_of_mem member, main⟩
  legible b member l inside := by
    obtain ⟨d, there, rfl⟩ := List.mem_map.mp member
    exact proper.legible there l inside

theorem blueprints_text (ds : List Definition) :
    blueprintText (ds.map Definition.blueprint) = text ds := by
  rw [blueprintText, List.flatMap_map]
  rfl

def returnWords (ts : List Term) : List UInt32 :=
  Opcode.returnValue.word :: .ofNat ts.length :: termsWords ts

/-- Sources of such functions compile. The code of a function is the return statement with its
expression in postfix order, and the return at the end of every body. -/
theorem compile_postorder (host : Registry) (options : Options) (ds : List Definition)
    (proper : Proper (options.registry host) ds) (short : (text ds).length < 2 ^ 32) :
    ∃ (p : Program) (place : String → Nat), compile host options (text ds) = .ok p ∧
      (∀ f h, (options.registry host).functions.find? f = some h → p.functions[place f]? = some h) ∧
      ∀ d ∈ ds, ∃ (start : Nat) (locals : UInt32),
        p.functions[place d.name]? =
          some (.user ⟨d.name, .ofNat start, locals, .ofNat d.parameters.length⟩) ∧
        Holds p.words start (returnWords (d.result.postorder d.slot place) ++ returnWords []) := by
  rw [← blueprints_text] at short ⊢
  obtain ⟨p, places, compiled, _, built, offered⟩ :=
    compile_blueprints (sourced_of_proper proper) short
  refine ⟨p, fun f => (places f).getD 0, compiled, fun f h found => ?_, fun d member => ?_⟩
  · obtain ⟨i, placed, entry⟩ := offeredBy_of_find? found
    obtain ⟨there, entry⟩ := offered f i h placed entry
    simp only [there, Option.getD_some, entry]
  · obtain ⟨place, start, y, row, built⟩ := built d.blueprint (List.mem_map_of_mem member)
    obtain ⟨ts, rfl, codes⟩ := built.code
    have placed : places d.name = some place := built.placed
    have ordered : ts = d.result.postorder d.slot fun f => (places f).getD 0 := by
      refine codes.postorder (fun x a known slot => ?_) (fun f i place => ?_)
        (proper.definitions d member).result
      · have found := resolve?_parameter built.parameters (List.contains_iff_mem.mp known)
        exact Option.some.inj (found.symm.trans slot)
      · change places f = some i at place
        rw [place, Option.getD_some]
    refine ⟨start, .ofNat y.locals.length, ?_, ?_⟩
    · simp only [placed, Option.getD_some, built.entry]
      rfl
    · have holds := built.holds
      rw [← ordered]
      simpa [rowWords, Statement.words, Statement.final, Plain.words, Plain.front, Plain.parts,
        returnWords, partsWords, termsWords] using holds

def pathAndPower : List Definition :=
  [⟨"Main", [], .call "F" [.items [], .items []]⟩,
    ⟨"F", ["a", "b"], .binary (.logical .or)
      (.unary .not (.binary (.relation .less) (.var "a")
        (.unary .negate (.binary .power (.var "a") (.unary .negate (.var "b"))))))
      (.binary (.arithmetic .multiply) (.binary (.arithmetic .subtract) (.var "a") (.var "b"))
        (.element "b" (.call "h" [.items [.var "a"]]) [.call "F" [.var "b", .var "a"]]))⟩]

theorem compile_postorder_pathAndPower :
    text pathAndPower = "Main ( ) \x7b \n return F ( \x7b \x7d , \x7b \x7d ) \n \x7d \n " ++
        "F ( a , b ) \x7b \n return not a < - a ^ - b or ( a - b ) * " ++
        "b [ h ( \x7b a \x7d ) ] [ F ( b , a ) ] \n \x7d \n " ∧
      ∃ (p : Program) (h f start : Nat) (locals : UInt32),
        compile (Registry.empty.addHost "h" (.atLeast 1)) ⟨45, true, false, []⟩
          (text pathAndPower) = .ok p ∧ p.functions[h]? = some (.host "h" (.atLeast 1)) ∧
          p.functions[f]? = some (.user ⟨"F", .ofNat start, locals, 2⟩) ∧
          Holds p.words start (returnWords [.load ⟨.parameters, 0⟩, .load ⟨.parameters, 0⟩,
              .load ⟨.parameters, 1⟩, .unary .negate, .binary .power, .unary .negate,
              .binary (.relation .less), .unary .not, .load ⟨.parameters, 0⟩,
              .load ⟨.parameters, 1⟩, .binary (.arithmetic .subtract),
              .compound (.element ⟨.parameters, 1⟩)
                [[.compound (.call h) [[.compound .items [[.load ⟨.parameters, 0⟩]]]]],
                  [.compound (.call f) [[.load ⟨.parameters, 1⟩], [.load ⟨.parameters, 0⟩]]]],
              .binary (.arithmetic .multiply), .binary (.logical .or)] ++ returnWords []) := by
  refine ⟨by decide +kernel, ?_⟩
  obtain ⟨p, place, compiled, host, own⟩ :=
    compile_postorder (Registry.empty.addHost "h" (.atLeast 1)) ⟨45, true, false, []⟩ pathAndPower
      (by decide +kernel) (by decide +kernel)
  obtain ⟨start, locals, entry, holds⟩ := own _ (List.mem_cons_of_mem _ List.mem_cons_self)
  refine ⟨p, place "h", place "F", start, locals, compiled, host "h" _ rfl, entry, ?_⟩
  exact holds

end Scriptlet.Formula
