import Scriptlet.Proofs.Script.Blueprints
import Scriptlet.Proofs.Script.Loops

/-!
Whole scripts compile, and the program represents the script: where the entry of a definition points
to, there is the code of its body.
-/
namespace Scriptlet.Script

open Compile

def Definition.blueprint (d : Definition) : Blueprint where
  name := d.name
  parameters := d.parameters
  body := lineLexemes d.body
  code r start row := LiesAll r none start d.body row

def blueprints (s : Script) : List Blueprint := s.definitions.map Definition.blueprint

theorem blueprints_text (s : Script) : blueprintText s.blueprints = s.text := by
  rw [blueprintText, blueprints, List.flatMap_map]
  rfl

section Legible

variable {g : Signature} {registry : Registry}

theorem Signature.Named.words (named : g.Named) (budget : Nat) : (setting g budget).words.Named :=
  ⟨fun _ var => isName_of_isVariable var, fun f n known => named f n (eq_of_beq known)⟩

theorem Expr.lexemes_legible (named : g.Named) (e : Expr) (fits : e.fits g = true) :
    ∀ l ∈ e.lexemes, l.Legible := by
  rw [← e.formula_lexemes]
  exact e.formula.lexemes_legible (named.words 0) (e.formula_fits fits)

theorem argumentLexemes_legible (named : g.Named) (es : List Expr) (fits : allFit g es = true) :
    ∀ l ∈ argumentLexemes es, l.Legible := by
  rw [← formulas_lexemes]
  exact Formula.itemLexemes_legible (named.words 0) rightParen_legible (formulas es)
    (formulas_fit es fits)

theorem Step.lexemes_legible (step : Step) : ∀ l ∈ step.lexemes, l.Legible := by
  simp only [Step.lexemes, List.forall_mem_cons, List.forall_mem_append]
  refine ⟨keyword_legible _, ?_, number_legible _, by simp⟩
  split
  · simpa using minus_legible
  · simp

mutual

theorem Stmt.lexemes_legible (named : g.Named) :
    (s : Stmt) → (inLoop : Bool) → s.fits g inLoop = true → ∀ l ∈ s.lexemes, l.Legible
  | .assign x value, _, fits => by
    simp only [Stmt.fits, Bool.and_eq_true] at fits
    simp only [Stmt.lexemes, List.forall_mem_cons]
    exact ⟨name_legible (isName_of_isVariable fits.1), equal_legible,
      value.lexemes_legible named fits.2⟩
  | .call f arguments, _, fits => by
    simp only [Stmt.fits, Bool.and_eq_true, beq_iff_eq] at fits
    simp only [Stmt.lexemes, List.forall_mem_cons]
    exact ⟨name_legible (named f _ fits.1), leftParen_legible,
      argumentLexemes_legible named arguments fits.2⟩
  | .if_ test yes, inLoop, fits => by
    simp only [Stmt.fits, Bool.and_eq_true] at fits
    simp only [Stmt.lexemes, List.forall_mem_cons, List.forall_mem_append]
    exact ⟨keyword_legible _, test.lexemes_legible named fits.1, leftBrace_legible,
      lineBreak_legible, lineLexemes_legible named yes inLoop fits.2⟩
  | .ifElse test yes no, inLoop, fits => by
    simp only [Stmt.fits, Bool.and_eq_true] at fits
    simp only [Stmt.lexemes, List.forall_mem_cons, List.forall_mem_append]
    exact ⟨keyword_legible _, test.lexemes_legible named fits.1.1, leftBrace_legible,
      lineBreak_legible, lineLexemes_legible named yes inLoop fits.1.2, keyword_legible _,
      leftBrace_legible, lineBreak_legible, lineLexemes_legible named no inLoop fits.2⟩
  | .while_ test body, _, fits => by
    simp only [Stmt.fits, Bool.and_eq_true] at fits
    simp only [Stmt.lexemes, List.forall_mem_cons, List.forall_mem_append]
    exact ⟨keyword_legible _, test.lexemes_legible named fits.1, leftBrace_legible,
      lineBreak_legible, lineLexemes_legible named body true fits.2⟩
  | .for_ counter first limit step body, _, fits => by
    simp only [Stmt.fits, Bool.and_eq_true] at fits
    simp only [Stmt.lexemes, List.forall_mem_cons, List.forall_mem_append]
    exact ⟨keyword_legible _, name_legible (isName_of_isVariable fits.1.1.1), equal_legible,
      first.lexemes_legible named fits.1.1.2, keyword_legible _,
      limit.lexemes_legible named fits.1.2, step.lexemes_legible, leftBrace_legible,
      lineBreak_legible, lineLexemes_legible named body true fits.2⟩
  | .break_, _, _ => by
    rw [Stmt.lexemes, List.forall_mem_singleton]
    exact keyword_legible _
  | .continue_, _, _ => by
    rw [Stmt.lexemes, List.forall_mem_singleton]
    exact keyword_legible _
  | .return_, _, _ => by
    rw [Stmt.lexemes, List.forall_mem_singleton]
    exact keyword_legible _
  | .returnValue value, _, fits => by
    simp only [Stmt.fits] at fits
    simp only [Stmt.lexemes, List.forall_mem_cons]
    exact ⟨keyword_legible _, value.lexemes_legible named fits⟩

theorem lineLexemes_legible (named : g.Named) :
    (ss : List Stmt) → (inLoop : Bool) → blockFits g inLoop ss = true →
    ∀ l ∈ lineLexemes ss, l.Legible
  | [], _, _ => by
    rw [lineLexemes, List.forall_mem_singleton]
    exact rightBrace_legible
  | s :: rest, inLoop, fits => by
    simp only [blockFits, Bool.and_eq_true] at fits
    simp only [lineLexemes, List.forall_mem_cons, List.forall_mem_append]
    exact ⟨s.lexemes_legible named inLoop fits.1, lineBreak_legible,
      lineLexemes_legible named rest inLoop fits.2⟩

end

theorem Proper.legible {s : Script} (proper : s.Proper registry) : ∀ l ∈ s.lexemes, l.Legible := by
  intro l member
  obtain ⟨d, defined, inside⟩ := List.mem_flatMap.mp member
  have fits := proper.definitions d defined
  have function := fits.name
  simp only [Signature.isFunction, Bool.and_eq_true] at function
  have all : ∀ l ∈ d.lexemes, l.Legible := by
    simp only [Definition.lexemes, List.forall_mem_cons, List.forall_mem_append]
    exact ⟨name_legible function.1.1, leftParen_legible,
      parameterLexemes_legible fun x given => isName_of_isVariable (fits.parameters x given),
      leftBrace_legible, lineBreak_legible,
      lineLexemes_legible proper.named _ _ fits.body,
      lineBreak_legible, by simp⟩
  exact all l inside

end Legible

end Scriptlet.Script

namespace Scriptlet.Compile

open Actions Code Script

variable {s s' t : Session} {g : Signature} {budget limit : Nat} {rest : List Lexeme}
  {ss : List Stmt} {d : Definition} {place : Nat}

theorem functionBody_bodied (fits : blockFits g false ss = true)
    (small : (lineLexemes ss).length ≤ budget) (inside : Inside g budget s)
    (ahead : Ahead (.leftBrace :: .lineBreak :: (lineLexemes ss ++ rest)) s.tokens) :
    Compiles g budget functionBody s rest (LiesAll · · · ss ·) := by
  obtain ⟨tok, s₁, taken, read, ahead⟩ := nextPastBreaks_sees (by decide) (Or.inl ahead)
  have reads := (nextPastBreaks_reads taken).1
  obtain ⟨s', ran, ahead, body⟩ := blockBody_bodied (statement_states budget (Nat.le_refl _)) budget
    ss false s₁ rest fits (by simp) small small (inside.of_reads reads) (Or.inr ahead)
  refine ⟨s', ?_, ahead, body.of_reads reads⟩
  have brace : tok.kind = .leftBrace := read.1
  rw [functionBody, bind_ok _ taken, if_pos brace, get_bind, (inside.of_reads reads).budget, ran]

theorem functionBody_whole {x : Scope} (fits : blockFits g false ss = true)
    (small : (lineLexemes ss).length ≤ budget) (ready : Ready g budget s)
    (fresh : Fresh (some place) s.writer.ip x)
    (ahead : Ahead (.leftBrace :: .lineBreak :: (lineLexemes ss ++ rest)) s.tokens) :
    ∃ s' y row, functionBody { s with scope := some x } = .ok () s' ∧
      Bodywork g budget (fun r start row => LiesAll r none start ss row) s s' rest x y row := by
  have inside : Inside g budget { s with scope := some x } :=
    ⟨ready.of_tables rfl rfl rfl rfl rfl, rfl⟩
  obtain ⟨s', ran, ahead, body⟩ := functionBody_bodied fits small inside ahead
  obtain ⟨y, scope⟩ := Option.isSome_iff_exists.mp body.inside.scope
  have grown := body.grows.scope
  rw [scope] at grown
  obtain ⟨grown⟩ := grown
  have labels : y.labels = [] := by
    have same := body.labels
    rw [marks_of_scope scope, marks_of_scope (x := x) rfl] at same
    exact same.trans fresh.labels
  have start : Traces s.words [] { s with scope := some x } [] :=
    (fresh.tracks (s := { s with scope := some x }) rfl :)
  obtain ⟨row, _, traces, _, lies⟩ := body.lays start
  have tracks : Tracks s.words [] s' row := by
    rw [Traces, settle_unlabelled (by rw [marks_of_scope scope, labels])] at traces
    exact traces
  have outside : Session.exits { s with scope := some x } = none := by
    rw [Session.exits, Session.rounds, marks_of_scope (x := x) rfl, fresh.loops]
    rfl
  rw [outside, naming_of_scope scope] at lies
  refine ⟨s', y, row, ran, ahead, body.inside.toReady, scope, ?_, grown, tracks, lies⟩
  rw [Scope.unboundLabels, labels]
  rfl

variable {script : Script} {registry : Registry}

theorem upcoming_of_fits {base : NameTable Callee} (fits : d.Fits g)
    (known : g.functions.lookup d.name = some d.parameters.length)
    (small : d.blueprint.lexemes.length ≤ budget) :
    Upcoming g base budget d.blueprint where
  parameters x given := isMain_of_isVariable (fits.parameters x given)
  distinct := fits.distinct
  known := known
  small := small
  mono _ _ _ _ within lies := lies.mono within
  body s x place rest ready _ fresh _ ahead := by
    simp only [Blueprint.lexemes, List.length_cons, List.length_append] at small
    exact functionBody_whole fits.body (by simp only [Definition.blueprint] at small; omega)
      ready fresh ahead

theorem sourced_of_proper (proper : script.Proper registry) :
    Planned (script.signature registry) registry script.blueprints where
  registered := rfl
  own f n known := by
    obtain ⟨d, member, rfl, _⟩ := lookup_definition known
    have name := (proper.definitions d member).name
    simp only [Signature.isFunction, Bool.and_eq_true, Bool.not_eq_true', List.contains_eq_mem,
      decide_eq_false_iff_not] at name
    exact ⟨name.1.2, fun registered => name.2 (List.mem_append_left _ registered)⟩
  listed f n known := by
    obtain ⟨d, member, same, count⟩ := lookup_definition known
    exact ⟨d.blueprint, List.mem_map_of_mem member, same, count⟩
  upcoming b member budget small := by
    obtain ⟨d, there, rfl⟩ := List.mem_map.mp member
    exact upcoming_of_fits (proper.definitions d there)
      (lookup_of_mem proper.distinct there) small
  distinct := by
    rw [blueprints, List.map_map]
    exact proper.distinct
  entry := by
    obtain ⟨d, member, main, _⟩ := proper.entry
    exact ⟨d.blueprint, List.mem_map_of_mem member, main⟩
  legible b member l inside := by
    obtain ⟨d, there, rfl⟩ := List.mem_map.mp member
    exact proper.legible l (List.mem_flatMap.mpr ⟨d, there, inside⟩)

structure Present (p : Program) (places : String → Option Nat) (d : Definition) (f : UserFunction)
    (y : Scope) (row : List Statement) : Prop where
  placed : ∃ i, places d.name = some i ∧ p.functions[i]? = some (.user f)
  given : y.parameters = d.parameters
  parameters : f.parameters.toNat = y.parameters.length
  locals : f.locals.toNat = y.locals.length
  few : y.parameters.length < 2 ^ 28 ∧ y.locals.length < 2 ^ 28
  holds : Holds p.words f.ip.toNat (rowWords Target.word (row ++ [Statement.final]))
  lies : LiesAll (programNaming p places y) none f.ip.toNat d.body row

/-- A program with a function for every definition of a script. -/
structure Represents (p : Program) (places : String → Option Nat) (script : Script) : Prop where
  entry : ∃ i more, places "Main" = some i ∧
    p.words.toList = rowWords Target.word ([.plain (.call i [])] ++ [Statement.final]) ++ more
  present : ∀ d ∈ script.definitions, ∃ f y row, Present p places d f y row

theorem Built.present {p : Program} {places : String → Option Nat} {start : Nat} {y : Scope}
    {row : List Statement} (built : Built limit p places d.blueprint place start y row)
    (short : limit < 2 ^ 32) (small : p.Small) : ∃ f, Present p places d f y row := by
  have inside := built.holds.le_size
  have size := small.words
  have few := built.few
  have slots : (UInt32.ofNat d.parameters.length).toNat < 2 ^ 28 ∧
      (UInt32.ofNat y.locals.length).toNat < 2 ^ 28 :=
        small.slots _ (Array.mem_of_getElem? built.entry)
  simp only [Definition.blueprint] at few
  rw [toNat_word (by omega), toNat_word (by omega)] at slots
  have at_ : (UInt32.ofNat start).toNat = start := toNat_word (by omega)
  have given : y.parameters = d.parameters := built.parameters
  refine ⟨_, ⟨place, built.placed, built.entry⟩, given, ?_, ?_, ?_, ?_, ?_⟩
  · rw [given]
    exact toNat_word (n := d.parameters.length) (by omega)
  · exact toNat_word (by omega)
  · rw [given]
    exact slots
  · exact at_.symm ▸ built.holds
  · exact at_.symm ▸ built.code

theorem compile_script {host : Registry} {options : Options}
    (proper : script.Proper (options.registry host)) (short : script.text.length < 2 ^ 32) :
    ∃ p places, compile host options script.text = .ok p ∧
    (p.Small → Represents p places script) := by
  rw [← blueprints_text] at short ⊢
  obtain ⟨p, places, compiled, entry, built, _⟩ :=
    compile_blueprints (sourced_of_proper proper) short
  refine ⟨p, places, compiled, fun small => ⟨entry, fun d there => ?_⟩⟩
  obtain ⟨_, _, y, row, built⟩ := built d.blueprint (List.mem_map_of_mem there)
  obtain ⟨f, present⟩ := built.present short small
  exact ⟨f, y, row, present⟩

end Scriptlet.Compile
