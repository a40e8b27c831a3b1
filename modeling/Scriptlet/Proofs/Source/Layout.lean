import Scriptlet.Proofs.Script.Coding
import Scriptlet.Proofs.Source.Grammar

/-!
Where the jumps of a source go. A statement at an address is translated into a row of code, and
every jump in it has the target that its construct says: the end of a branch or of its first block,
the end of a loop, its next round, the test where a round starts, or a label by its name. Labels
take no room; each stands for the address of what comes next.

A whole source is a row of functions one behind the other, each with its own labels and with the
return that ends it.
-/
namespace Scriptlet.Grammar

open Code Script

abbrev Bindings := List (String × Nat)

mutual

/-- The statement between two places of the source is translated into the row. -/
inductive Translates :
    Exits → Nat → List Token → List Token → List Statement → Bindings → Prop where
  | simple {exits : Exits} {start : Nat} {ts us : List Token} (ps : List Plain) : Simple ts us →
      Translates exits start ts us (ps.map .plain) []
  | label {exits : Exits} {start : Nat} {name : String} {ts us vs : List Token} : Name name ts us →
      Mark .colon us vs → Translates exits start ts vs [] [(name, start)]
  | goto {exits : Exits} {start : Nat} {name : String} {ts us vs : List Token} :
      Mark (.keyword .goto) ts us → Name name us vs →
      Translates exits start ts vs [.jump (.label name)] []
  | break_ {leave again : Target} {start : Nat} {ts us : List Token} :
      Mark (.keyword .break_) ts us → Translates (some (leave, again)) start ts us [.jump leave] []
  | continue_ {leave again : Target} {start : Nat} {ts us : List Token} :
      Mark (.keyword .continue_) ts us →
      Translates (some (leave, again)) start ts us [.jump again] []
  | block {exits : Exits} {start : Nat} {ts us vs : List Token} {row : List Statement}
      {labels : Bindings} : Mark .leftBrace ts us → TranslatesAll exits start us vs row labels →
      Translates exits start ts vs row labels
  | if_ {exits : Exits} {start finish : Nat} {test : List Term} {row : List Statement}
      {labels : Bindings} {ts us vs ws xs ys : List Token} : Mark (.keyword .if_) ts us →
      Formula us vs → Breaks vs ws → Translates exits (start + testSize test) ws xs row labels →
      Breaks xs ys → (∀ t ∈ ys.head?, t.kind ≠ .keyword .else_) →
      finish = start + testSize test + rowSize row →
      Translates exits start ts ys (.jumpIfFalse (.ip finish) test :: row) labels
  | ifElse {exits : Exits} {start middle finish : Nat} {test : List Term}
      {row other : List Statement} {labels others : Bindings}
      {ts us vs ws xs ys zs ts' us' : List Token} :
      Mark (.keyword .if_) ts us → Formula us vs → Breaks vs ws →
      Translates exits (start + testSize test) ws xs row labels → Breaks xs ys →
      Mark (.keyword .else_) ys zs → Breaks zs ts' → Translates exits middle ts' us' other others →
      middle = start + testSize test + rowSize row + 2 → finish = middle + rowSize other →
      Translates exits start ts us'
        (.jumpIfFalse (.ip middle) test :: (row ++ .jump (.ip finish) :: other)) (labels ++ others)
  | while_ {exits : Exits} {start finish : Nat} {test : List Term} {row : List Statement}
      {labels : Bindings} {ts us vs ws xs : List Token} : Mark (.keyword .while_) ts us →
      Formula us vs → Breaks vs ws →
      Translates (some (.ip finish, .ip start)) (start + testSize test) ws xs row labels →
      finish = start + testSize test + rowSize row + 2 →
      Translates exits start ts xs
        (.jumpIfFalse (.ip finish) test :: (row ++ [.jump (.ip start)])) labels
  /-- The counter gets its first value, and each round starts with a test and ends with a step. -/
  | for_ {exits : Exits} {start round again finish place : Nat} {counter : Address}
      {first limit : List Term} {op : Relation} {row : List Statement} {labels : Bindings}
      {ts us vs ws xs ys zs ts' us' vs' : List Token} : Mark (.keyword .for_) ts us →
      Mark .symbol us vs → Mark .equal vs ws → Formula ws xs → Mark (.keyword .to) xs ys →
      Formula ys zs → StepSize zs ts' → Breaks ts' us' →
      Translates (some (.ip finish, .ip again)) (round + testSize (limitTest counter limit op))
        us' vs' row labels →
      round = start + (Statement.plain (.assign counter first)).size →
      again = round + testSize (limitTest counter limit op) + rowSize row →
      finish = again + (Statement.plain (increment counter place)).size + 2 →
      Translates exits start ts vs'
        (.plain (.assign counter first) :: .jumpIfFalse (.ip finish) (limitTest counter limit op) ::
          (row ++ [.plain (increment counter place), .jump (.ip round)])) labels

inductive TranslatesAll :
    Exits → Nat → List Token → List Token → List Statement → Bindings → Prop where
  | nil {exits : Exits} {start : Nat} {ts us vs : List Token} : Breaks ts us →
      Mark .rightBrace us vs → TranslatesAll exits start ts vs [] []
  | cons {exits : Exits} {start : Nat} {ts us vs ws : List Token} {row more : List Statement}
      {labels others : Bindings} : Breaks ts us → Translates exits start us vs row labels →
      TranslatesAll exits (start + rowSize row) vs ws more others →
      TranslatesAll exits start ts ws (row ++ more) (labels ++ others)

end

mutual

theorem Translates.resolve {t : Target} (open_ : t.isOpen = true)
    (nameless : ∀ name, t ≠ .label name) (address : Nat) {exits : Exits} {start : Nat}
    {ts us : List Token} {row : List Statement} {labels : Bindings} :
    Translates exits start ts us row labels →
      Translates (exits.resolve t address) start ts us (resolveRow t address row) labels
  | .simple ps phrase => by
    have same : resolveRow t address (ps.map .plain) = ps.map .plain := by
      simp [resolveRow, Statement.retarget]
    rw [same]
    exact .simple ps phrase
  | .label name colon => .label name colon
  | .goto keyword name => by
    rw [resolveRow_other (nameless _).symm]
    exact .goto keyword name
  | .break_ keyword => .break_ keyword
  | .continue_ keyword => .continue_ keyword
  | .block brace body => .block brace (body.resolve open_ nameless address)
  | .if_ keyword test breaks yes behind other at_ => by
    rw [resolveRow_branch open_]
    exact .if_ keyword test breaks (yes.resolve open_ nameless address) behind other
      (by rwa [rowSize_resolveRow])
  | .ifElse keyword test breaks yes behind else_ breaks' no at_ at_' => by
    rw [resolveRow_branch open_, resolveRow_append, resolveRow_back open_]
    exact .ifElse keyword test breaks (yes.resolve open_ nameless address) behind else_ breaks'
      (no.resolve open_ nameless address) (by rwa [rowSize_resolveRow])
      (by rwa [rowSize_resolveRow])
  | .while_ keyword test breaks body at_ => by
    have inner := body.resolve open_ nameless address
    rw [Exits.resolve_ip open_] at inner
    rw [resolveRow_branch open_, resolveRow_append, resolveRow_back open_]
    exact .while_ keyword test breaks inner (by rwa [rowSize_resolveRow])
  | .for_ keyword name equal first until_ limit step breaks body at_ at_' at_'' => by
    have inner := body.resolve open_ nameless address
    rw [Exits.resolve_ip open_] at inner
    rw [resolveRow_cons, Statement.retarget, resolveRow_branch open_, resolveRow_append,
      resolveRow_cons, Statement.retarget, resolveRow_back open_]
    exact .for_ keyword name equal first until_ limit step breaks inner at_
      (by rwa [rowSize_resolveRow]) at_''

theorem TranslatesAll.resolve {t : Target} (open_ : t.isOpen = true)
    (nameless : ∀ name, t ≠ .label name) (address : Nat) {exits : Exits} {start : Nat}
    {ts us : List Token} {row : List Statement} {labels : Bindings} :
    TranslatesAll exits start ts us row labels →
      TranslatesAll (exits.resolve t address) start ts us (resolveRow t address row) labels
  | .nil breaks brace => .nil breaks brace
  | .cons breaks first rest => by
    rw [resolveRow_append]
    exact .cons breaks (first.resolve open_ nameless address)
      (by rw [rowSize_resolveRow]; exact rest.resolve open_ nameless address)

end

mutual

theorem Translates.suffix {exits : Exits} {start : Nat} {ts us : List Token} {row : List Statement}
    {labels : Bindings} : Translates exits start ts us row labels → us <:+ ts
  | .simple _ phrase => phrase.suffix
  | .label name colon => colon.suffix.trans name.mark.suffix
  | .goto keyword name => name.mark.suffix.trans keyword.suffix
  | .break_ keyword => keyword.suffix
  | .continue_ keyword => keyword.suffix
  | .block left body => body.suffix.trans left.suffix
  | .if_ keyword test breaks yes behind _ _ =>
    behind.suffix.trans (yes.suffix.trans (breaks.suffix.trans (test.suffix.trans keyword.suffix)))
  | .ifElse keyword test breaks yes behind else_ breaks' no _ _ =>
    no.suffix.trans (breaks'.suffix.trans (else_.suffix.trans (behind.suffix.trans
      (yes.suffix.trans (breaks.suffix.trans (test.suffix.trans keyword.suffix))))))
  | .while_ keyword test breaks body _ =>
    body.suffix.trans (breaks.suffix.trans (test.suffix.trans keyword.suffix))
  | .for_ keyword name equal first until_ limit step breaks body _ _ _ =>
    body.suffix.trans
      (breaks.suffix.trans
        (step.suffix.trans
          (limit.suffix.trans
            (until_.suffix.trans
              (first.suffix.trans (equal.suffix.trans (name.suffix.trans keyword.suffix)))))))

theorem TranslatesAll.suffix {exits : Exits} {start : Nat} {ts us : List Token}
    {row : List Statement} {labels : Bindings} :
    TranslatesAll exits start ts us row labels → us <:+ ts
  | .nil breaks brace => brace.suffix.trans breaks.suffix
  | .cons breaks first rest => rest.suffix.trans (first.suffix.trans breaks.suffix)

end

theorem TranslatesAll.closing {exits : Exits} {start : Nat} {ts us : List Token}
    {row : List Statement} {labels : Bindings} : TranslatesAll exits start ts us row labels →
      ∃ t, t.kind = .rightBrace ∧ t :: us <:+ ts
  | .nil breaks ⟨t, kind, same⟩ => ⟨t, kind, same ▸ breaks.suffix⟩
  | .cons breaks first rest => by
    obtain ⟨t, kind, behind⟩ := rest.closing
    exact ⟨t, kind, behind.trans (first.suffix.trans breaks.suffix)⟩

/-- A function of the source: its name, its entry, its code and its labels. -/
structure Outline where
  name : String
  start : Nat
  row : List Statement
  labels : Bindings

def Bindings.settle (labels : Bindings) : Target → Target
  | .label name => ((labels.lookup name).map .ip).getD (.label name)
  | t => t

def Outline.code (o : Outline) : List Statement := o.row ++ [Statement.final]

def Outline.words (o : Outline) : List UInt32 :=
  rowWords (fun t => (o.labels.settle t).word) o.code

/-- Every label stands for one place, and every jump goes to the start of a statement of the
function. -/
structure Outline.Closed (o : Outline) : Prop where
  distinct : (o.labels.map (·.1)).Nodup
  targets : ∀ x ∈ o.row, ∀ t, x.target? = some t → ∃ before y after,
    o.code = before ++ y :: after ∧ o.labels.settle t = .ip (o.start + rowSize before)

/-- A source is translated into functions, the first of them at an address. -/
inductive Source : Nat → List Token → List Outline → Prop where
  | nil {start : Nat} {ts : List Token} : Breaks ts [] → Source start ts []
  | variables {start : Nat} {ts us vs ws : List Token} {os : List Outline} : Breaks ts us →
      Mark (.keyword .var) us vs → Globals vs ws → Source start ws os → Source start ts os
  | function {o : Outline} {ts us vs ws xs ys zs : List Token} {os : List Outline} : Breaks ts us →
      Name o.name us vs → ParameterList vs ws → Breaks ws xs → Mark .leftBrace xs ys →
      TranslatesAll none o.start ys zs o.row o.labels →
      Source (o.start + rowSize o.code) zs os → Source o.start ts (o :: os)

end Scriptlet.Grammar
