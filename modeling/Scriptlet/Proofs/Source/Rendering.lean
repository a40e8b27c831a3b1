import Scriptlet.Proofs.Source.Layout
import Scriptlet.Proofs.Source.Phrases

/-!
Statements and the code of their expressions. A statement is translated so that both hold: every
jump goes where it should, and every expression of the code is that of the source.
-/
namespace Scriptlet.Grammar

open Code Script

variable {pool : Array Value} {exits : Exits} {start : Nat} {row : List Statement}
  {labels : Bindings}

/-- The statement is translated into the row, and so are its expressions. -/
structure Conveys (pool : Array Value) (exits : Exits) (start : Nat) (ts us : List Token)
    (row : List Statement) (labels : Bindings) : Prop where
  translates : Translates exits start ts us row labels
  expresses : ∃ es, Expresses ts us es ∧ RendersAll pool es (rowExpressions row)

structure ConveysAll (pool : Array Value) (exits : Exits) (start : Nat) (ts us : List Token)
    (row : List Statement) (labels : Bindings) : Prop where
  translates : TranslatesAll exits start ts us row labels
  expresses : ∃ es, ExpressesAll ts us es ∧ RendersAll pool es (rowExpressions row)

namespace Conveys

variable {ts us vs ws xs ys : List Token} {finish : Nat} {e : Phrase} {test : List Term}
  {name : String} {leave again : Target} {zs ts' us' : List Token}

theorem simple {ps : List Plain} {es : List Phrase} (phrase : ExpressesSimple ts us es)
    (renders : RendersAll pool es (ps.flatMap Plain.expressions)) :
    Conveys pool exits start ts us (ps.map .plain) [] :=
  ⟨.simple ps phrase.simple, es, .simple phrase, rowExpressions_plain ps ▸ renders⟩

theorem label (named : Name name ts us) (colon : Mark .colon us vs) :
    Conveys pool exits start ts vs [] [(name, start)] :=
  ⟨.label named colon, [], .label named.mark colon, .nil⟩

theorem goto (keyword : Mark (.keyword .goto) ts us) (named : Name name us vs) :
    Conveys pool exits start ts vs [.jump (.label name)] [] :=
  ⟨.goto keyword named, [], .goto keyword named.mark, .nil⟩

theorem break_ (keyword : Mark (.keyword .break_) ts us) :
    Conveys pool (some (leave, again)) start ts us [.jump leave] [] :=
  ⟨.break_ keyword, [], .break_ keyword, .nil⟩

theorem continue_ (keyword : Mark (.keyword .continue_) ts us) :
    Conveys pool (some (leave, again)) start ts us [.jump again] [] :=
  ⟨.continue_ keyword, [], .continue_ keyword, .nil⟩

theorem block (brace : Mark .leftBrace ts us)
    (body : ConveysAll pool exits start us vs row labels) :
    Conveys pool exits start ts vs row labels := by
  obtain ⟨es, expresses, renders⟩ := body.expresses
  exact ⟨.block brace body.translates, es, .block brace expresses, renders⟩

theorem if_ (keyword : Mark (.keyword .if_) ts us) (derives : Derives .choice us vs e)
    (renders : Renders pool e test) (breaks : Breaks vs ws)
    (yes : Conveys pool exits (start + testSize test) ws xs row labels) (behind : Breaks xs ys)
    (other : ∀ t ∈ ys.head?, t.kind ≠ .keyword .else_)
    (at_ : finish = start + testSize test + rowSize row) :
    Conveys pool exits start ts ys (.jumpIfFalse (.ip finish) test :: row) labels := by
  obtain ⟨es, expresses, body⟩ := yes.expresses
  exact ⟨.if_ keyword derives.formula breaks yes.translates behind other at_, e :: es,
    .if_ keyword derives breaks expresses behind other, .cons renders body⟩

theorem ifElse {middle : Nat} {other : List Statement} {others : Bindings}
    (keyword : Mark (.keyword .if_) ts us) (derives : Derives .choice us vs e)
    (renders : Renders pool e test) (breaks : Breaks vs ws)
    (yes : Conveys pool exits (start + testSize test) ws xs row labels) (behind : Breaks xs ys)
    (else_ : Mark (.keyword .else_) ys zs) (breaks' : Breaks zs ts')
    (no : Conveys pool exits middle ts' us' other others)
    (at_ : middle = start + testSize test + rowSize row + 2)
    (at_' : finish = middle + rowSize other) :
    Conveys pool exits start ts us'
      (.jumpIfFalse (.ip middle) test :: (row ++ .jump (.ip finish) :: other))
      (labels ++ others) := by
  obtain ⟨es, expresses, body⟩ := yes.expresses
  obtain ⟨es', expresses', body'⟩ := no.expresses
  refine ⟨.ifElse keyword derives.formula breaks yes.translates behind else_ breaks'
    no.translates at_ at_', e :: es ++ es', .ifElse keyword derives breaks expresses behind else_
    breaks' expresses', ?_⟩
  rw [rowExpressions_cons, rowExpressions_append, rowExpressions_cons]
  exact .cons renders (body.append body')

theorem while_ (keyword : Mark (.keyword .while_) ts us) (derives : Derives .choice us vs e)
    (renders : Renders pool e test) (breaks : Breaks vs ws)
    (round : Conveys pool (some (.ip finish, .ip start)) (start + testSize test) ws xs row labels)
    (at_ : finish = start + testSize test + rowSize row + 2) :
    Conveys pool exits start ts xs (.jumpIfFalse (.ip finish) test :: (row ++ [.jump (.ip start)]))
      labels := by
  obtain ⟨es, expresses, body⟩ := round.expresses
  refine ⟨.while_ keyword derives.formula breaks round.translates at_, e :: es,
    .while_ keyword derives breaks expresses, ?_⟩
  rw [rowExpressions_cons, rowExpressions_append]
  exact .cons renders (by simpa [rowExpressions, Statement.expressions] using body)

theorem for_ {round again place : Nat} {counter : Address} {first limit : List Term} {op : Relation}
    {e' step : Phrase} {vs' : List Token} (keyword : Mark (.keyword .for_) ts us)
    (name : Mark .symbol us vs) (equal : Mark .equal vs ws) (value : Derives .choice ws xs e)
    (renders : Renders pool e first) (until_ : Mark (.keyword .to) xs ys)
    (limited : Derives .choice ys zs e') (renders' : Renders pool e' limit)
    (stepped : ExpressesStep zs ts' step) (size : Renders pool step [.literal place])
    (breaks : Breaks ts' us')
    (body : Conveys pool (some (.ip finish, .ip again))
      (round + testSize (limitTest counter limit op)) us' vs' row labels)
      (at_ : round = start + (Statement.plain (.assign counter first)).size)
    (at_' : again = round + testSize (limitTest counter limit op) + rowSize row)
    (at_'' : finish = again + (Statement.plain (increment counter place)).size + 2) :
    Conveys pool exits start ts vs'
      (.plain (.assign counter first) :: .jumpIfFalse (.ip finish) (limitTest counter limit op) ::
        (row ++ [.plain (increment counter place), .jump (.ip round)])) labels := by
  obtain ⟨es, expresses, inner⟩ := body.expresses
  have test : Renders pool (.binary (.relation op) (.operand []) e') (limitTest counter limit op) :=
    .binary rfl (.load counter) renders'
  have added : Renders pool (.binary (.arithmetic .add) (.operand []) step)
      ([.load counter] ++ [.literal place] ++ [.binary (.arithmetic .add)]) :=
    .binary rfl (.load counter) size
  refine ⟨.for_ keyword name equal value.formula until_ limited.formula stepped.stepSize breaks
    body.translates at_ at_' at_'', _,
    .for_ op keyword name equal value until_ limited stepped breaks expresses, ?_⟩
  rw [rowExpressions_cons, rowExpressions_cons, rowExpressions_append]
  exact .cons renders (.cons test (inner.append (.single added)))

theorem resolve {t : Target} (conveys : Conveys pool exits start ts us row labels)
    (open_ : t.isOpen = true) (nameless : ∀ name, t ≠ .label name) (address : Nat) :
    Conveys pool (exits.resolve t address) start ts us (resolveRow t address row) labels := by
  refine ⟨conveys.translates.resolve open_ nameless address, ?_⟩
  rw [rowExpressions_resolveRow]
  exact conveys.expresses

end Conveys

namespace ConveysAll

theorem nil {ts us vs : List Token} (breaks : Breaks ts us) (brace : Mark .rightBrace us vs) :
    ConveysAll pool exits start ts vs [] [] :=
  ⟨.nil breaks brace, [], .nil breaks brace, .nil⟩

theorem cons {ts us vs ws : List Token} {more : List Statement} {others : Bindings}
    (breaks : Breaks ts us) (first : Conveys pool exits start us vs row labels)
    (rest : ConveysAll pool exits (start + rowSize row) vs ws more others) :
    ConveysAll pool exits start ts ws (row ++ more) (labels ++ others) := by
  obtain ⟨es, expresses, renders⟩ := first.expresses
  obtain ⟨es', expresses', renders'⟩ := rest.expresses
  refine ⟨.cons breaks first.translates rest.translates, es ++ es',
    .cons breaks expresses expresses', ?_⟩
  rw [rowExpressions_append]
  exact renders.append renders'

end ConveysAll

def Outline.expressions (o : Outline) : List (List Term) := rowExpressions o.row

structure Sourced (pool : Array Value) (start : Nat) (ts : List Token) (os : List Outline) :
    Prop where
  source : Source start ts os
  expresses : ∃ es, SourceExpresses ts es ∧ RendersAll pool es (os.flatMap Outline.expressions)

namespace Sourced

variable {os : List Outline}

theorem nil {ts : List Token} (breaks : Breaks ts []) : Sourced pool start ts [] :=
  ⟨.nil breaks, [], .nil breaks, .nil⟩

theorem globals {ts us vs ws : List Token} (breaks : Breaks ts us)
    (keyword : Mark (.keyword .var) us vs) (globals : Globals vs ws)
    (rest : Sourced pool start ws os) : Sourced pool start ts os := by
  obtain ⟨es, expresses, renders⟩ := rest.expresses
  exact ⟨.variables breaks keyword globals rest.source, es,
    .variables breaks keyword globals expresses, renders⟩

theorem function {o : Outline} {ts us vs ws xs ys zs : List Token} (breaks : Breaks ts us)
    (named : Name o.name us vs) (list : ParameterList vs ws) (skip : Breaks ws xs)
    (brace : Mark .leftBrace xs ys) (body : ConveysAll pool none o.start ys zs o.row o.labels)
    (rest : Sourced pool (o.start + rowSize o.code) zs os) : Sourced pool o.start ts (o :: os) := by
  obtain ⟨es, expresses, renders⟩ := body.expresses
  obtain ⟨es', expresses', renders'⟩ := rest.expresses
  refine ⟨.function breaks named list skip brace body.translates rest.source, es ++ es',
    .function breaks named.mark list skip brace expresses expresses', ?_⟩
  rw [List.flatMap_cons]
  exact renders.append renders'

end Sourced

end Scriptlet.Grammar
