import Scriptlet.Proofs.Compile.Expressions
import Scriptlet.Proofs.Source.Phrases
import Scriptlet.Proofs.Source.Reading

/-!
Expressions are read as trees and written as their code. A rule that succeeds has read a phrase of
its level, and has written the code of its tree; if it says that it wrote nothing but a literal, the
tree has the value of that literal. An operator between such operands takes both back before its own
result is written, so what was shared with the pool before stays as it was, and values are computed
from values and never from entries of the pool.
-/
namespace Scriptlet

theorem Binary64.eq_or_isZero_of_same {x y : Binary64} (same : x.same y = true) :
    x = y ∨ x.isZero = true ∧ y.isZero = true := by
  simp only [Binary64.same, Bool.and_eq_true, beq_iff_eq] at same
  have level := same.2
  have small := x.bits.toNat_lt
  have small' := y.bits.toNat_lt
  simp only [rank, isNegative, word] at level
  by_cases equal : x.bits.toNat = y.bits.toNat
  · left
    cases x
    cases y
    exact congrArg Binary64.mk (UInt64.toNat_inj.mp equal)
  · right
    simp only [isZero, word, beq_iff_eq]
    by_cases upper : 0x8000000000000000 ≤ x.bits.toNat <;>
      by_cases upper' : 0x8000000000000000 ≤ y.bits.toNat <;>
      simp only [upper, upper', decide_true, decide_false, ↓reduceIte,
        Bool.false_eq_true] at level <;>
      omega

namespace Compile

open Actions Code Grammar

variable {s s' t : Session} {rule : Rule} {v : Value} {op : BinaryOp} {a b : Option Constant}

theorem StandsFor.agrees {w : Value} (stands : StandsFor w v) (atom : v.isList = false) :
    w.Agrees v := by
  rcases stands with equal | same
  · exact Or.inl equal
  · match w, v, atom, same with
    | .atom (.integer _), .atom (.integer _), _, same =>
      exact Or.inl (congrArg Value.integer (eq_of_beq same))
    | .atom (.text _), .atom (.text _), _, same =>
      exact Or.inl (congrArg Value.text (eq_of_beq same))
    | .atom (.float x), .atom (.float y), _, same =>
      rcases Binary64.eq_or_isZero_of_same same with rfl | ⟨left, right⟩
      · exact Or.inl rfl
      · exact Or.inr ⟨x, y, rfl, rfl, left, right⟩
    | .list _, .atom _, _, same => cases same

/-- What a rule that succeeds has done, beside what it has read. -/
structure Composed (s s' : Session) (c : Option Constant) (e : Phrase) (f : List Term) : Prop
    extends Outcome s s' c f where
  renders : Renders s'.literals e f
  value : c.map (·.value) = e.value?

/-- A rule for the phrases of a level. -/
def Composes (level : Level) (rule : Rule) : Prop :=
  ∀ s c s', rule s = .ok c s' → ∃ e f, Derives level s.left s'.left e ∧ Composed s s' c e f

variable {c r : Option Constant} {e : Phrase} {f : List Term}

theorem Composed.of_reads (reads : Reads s t) (load : t.load ≤ s.load)
    (composed : Composed t s' c e f) :
    Composed s s' c e f :=
  ⟨composed.toOutcome.of_reads reads load, composed.renders, composed.value⟩

theorem Composed.then_reads (composed : Composed s t c e f) (reads : Reads t s')
    (load : s'.load ≤ t.load) : Composed s s' c e f := by
  refine ⟨composed.toOutcome.then_reads reads load, ?_, composed.value⟩
  exact composed.renders.mono fun _ _ => reads.emits.grows.literal_of

theorem WritesLiteral.composed {k : Constant} (writes : WritesLiteral s s' k v)
    (atom : v.isList = false) (value : e.value? = some v) : ∃ f, Composed s s' (some k) e f := by
  obtain ⟨i, w, outcome, found, stands⟩ := writes.outcome
  refine ⟨[.literal i], outcome, .constant value found (stands.agrees atom), ?_⟩
  rw [value, Option.map_some, writes.value]

theorem foldUnary_composed {op : UnaryOp} (operand : Composed s t c e f)
    (ok : foldUnary op c t = .ok r s') : ∃ g, Composed s s' r (.unary op e) g := by
  have value := operand.value
  rcases foldUnary_ok operand.toOutcome ok with ⟨rfl, rfl, rfl, outcome⟩ | ⟨k, l, rfl, rfl, writes⟩
  · have none_ : e.value? = none := value.symm
    refine ⟨_, outcome, .unary none_ operand.renders, ?_⟩
    rw [Phrase.value?, none_]
    rfl
  · have some_ : e.value? = some k.value := value.symm
    exact writes.composed (op.apply_isList _) (by rw [Phrase.value?, some_, Option.map_some])

theorem foldBinary_none (ok : foldBinary op a b s = .ok none s') : a = none ∨ b = none := by
  match a, b, ok with
  | none, _, _ => exact Or.inl rfl
  | some _, none, _ => exact Or.inr rfl
  | some k, some l, ok =>
    obtain ⟨_, _, _, ok⟩ := of_bind_ok ok
    obtain ⟨m, _, _, done⟩ := of_bind_ok ok
    cases done

theorem foldBinary_composed {u v : Session} {e' : Phrase} {g : List Term}
    (left : Composed s t a e f) (between : Reads t u) (spent : u.load ≤ t.load)
    (right : Composed u v b e' g) (ok : foldBinary op a b v = .ok r s') :
    ∃ h, Composed s s' r (.binary op e e') h := by
  have value := left.value
  have value' := right.value
  rcases foldBinary_ok left.toOutcome between spent right.toOutcome ok with
    ⟨rfl, rfl, outcome⟩ | ⟨k, l, m, rfl, rfl, rfl, writes⟩
  · have none_ : (Phrase.binary op e e').value? = none := by
      rw [Phrase.value?, ← value, ← value']
      rcases foldBinary_none ok with rfl | rfl
      · rfl
      · cases a <;> rfl
    have kept : Renders v.literals e f := left.renders.mono fun _ _ found =>
      right.writes.emits.grows.literal_of (between.emits.grows.literal_of found)
    exact ⟨_, outcome, .binary none_ kept right.renders, none_.symm⟩
  · refine writes.composed (op.apply_isList _ _) ?_
    rw [Phrase.value?, ← value, ← value']
    rfl

variable {level next : Level}

theorem Composes.tighter (composes : Composes next rule)
    (tighter : level.tighter? = some next) : Composes level rule := by
  intro s c s' ok
  obtain ⟨e, f, derives, composed⟩ := composes s c s' ok
  exact ⟨e, f, .tighter tighter derives, composed⟩

theorem chainFrom_composes (composes : Composes next rule) (tighter : level.tighter? = some next)
    (n : Nat) :
    ∀ {s t s' : Session} {a c : Option Constant} {e : Phrase} {f : List Term},
      Derives level s.left t.left e → Composed s t a e f →
      chainFrom level.chains rule n a t = .ok c s' →
      ∃ e' f', Derives level s.left s'.left e' ∧ Composed s s' c e' f' := by
  induction n with
  | zero =>
    intro s t s' a c e f _ _ ok
    cases ok
  | succ n ih =>
    intro s t s' a c e f derives left ok
    obtain ⟨kind, t₁, peeked, ok⟩ := of_bind_ok ok
    have ahead := peekKind_reads peeked
    have stops : (pure a : Rule) t₁ = .ok c s' →
        ∃ e' f', Derives level s.left s'.left e' ∧ Composed s s' c e' f' := by
      intro done
      cases done
      refine ⟨e, f, ?_, left.then_reads ahead.1 ahead.2⟩
      rwa [(peekKind_left peeked).1]
    split at ok
    · rename_i op
      split at ok
      · rename_i chained
        obtain ⟨_, t₂, taken, ok⟩ := of_bind_ok ok
        obtain ⟨b, t₃, ran, ok⟩ := of_bind_ok ok
        obtain ⟨r, t₄, folded, ok⟩ := of_bind_ok ok
        obtain ⟨_, taken⟩ := of_discard_ok taken
        have operator := nextToken_reads taken
        have mark := peeked_mark peeked taken (by simp)
        obtain ⟨e', g, behind, right⟩ := composes t₂ b t₃ ran
        obtain ⟨h, joined⟩ := foldBinary_composed left (ahead.1.trans operator.1) (by omega)
          right folded
        refine ih ?_ joined ok
        rw [(still_foldBinary op a b).left folded]
        exact .chain tighter chained derives mark behind
      · exact stops ok
    · exact stops ok

theorem chain_composes (n : Nat) (composes : Composes next rule)
    (tighter : level.tighter? = some next) : Composes level (chain n level.chains rule) := by
  intro s c s' ok
  obtain ⟨a, t, ran, ok⟩ := of_bind_ok ok
  obtain ⟨e, f, derives, left⟩ := composes.tighter tighter s a t ran
  exact chainFrom_composes composes tighter n derives left ok

theorem unary_composes {op : UnaryOp} (composes : Composes level rule)
    (ahead : Reads s t ∧ t.load ≤ s.load) (ok : (do foldUnary op (← rule)) t = .ok c s') :
    ∃ e f, Derives level t.left s'.left e ∧ Composed s s' c (.unary op e) f := by
  obtain ⟨a, u, ran, ok⟩ := of_bind_ok ok
  obtain ⟨e, f, derives, operand⟩ := composes t a u ran
  obtain ⟨g, composed⟩ := foldUnary_composed (operand.of_reads ahead.1 ahead.2) ok
  rw [← (still_foldUnary op a).left ok] at derives
  exact ⟨e, g, derives, composed⟩

theorem negations_composes (composes : Composes .comparison rule) (n : Nat) :
    Composes .negation (negations rule n) := by
  induction n with
  | zero =>
    intro s c s' ok
    cases ok
  | succ n ih =>
    intro s c s' ok
    rcases of_accept_ok ok (by decide) with ⟨t, ahead, given, ok⟩ | ⟨t, ahead, same, ok⟩
    · obtain ⟨e, f, derives, negated⟩ := unary_composes ih ahead ok
      exact ⟨_, f, .not_ given derives, negated⟩
    · obtain ⟨e, f, derives, composed⟩ := composes t c s' ok
      rw [same] at derives
      exact ⟨e, f, .tighter rfl derives, composed.of_reads ahead.1 ahead.2⟩

theorem signed_composes {operand : Rule} (composes : Composes .operand operand) (n : Nat) :
    Composes .sign (signed operand n) := by
  induction n with
  | zero =>
    intro s c s' ok
    cases ok
  | succ n ih =>
    intro s c s' ok
    rcases of_accept_ok ok (by decide) with ⟨t, ahead, given, ok⟩ | ⟨t, ahead, same, ok⟩
    · obtain ⟨e, f, derives, negated⟩ := unary_composes ih ahead ok
      exact ⟨_, f, .negative given derives, negated⟩
    · obtain ⟨a, u, ran, ok⟩ := of_bind_ok ok
      obtain ⟨e, f, derives, composed⟩ := composes t a u ran
      rw [same] at derives
      have left := composed.of_reads ahead.1 ahead.2
      rcases of_accept_ok ok (by decide) with ⟨v, between, given, ok⟩ | ⟨v, between, same, ok⟩
      · obtain ⟨b, w, ran, ok⟩ := of_bind_ok ok
        obtain ⟨e', g, behind, right⟩ := ih v b w ran
        obtain ⟨h, raised⟩ := foldBinary_composed left between.1 between.2 right ok
        refine ⟨_, h, ?_, raised⟩
        rw [(still_foldBinary .power a b).left ok]
        exact .power derives given behind
      · cases ok
        refine ⟨e, f, ?_, left.then_reads between.1 between.2⟩
        rw [same]
        exact .tighter rfl derives

structure Enumerated (s s' : Session) (es : List Phrase) (fs : List (List Term)) : Prop
    extends WritesParts s s' fs where
  renders : RendersAll s'.literals es fs
  load : s'.load ≤ s.load

def IsExpression (item : Compile Unit) : Prop :=
  ∀ s u s', item s = .ok u s' → ∃ e f, Derives .choice s.left s'.left e ∧ Enumerated s s' [e] [f]

def Enumerates (phrase : List Token → List Token → List Phrase → Prop) (count : Nat)
    (items : Compile Nat) : Prop :=
  ∀ s n s', items s = .ok n s' →
    ∃ es fs, phrase s.left s'.left es ∧ Enumerated s s' es fs ∧ n = count + fs.length

section Rows

variable {es es' : List Phrase} {fs fs' : List (List Term)} {item : Compile Unit}
  {n : Nat} {u : Unit} {phrase : List Token → List Token → List Phrase → Prop} {close : Token.Kind}
  {p : Problem} {name : Token}

theorem Enumerated.nil (s : Session) : Enumerated s s [] [] :=
  ⟨.nil s, .nil, Nat.le_refl _⟩

theorem Enumerated.append (first : Enumerated s t es fs) (second : Enumerated t s' es' fs') :
    Enumerated s s' (es ++ es') (fs ++ fs') := by
  refine ⟨first.toWritesParts.append second.toWritesParts, ?_, Nat.le_trans second.load first.load⟩
  exact (first.renders.mono fun _ _ => second.emits.grows.literal_of).append second.renders

theorem Enumerated.of_reads (reads : Reads s t) (load : t.load ≤ s.load)
    (rest : Enumerated t s' es fs) : Enumerated s s' es fs :=
  ⟨rest.toWritesParts.of_reads reads, rest.renders, Nat.le_trans rest.load load⟩

theorem Enumerated.then_reads (first : Enumerated s t es fs) (reads : Reads t s')
    (load : s'.load ≤ t.load) : Enumerated s s' es fs :=
  ⟨first.toWritesParts.then_reads reads, first.renders.mono fun _ _ => reads.emits.grows.literal_of,
    Nat.le_trans load first.load⟩

theorem expressionOf_isExpression {inner : Rule} (composes : Composes .choice inner) :
    IsExpression (expressionOf inner) := by
  intro s u s' ok
  obtain ⟨tok, s₁, taken, ok⟩ := of_bind_ok ok
  have first := nextToken_reads taken
  split at ok
  · obtain ⟨_, s₂, given, ok⟩ := of_bind_ok ok
    have back := unget_reads given
    have same : s₂.left = s.left := by
      cases given
      cases taken
      exact s.tokens.remaining_peek
    obtain ⟨s₃, ran, rfl⟩ := counted_ok ok
    obtain ⟨c, ran⟩ := of_discard_ok ran
    obtain ⟨e, f, derives, composed⟩ := composes _ _ _ ran
    have derives : Derives .choice s₂.left s₃.left e := derives
    refine ⟨e, f, same ▸ derives, .of_reads (first.1.trans back.1) (by omega)
      ⟨⟨?_, composed.writes.called, ?_, ?_⟩, .single composed.renders, composed.load⟩⟩
    · rw [partsWords_single]
      exact closed_emits composed.writes.emits
    · exact partsValid_single composed.pushes composed.writes.valid
    · exact partsLiterals_single f ▸ composed.writes.fills
  · obtain ⟨_, _, _, ok⟩ := of_bind_ok ok
    cases ok

theorem itemsUntil_enumerates (solid : close ≠ .endOfFile) (one : IsExpression item)
    (n count : Nat) :
    Enumerates (fun ts vs es => ∃ us, DerivesSequence ts us es ∧ Mark close us vs) count
      (itemsUntil close p item n count) := by
  induction n generalizing count with
  | zero =>
    intro s k s' ok
    cases ok
  | succ n ih =>
    intro s k s' ok
    obtain ⟨_, s₁, ran, ok⟩ := of_bind_ok ok
    obtain ⟨e, f, derives, first⟩ := one _ _ _ ran
    rcases of_accept_ok ok solid with ⟨s₂, ahead, closed, ok⟩ | ⟨s₂, ahead, same, ok⟩
    · cases ok
      exact ⟨[e], [f], ⟨_, .last derives, closed⟩, first.then_reads ahead.1 ahead.2, rfl⟩
    · obtain ⟨s₃, separator, mark, ok⟩ := of_expect_ok ok (by decide)
      rw [same] at mark
      obtain ⟨es, fs, ⟨us, rest, end_⟩, others, total⟩ := ih (count + 1) _ _ _ ok
      refine ⟨e :: es, f :: fs, ⟨us, .more derives mark rest, end_⟩,
        (first.then_reads (ahead.1.trans separator.1) (by omega)).append others, ?_⟩
      simp only [total, List.length_cons]
      omega

theorem itemsOrNone_enumerates (solid : close ≠ .endOfFile) (one : IsExpression item) (n : Nat) :
    Enumerates (DerivesItems close) 0 (itemsOrNone n close p item) := by
  intro s k s' ok
  rcases of_accept_ok ok solid with ⟨t, ahead, closed, ok⟩ | ⟨t, ahead, same, ok⟩
  · cases ok
    exact ⟨[], [], .none closed, (Enumerated.nil s).then_reads ahead.1 ahead.2, rfl⟩
  · obtain ⟨es, fs, ⟨us, rest, end_⟩, others, total⟩ := itemsUntil_enumerates solid one n 0 _ _ _ ok
    rw [same] at rest
    exact ⟨es, fs, .some rest end_, others.of_reads ahead.1 ahead.2, total⟩

theorem bareItems_enumerates (one : IsExpression item) (n count : Nat) :
    Enumerates DerivesSequence count (bareItems item n count) := by
  induction n generalizing count with
  | zero =>
    intro s k s' ok
    cases ok
  | succ n ih =>
    intro s k s' ok
    obtain ⟨_, s₁, ran, ok⟩ := of_bind_ok ok
    obtain ⟨e, f, derives, first⟩ := one _ _ _ ran
    rcases of_accept_ok ok (by decide) with ⟨s₂, ahead, comma, ok⟩ | ⟨s₂, ahead, same, ok⟩
    · obtain ⟨es, fs, rest, others, total⟩ := ih (count + 1) _ _ _ ok
      refine ⟨e :: es, f :: fs, .more derives comma rest,
        (first.then_reads ahead.1 ahead.2).append others, ?_⟩
      simp only [total, List.length_cons]
      omega
    · cases ok
      refine ⟨[e], [f], ?_, first.then_reads ahead.1 ahead.2, rfl⟩
      rw [same]
      exact .last derives

theorem indexes_enumerates (one : IsExpression item) (n count : Nat) :
    Enumerates DerivesIndexes count (indexes item n count) := by
  induction n generalizing count with
  | zero =>
    intro s k s' ok
    cases ok
  | succ n ih =>
    intro s k s' ok
    rcases of_accept_ok ok (by decide) with ⟨s₁, ahead, bracket, ok⟩ | ⟨s₁, ahead, same, ok⟩
    · obtain ⟨_, s₂, ran, ok⟩ := of_bind_ok ok
      obtain ⟨e, f, derives, first⟩ := one _ _ _ ran
      obtain ⟨s₃, behind, closed, ok⟩ := of_expect_ok ok (by decide)
      obtain ⟨es, fs, rest, others, total⟩ := ih (count + 1) _ _ _ ok
      refine ⟨e :: es, f :: fs, .more bracket derives closed rest,
        ((first.of_reads ahead.1 ahead.2).then_reads behind.1 behind.2).append others, ?_⟩
      simp only [total, List.length_cons]
      omega
    · cases ok
      refine ⟨[], [], ?_, (Enumerated.nil s).then_reads ahead.1 ahead.2, rfl⟩
      rw [same]
      exact .none

structure Prefixed (s s' : Session) (es : List Phrase) (fs : List (List Term)) : Prop where
  emits : Emits s s' (.ofNat fs.length :: partsWords fs) 0
  called : Called s s'
  valid : partsValid s'.references fs
  fills : Fills s.literals s'.literals (partsLiterals fs)
  renders : RendersAll s'.literals es fs
  load : s'.load ≤ s.load

theorem prefixed_enumerates {rule : Compile Nat} (enumerates : Enumerates phrase 0 rule)
    (ok : prefixedByCount rule s = .ok n s') :
    ∃ es fs, phrase s.left s'.left es ∧ n = fs.length ∧ Prefixed s s' es fs := by
  obtain ⟨t, ran, rfl⟩ := prefixedByCount_ok ok
  obtain ⟨es, fs, derives, parts, total⟩ := enumerates _ _ _ ran
  obtain rfl : n = fs.length := by omega
  exact ⟨es, fs, derives, rfl, prefixed_emits parts.emits, parts.called, parts.valid, parts.fills,
    parts.renders, parts.load⟩

structure Invokes (op : Opcode) (place : Nat) (s s' : Session) (es : List Phrase)
    (fs : List (List Term)) : Prop where
  emits : Emits s s' (op.word :: .ofNat place :: .ofNat fs.length :: partsWords fs) 1
  called : Called s s'
  admits : s'.Admits place fs.length
  valid : partsValid s'.references fs
  fills : Fills s.literals s'.literals (partsLiterals fs)
  renders : RendersAll s'.literals es fs
  load : s'.load ≤ s.load

theorem callOf_invokes {op : Opcode} {arguments : Compile Nat}
    (enumerates : Enumerates phrase 0 arguments) (ok : callOf op name arguments s = .ok u s') :
    ∃ place es fs, phrase s.left s'.left es ∧ Invokes op place s s' es fs := by
  obtain ⟨place, s₁, entered, ok⟩ := of_bind_ok ok
  obtain ⟨_, s₂, written, ok⟩ := of_bind_ok ok
  obtain ⟨n, s₃, counted, checked⟩ := of_bind_ok ok
  obtain ⟨es, fs, derives, rfl, parts⟩ := prefixed_enumerates enumerates counted
  obtain ⟨emits, calls, admits, valid, fills⟩ :=
    call_emits entered written parts.emits parts.called parts.valid parts.fills checked
  obtain ⟨check, load₄, _⟩ := checkCall_ok checked
  have load₁ := (functionPlace_ok entered).2.1
  have load₂ := (emitWith_emits written).2
  have load₃ := parts.load
  rw [(still_emitWith _ _).left written, (still_functionPlace _).left entered,
    ← (still_checkCall _ _ _).left checked] at derives
  exact ⟨place, es, fs, derives, emits, calls, admits, valid, fills,
    parts.renders.mono fun _ _ => check.grows.literal_of, by omega⟩

theorem compound_composed {head : Head} (emits : Emits s s' (Term.compound head fs).words 1)
    (called : Called s s') (valid : (Term.compound head fs).Valid s'.references)
    (fills : Fills s.literals s'.literals (partsLiterals fs))
    (renders : RendersAll s'.literals es fs) (load : s'.load ≤ s.load) :
    Composed s s' none (.operand es) [.compound head fs] :=
  ⟨⟨⟨termsWords_single _ ▸ emits, called, ⟨valid, trivial⟩, termsLiterals_single _ ▸ fills⟩,
    pushes_compound _ _, by simp, load⟩, .compound _ renders, rfl⟩

theorem Invokes.composed {place : Nat} (invokes : Invokes .call place s s' es fs) :
    Composed s s' none (.operand es) [.compound (.call place) fs] :=
  compound_composed invokes.emits invokes.called ⟨invokes.admits, invokes.valid⟩ invokes.fills
    invokes.renders invokes.load

theorem pure_enumerates : Enumerates (fun ts us es => us = ts ∧ es = []) 0 (pure 0) := by
  intro s n s' done
  cases done
  exact ⟨[], [], ⟨rfl, rfl⟩, .nil s, rfl⟩

theorem listInitializer_composed (one : IsExpression item)
    (ok : listInitializer n item s = .ok u s') :
    ∃ es fs, DerivesItems .rightBrace s.left s'.left es ∧
      Composed s s' none (.operand es) [.compound .items fs] := by
  rw [listInitializer, bind_ok _ (emit_eq _ s)] at ok
  obtain ⟨k, ok⟩ := of_discard_ok ok
  obtain ⟨es, fs, derives, _, parts⟩ :=
    prefixed_enumerates (itemsOrNone_enumerates (by decide) one n) ok
  exact ⟨es, fs, derives, compound_composed ((opcode_emits .initializeList s).trans parts.emits)
    parts.called ⟨trivial, parts.valid⟩ parts.fills parts.renders parts.load⟩

theorem symbolOperand_composed {r : Session} (one : IsExpression item)
    (kind : name.kind = .symbol) (named : nextToken r = .ok name s)
    (ok : symbolOperand n item name s = .ok u s') :
    ∃ e f, Derives .operand r.left s'.left e ∧ Composed r s' none e f := by
  have mark := nextToken_mark named kind (by decide)
  have token := nextToken_reads named
  have cost := cost_of_kind kind (by decide)
  obtain ⟨found, s₁, peeked, ok⟩ := of_bind_ok ok
  have ahead := peekKind_reads peeked
  have same := (peekKind_left peeked).1
  -- A call, an element, or a name alone, which is a call if a function has it.
  split at ok
  · obtain ⟨_, s₂, taken, ok⟩ := of_bind_ok ok
    obtain ⟨_, taken⟩ := of_discard_ok taken
    have parenthesis := nextToken_reads taken
    obtain ⟨place, es, fs, derives, invokes⟩ :=
      callOf_invokes (itemsOrNone_enumerates (by decide) one n) ok
    have composed := invokes.composed.of_reads ((token.1.trans ahead.1).trans parenthesis.1)
      (by omega)
    exact ⟨_, _, .call mark (peeked_mark peeked taken (by decide)) derives, composed⟩
  · obtain ⟨a, s₂, resolved, ok⟩ := of_bind_ok ok
    obtain ⟨opening, functions, has, load₁⟩ := variableAddress_ok resolved
    obtain ⟨_, s₃, written, ok⟩ := of_bind_ok ok
    obtain ⟨head, load₂⟩ := emitWith_emits written
    obtain ⟨k, ok⟩ := of_discard_ok ok
    obtain ⟨es, fs, derives, _, parts⟩ := prefixed_enumerates (indexes_enumerates one n 0) ok
    have functions : s₃.functions = s₁.functions := by
      cases written
      exact functions
    rw [(still_emitWith _ _).left written, (still_variableAddress _).left resolved, same] at derives
    have front := token.1.trans ahead.1
    have load₃ := parts.load
    have fills : Fills r.literals s'.literals (partsLiterals fs) := by
      obtain ⟨_, rfl⟩ := variableAddress_scope resolved
      cases written
      exact front.literals ▸ parts.fills
    have called := Called.trans (.of_eq functions) parts.called parts.emits.grows
    have emits := (opening.trans head).trans parts.emits
    exact ⟨_, [.compound (.element a) fs], .element mark derives,
      compound_composed (front.emits.trans emits) (front.called.trans called emits.grows)
      ⟨parts.emits.grows.hasSlot (head.grows.hasSlot has), parts.valid⟩ fills parts.renders
      (by omega)⟩
  · rw [get_bind] at ok
    split at ok
    · obtain ⟨place, es, fs, ⟨rest, rfl⟩, invokes⟩ := callOf_invokes pure_enumerates ok
      refine ⟨_, _, .element mark ?_, invokes.composed.of_reads (token.1.trans ahead.1) (by omega)⟩
      rw [rest, same]
      exact .none
    · obtain ⟨a, s₂, resolved, ok⟩ := of_bind_ok ok
      obtain ⟨opening, functions, has, load₁⟩ := variableAddress_ok resolved
      obtain ⟨head, load₂⟩ := emitWith_emits ok
      have rest : s'.left = s.left := by
        rw [(still_emitWith _ _).left ok, (still_variableAddress _).left resolved, same]
      refine ⟨_, [.load a], .element mark (rest ▸ .none),
        ⟨⟨Writes.of_reads (token.1.trans ahead.1) ⟨?_, ?_, ?_, ?_⟩, pushes_load a, by
          simp, by omega⟩, .load a, rfl⟩⟩
      · rw [termsWords_single, Term.words]
        exact opening.trans head
      · cases ok
        exact .of_eq functions
      · simp only [termsValid, Term.Valid, and_true]
        exact head.grows.hasSlot has
      · obtain ⟨_, rfl⟩ := variableAddress_scope resolved
        cases ok
        exact .refl _ _

end Rows

theorem operand_composes {inner : Rule} (composes : Composes .choice inner) (n : Nat) :
    Composes .operand (operand n inner) := by
  intro s c s' ok
  obtain ⟨tok, t, taken, ok⟩ := of_bind_ok ok
  have token := nextToken_reads taken
  have one := expressionOf_isExpression composes
  cases literal : tok.literal? with
  | some v =>
    rw [literal] at ok
    obtain ⟨k, r, written, ok⟩ := of_bind_ok ok
    cases ok
    have more : tok.kind ≠ .endOfFile := by
      intro last
      simp [Token.literal?, last] at literal
    have atom := Token.literal?_isList literal
    have derives : Derives .operand s.left s'.left (.literal v) := by
      rw [nextToken_left taken more, ← (still_emitLiteral v).left written]
      exact .literal literal
    obtain ⟨f, composed⟩ := (emitLiteral_writes atom written).composed (e := .literal v) atom rfl
    exact ⟨_, f, derives, composed.of_reads token.1 (by omega)⟩
  | none =>
    rw [literal] at ok
    generalize kind : tok.kind = found at ok
    cases found with
    | leftParen =>
      obtain ⟨a, r, ran, ok⟩ := of_bind_ok ok
      obtain ⟨v, behind, closed, ok⟩ := of_expect_ok ok (by decide)
      obtain ⟨e, f, derives, composed⟩ := composes _ _ _ ran
      cases ok
      exact ⟨e, f, .parenthesis (nextToken_mark taken kind (by decide)) derives closed,
        (composed.of_reads token.1 (by omega)).then_reads behind.1 behind.2⟩
    | leftBrace =>
      obtain ⟨_, r, ran, ok⟩ := of_bind_ok ok
      cases ok
      obtain ⟨es, fs, derives, composed⟩ := listInitializer_composed one ran
      exact ⟨_, _, .list (nextToken_mark taken kind (by decide)) derives,
        composed.of_reads token.1 (by omega)⟩
    | symbol =>
      obtain ⟨_, r, ran, ok⟩ := of_bind_ok ok
      cases ok
      exact symbolOperand_composed one kind taken ran
    | _ =>
      obtain ⟨_, _, _, ok⟩ := of_bind_ok ok
      cases ok

theorem formula_composes (n : Nat) : Composes .choice (formula n) := by
  induction n with
  | zero =>
    intro s c s' ok
    cases ok
  | succ n ih =>
    have product : Composes .product (chain n isProduct (signed (operand n (formula n)) n)) :=
      chain_composes n (signed_composes (operand_composes ih n) n) rfl
    have sum : Composes .sum (chain n isSum _) := chain_composes n product rfl
    have join : Composes .join (chain n isJoin _) := chain_composes n sum rfl
    have comparison : Composes .comparison (chain n isComparison _) := chain_composes n join rfl
    have conjunction : Composes .conjunction (chain n isConjunction _) :=
      chain_composes n (negations_composes comparison n) rfl
    exact chain_composes n conjunction rfl

theorem openFormula_composes : Composes .choice openFormula := by
  intro s c s' ok
  rw [openFormula, get_bind] at ok
  exact formula_composes _ s c s' ok

theorem expression_isExpression : IsExpression expression := by
  intro s u s' ok
  rw [expression, get_bind] at ok
  exact expressionOf_isExpression (formula_composes _) s u s' ok

end Compile

end Scriptlet
