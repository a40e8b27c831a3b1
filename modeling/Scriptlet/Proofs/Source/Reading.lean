import Scriptlet.Compile.Basic
import Scriptlet.Proofs.Compile.Emission
import Scriptlet.Proofs.Source.Grammar

/-!
Rules and the row of tokens that is left. A token that is taken is the first of the row, one that is
given back becomes the first again, and lexical problems play no role. Rules that only write leave
the row as it is, and a rule of the header that succeeds has taken a phrase of the grammar.
-/
namespace Scriptlet

namespace TokenStream

variable {s : TokenStream} {t : Token}

theorem remaining_of_more (more : s.next.1.kind ≠ .endOfFile) :
    s.remaining = s.next.1 :: s.next.2.remaining := by
  rw [remaining, dif_neg more]

theorem remaining_of_end (last : s.next.1.kind = .endOfFile) : s.remaining = [] := by
  rw [remaining, dif_pos last]

theorem next_unget (free : s.pushed = none) : (s.unget t).next = (t, s) := by
  obtain ⟨rest, line, pushed, errors, lost⟩ := s
  obtain rfl : pushed = none := free
  rfl

theorem remaining_unget (free : s.pushed = none) (more : t.kind ≠ .endOfFile) :
    (s.unget t).remaining = t :: s.remaining := by
  rw [remaining_of_more (by rwa [next_unget free]), next_unget free]

theorem remaining_unget_end (free : s.pushed = none) (last : t.kind = .endOfFile) :
    (s.unget t).remaining = [] := by
  apply remaining_of_end
  rwa [next_unget free]

theorem remaining_peek (s : TokenStream) : s.peek.2.remaining = s.remaining := by
  change (s.next.2.unget s.next.1).remaining = s.remaining
  by_cases last : s.next.1.kind = .endOfFile
  · rw [remaining_unget_end s.next_pushed last, remaining_of_end last]
  · rw [remaining_unget s.next_pushed last, remaining_of_more last]

theorem next_peek (s : TokenStream) : s.peek.2.next.1 = s.next.1 := by
  change (s.next.2.unget s.next.1).next.1 = s.next.1
  rw [next_unget s.next_pushed]

theorem remaining_head (first : t ∈ s.remaining.head?) : s.next.1 = t := by
  by_cases last : s.next.1.kind = .endOfFile
  · rw [remaining_of_end last] at first
    cases first
  · rw [remaining_of_more last] at first
    exact Option.some.inj first

theorem next_errors (s : TokenStream) (errors : Array Diagnostic) :
    { s with errors }.next.1 = s.next.1 ∧
      ∃ others, { s with errors }.next.2 = { s.next.2 with errors := others } := by
  unfold next
  cases pushed : s.pushed with
  | some t => exact ⟨rfl, errors, rfl⟩
  | none => exact ⟨rfl, _, rfl⟩

theorem remaining_errors (s : TokenStream) (errors : Array Diagnostic) :
    { s with errors }.remaining = s.remaining := by
  fun_induction remaining s generalizing errors with
  | case1 s last =>
    apply remaining_of_end
    rw [(s.next_errors errors).1, last]
  | case2 s more shorter ih =>
    obtain ⟨same, others, rest⟩ := s.next_errors errors
    rw [remaining_of_more (by rwa [same]), same, rest, ih]

open Grammar in
theorem nextPastBreaks_remaining (s : TokenStream) :
    s.nextPastBreaks.2.pushed = none ∧ s.nextPastBreaks.1.kind ≠ .endOfLine ∧
      Breaks s.remaining (s.nextPastBreaks.2.unget s.nextPastBreaks.1).remaining := by
  fun_induction nextPastBreaks s with
  | case1 s read line_break shorter ih =>
    obtain ⟨free, solid, rest⟩ := ih
    have more : s.next.1.kind ≠ .endOfFile := by
      rw [line_break]
      decide
    refine ⟨free, solid, .more ⟨_, line_break, ?_⟩ rest⟩
    exact remaining_of_more more
  | case2 s read other =>
    refine ⟨s.next_pushed, other, ?_⟩
    change Breaks s.remaining s.peek.2.remaining
    rw [remaining_peek]
    exact .none

end TokenStream

/-- No list, or one without lists in it. -/
inductive Value.Flat : Value → Prop where
  | atom {v : Value} : v.isList = false → v.Flat
  | list {items : List Value} : (∀ v ∈ items, v.isList = false) → (Value.list items).Flat

namespace Compile

open Actions Code Grammar

variable {s s' t : Session} {α β : Type} {tok : Token} {kind : Token.Kind} {u : Unit} {p : Problem}
  {rule : Compile α} {name : Token} {v : Value}

def Session.left (s : Session) : List Token := s.tokens.remaining

theorem nextToken_left (ok : nextToken s = .ok tok s') (more : tok.kind ≠ .endOfFile) :
    s.left = tok :: s'.left := by
  obtain ⟨rfl, rfl⟩ := EStateM.Result.ok.inj ((nextToken_eq s).symm.trans ok)
  exact TokenStream.remaining_of_more more

theorem nextToken_mark (ok : nextToken s = .ok tok s') (same : tok.kind = kind)
    (more : kind ≠ .endOfFile) :
    Mark kind s.left s'.left :=
  ⟨tok, same, nextToken_left ok (same ▸ more)⟩

theorem peekKind_left (ok : peekKind s = .ok kind s') :
    s'.left = s.left ∧ s'.tokens.next.1.kind = kind ∧ ∀ tok ∈ s.left.head?, tok.kind = kind := by
  obtain ⟨rfl, rfl⟩ := EStateM.Result.ok.inj ((peekKind_eq s).symm.trans ok)
  refine ⟨s.tokens.remaining_peek, congrArg _ s.tokens.next_peek, ?_⟩
  intro tok first
  rw [← TokenStream.remaining_head first]
  rfl

theorem peeked_mark (peeked : peekKind s = .ok kind t) (taken : nextToken t = .ok tok s')
    (more : kind ≠ .endOfFile) : Mark kind s.left s'.left := by
  obtain ⟨same, ahead, _⟩ := peekKind_left peeked
  rw [← same]
  refine nextToken_mark taken ?_ more
  obtain ⟨rfl, _⟩ := EStateM.Result.ok.inj ((nextToken_eq t).symm.trans taken)
  exact ahead

theorem peeked_end {found : Token.Kind} (peeked : peekKind s = .ok found t)
    (stops : (found = .rightBrace || found.endsStatement) = true) :
    ∀ tok ∈ s.left.head?, tok.kind = .rightBrace ∨ tok.kind = .endOfLine := by
  obtain ⟨same, ahead, first⟩ := peekKind_left peeked
  intro tok member
  have solid : found ≠ .endOfFile := by
    intro last
    have none_ : t.left = [] := TokenStream.remaining_of_end (ahead.trans last)
    rw [← same, none_] at member
    cases member
  rw [first tok member]
  cases found with
  | rightBrace => exact Or.inl rfl
  | endOfLine => exact Or.inr rfl
  | endOfFile => exact absurd rfl solid
  | _ => simp [Token.Kind.endsStatement] at stops

theorem accept_left {found : Bool} (ok : accept kind s = .ok found s') (more : kind ≠ .endOfFile) :
    (found = true → Mark kind s.left s'.left) ∧ (found = false → s'.left = s.left) := by
  obtain ⟨ahead, t, peeked, ok⟩ := of_bind_ok ok
  split at ok
  · rename_i same
    obtain ⟨tok, r, taken, ok⟩ := of_bind_ok ok
    cases ok
    rw [← same] at more ⊢
    exact ⟨fun _ => peeked_mark peeked taken more, by simp⟩
  · cases ok
    exact ⟨by simp, fun _ => (peekKind_left peeked).1⟩

theorem of_accept_ok {α : Type} {x y : Compile α} {a : α}
    (ok : (do if ← accept kind then x else y) s = .ok a s') (more : kind ≠ .endOfFile) :
    (∃ t, (Reads s t ∧ t.load ≤ s.load) ∧ Mark kind s.left t.left ∧ x t = .ok a s') ∨
      ∃ t, (Reads s t ∧ t.load ≤ s.load) ∧ t.left = s.left ∧ y t = .ok a s' := by
  obtain ⟨found, t, accepted, ok⟩ := of_bind_ok ok
  obtain ⟨given, missing⟩ := accept_left accepted more
  split at ok
  · rename_i yes
    exact Or.inl ⟨t, accept_reads accepted, given yes, ok⟩
  · rename_i no
    exact Or.inr ⟨t, accept_reads accepted, missing (by simpa using no), ok⟩

theorem expect_left (ok : expect kind p s = .ok tok s') (more : kind ≠ .endOfFile) :
    tok.kind = kind ∧ s.left = tok :: s'.left := by
  obtain ⟨tok', r, taken, ok⟩ := of_bind_ok ok
  split at ok
  · rename_i same
    cases ok
    exact ⟨same, nextToken_left taken (same ▸ more)⟩
  · obtain ⟨_, _, _, ok⟩ := of_bind_ok ok
    cases ok

theorem expect_mark (ok : expect kind p s = .ok tok s') (more : kind ≠ .endOfFile) :
    Mark kind s.left s'.left :=
  ⟨tok, expect_left ok more⟩

theorem of_expect_ok {x : Compile α} {a : α} (ok : (do discard (expect kind p); x) s = .ok a s')
    (more : kind ≠ .endOfFile) :
    ∃ t, (Reads s t ∧ t.load ≤ s.load) ∧ Mark kind s.left t.left ∧ x t = .ok a s' := by
  obtain ⟨_, t, found, ok⟩ := of_bind_ok ok
  obtain ⟨_, found⟩ := of_discard_ok found
  obtain ⟨reads, _, load⟩ := expect_reads found
  exact ⟨t, ⟨reads, by omega⟩, expect_mark found more, ok⟩

theorem nextPastBreaks_left (ok : nextPastBreaks s = .ok tok s') (more : tok.kind ≠ .endOfFile) :
    Breaks s.left (tok :: s'.left) := by
  cases ok
  obtain ⟨free, _, breaks⟩ := s.tokens.nextPastBreaks_remaining
  rwa [TokenStream.remaining_unget free more] at breaks

theorem nextPastBreaks_end (ok : nextPastBreaks s = .ok tok s') (last : tok.kind = .endOfFile) :
    Breaks s.left [] := by
  cases ok
  obtain ⟨free, _, breaks⟩ := s.tokens.nextPastBreaks_remaining
  rwa [TokenStream.remaining_unget_end free last] at breaks

theorem ungotten_left (taken : nextPastBreaks s = .ok tok t) (given : unget tok t = .ok u s') :
    Breaks s.left s'.left ∧ ∀ first ∈ s'.left.head?, first = tok := by
  cases taken
  cases given
  obtain ⟨free, _, breaks⟩ := s.tokens.nextPastBreaks_remaining
  refine ⟨breaks, fun first head => ?_⟩
  have next := TokenStream.remaining_head head
  rw [← next]
  exact congrArg Prod.fst (TokenStream.next_unget free)

theorem flush_left (ok : flush s = .ok u s') : s'.left = s.left := by
  rw [flush] at ok
  obtain ⟨errors, t, taken, ok⟩ := of_bind_ok ok
  cases taken
  obtain ⟨recorded, rfl, _⟩ := forM_record_ok ok
  exact s.tokens.remaining_errors #[]

theorem report_left {d : Diagnostic} (ok : report d s = .ok u s') : s'.left = s.left := by
  obtain ⟨_, t, flushed, ok⟩ := of_bind_ok ok
  rw [record_ok ok, ← flush_left flushed]
  rfl

def Still (rule : Compile α) : Prop := ∀ s a s', rule s = .ok a s' → s'.tokens = s.tokens

theorem Still.left {a : α} (still : Still rule) (ok : rule s = .ok a s') : s'.left = s.left := by
  rw [Session.left, still _ _ _ ok, Session.left]

theorem Still.bind {f : α → Compile β} (first : Still rule) (rest : ∀ a, Still (f a)) :
    Still (rule >>= f) := by
  intro s b s' ok
  obtain ⟨a, t, ran, ok⟩ := of_bind_ok ok
  exact (rest a _ _ _ ok).trans (first _ _ _ ran)

theorem still_pure (a : α) : Still (pure a) := by
  intro s b s' ok
  cases ok
  rfl

theorem still_emitWith (op : Opcode) (w : UInt32) : Still (emitWith op w) := by
  intro s u s' ok
  cases ok
  rfl

theorem still_intern (v : Value) : Still (intern v) := by
  intro s place s' ok
  obtain ⟨_, _, _, _, _, _, rest, _⟩ := intern_ok ok
  rw [rest]

theorem still_emitLiteral (v : Value) : Still (emitLiteral v) := by
  intro s k s' ok
  rw [emitLiteral, get_bind] at ok
  exact (still_intern v).bind (fun place => (still_emitWith _ _).bind fun _ => still_pure _)
    _ _ _ ok

theorem still_foldUnary (op : UnaryOp) (c : Option Constant) : Still (foldUnary op c) := by
  intro s r s' ok
  cases c with
  | none =>
    cases ok
    rfl
  | some k =>
    rw [foldUnary, bind_ok _ (takeBack_two k.mark s)] at ok
    obtain ⟨l, t, written, done⟩ := of_bind_ok ok
    cases done
    exact (still_emitLiteral _ _ _ _ written :)

theorem still_foldBinary (op : BinaryOp) (a b : Option Constant) : Still (foldBinary op a b) := by
  intro s r s' ok
  match a, b, ok with
  | none, _, ok =>
    cases ok
    rfl
  | some _, none, ok =>
    cases ok
    rfl
  | some k, some _, ok =>
    rw [foldBinary, bind_ok _ (takeBack_four k.mark s)] at ok
    obtain ⟨l, t, written, done⟩ := of_bind_ok ok
    cases done
    exact (still_emitLiteral _ _ _ _ written :)

theorem still_functionPlace (name : String) : Still (functionPlace name) := by
  intro s place s' ok
  obtain ⟨functions, rfl, _⟩ := functionPlace_table ok
  rfl

theorem still_checkCall (place arguments : Nat) (name : Token) :
    Still (checkCall place name arguments) := by
  intro s u s' ok
  obtain ⟨calls, rfl⟩ := checkCall_calls ok
  rfl

theorem still_variableAddress (name : Token) : Still (variableAddress name) := by
  intro s a s' ok
  obtain ⟨scope, rfl⟩ := variableAddress_scope ok
  rfl

theorem still_assignableAddress (name : Token) : Still (assignableAddress name) := by
  intro s a s' ok
  obtain ⟨scope, rfl⟩ := assignableAddress_scope ok
  rfl

theorem declareLocal_left {a : Address} (ok : declareLocal name s = .ok a s') :
    s'.left = s.left := by
  obtain ⟨x, t, current, rest⟩ := of_bind_ok ok
  obtain ⟨rfl, _⟩ := currentScope_ok current
  cases resolved : x.resolve? name.lexeme with
  | some b =>
    rw [addLocal_known resolved] at rest
    obtain ⟨_, t₁, reported, rest⟩ := of_bind_ok rest
    rw [resolved] at rest
    cases rest
    exact report_left reported
  | none =>
    rw [addLocal_new resolved] at rest
    cases rest
    rfl

theorem declaredName_mark (ok : declaredName s = .ok name s') : Mark .symbol s.left s'.left := by
  obtain ⟨tok, t, taken, ok⟩ := of_bind_ok ok
  split at ok
  · cases ok
  · cases ok
    exact expect_mark taken (by decide)

/-- What was read is a phrase of the kind. -/
structure Consumes (phrase : List Token → List Token → Prop) (s s' : Session) : Prop where
  reads : Reads s s'
  load : s'.load ≤ s.load
  phrase : phrase s.left s'.left

theorem literalValue_ok (ok : literalValue s = .ok v s') :
    Consumes SignedLiteral s s' ∧ v.isList = false := by
  obtain ⟨negative, t, sign, ok⟩ := of_bind_ok ok
  obtain ⟨tok, r, taken, ok⟩ := of_bind_ok ok
  have first := accept_reads sign
  have second := nextToken_reads taken
  obtain ⟨minus, plus⟩ := accept_left sign (by decide)
  cases literal : tok.literal? with
  | none =>
    rw [literal] at ok
    obtain ⟨_, _, _, ok⟩ := of_bind_ok ok
    cases ok
  | some w =>
    rw [literal] at ok
    have kind := Token.isLiteral_of_literal? literal
    have solid : tok.kind ≠ .endOfFile := by
      intro last
      rw [last] at kind
      cases kind
    have token := nextToken_left taken solid
    have reads := first.1.trans second.1
    cases negative with
    | false =>
      cases ok
      refine ⟨⟨reads, by omega, ?_⟩, Token.literal?_isList literal⟩
      rw [← plus rfl, token]
      exact .literal kind
    | true =>
      simp only [Bool.not_true, Bool.false_eq_true, ↓reduceIte] at ok
      split at ok
      · obtain ⟨_, _, _, ok⟩ := of_bind_ok ok
        cases ok
      · rename_i other
        cases ok
        exact ⟨⟨reads, by omega, .negative (token ▸ minus rfl) kind other⟩,
          UnaryOp.apply_isList _ _⟩

theorem literalItems_ok (n : Nat) : ∀ {s s' : Session} {items : List Value} {v : Value},
    literalItems n items s = .ok v s' → (∀ w ∈ items, w.isList = false) →
      Consumes SignedLiterals s s' ∧ v.Flat := by
  induction n with
  | zero =>
    intro s s' items v ok
    cases ok
  | succ n ih =>
    intro s s' items v ok atoms
    obtain ⟨w, t, first, ok⟩ := of_bind_ok ok
    obtain ⟨value, atom⟩ := literalValue_ok first
    have load := value.load
    have more : ∀ u ∈ items ++ [w], u.isList = false :=
      List.forall_mem_append.mpr ⟨atoms, by simpa using atom⟩
    rcases of_accept_ok ok (by decide) with ⟨r, ahead, brace, ok⟩ | ⟨r, ahead, same, ok⟩
    · cases ok
      exact ⟨⟨value.reads.trans ahead.1, by omega, .last value.phrase brace⟩, .list more⟩
    · obtain ⟨r', next, between, ok⟩ := of_expect_ok ok (by decide)
      rw [same] at between
      obtain ⟨rest, flat⟩ := ih ok more
      have left := rest.load
      exact ⟨⟨((value.reads.trans ahead.1).trans next.1).trans rest.reads, by omega,
        .more value.phrase between rest.phrase⟩, flat⟩

theorem headerValue_ok (ok : headerValue s = .ok v s') : Consumes GlobalValue s s' ∧ v.Flat := by
  rcases of_accept_ok ok (by decide) with ⟨t, first, equal, ok⟩ | ⟨t, first, same, ok⟩
  · rcases of_accept_ok ok (by decide) with ⟨r, second, brace, ok⟩ | ⟨r, second, same, ok⟩
    · rcases of_accept_ok ok (by decide) with ⟨r', third, closed, ok⟩ | ⟨r', third, same, ok⟩
      · cases ok
        exact ⟨⟨(first.1.trans second.1).trans third.1, by omega, .noItems equal brace closed⟩,
          .list (by simp)⟩
      · rw [get_bind] at ok
        obtain ⟨items, flat⟩ := literalItems_ok _ ok (by simp)
        have load := items.load
        exact ⟨⟨((first.1.trans second.1).trans third.1).trans items.reads, by omega,
          .items equal brace (same ▸ items.phrase)⟩, flat⟩
    · obtain ⟨value, atom⟩ := literalValue_ok ok
      have load := value.load
      exact ⟨⟨(first.1.trans second.1).trans value.reads, by omega,
        .constant equal (same ▸ value.phrase)⟩, .atom atom⟩
  · rcases of_accept_ok ok (by decide) with ⟨r, second, bracket, ok⟩ | ⟨r, second, still, ok⟩
    · obtain ⟨size, r₁, number, ok⟩ := of_bind_ok ok
      obtain ⟨r₂, fourth, closed, ok⟩ := of_expect_ok ok (by decide)
      cases ok
      have third := expect_reads number
      exact ⟨⟨((first.1.trans second.1).trans third.1).trans fourth.1, by omega,
        .zeros (same ▸ bracket) (expect_mark number (by decide)) closed⟩,
        .list (by simp [Value.isList])⟩
    · cases ok
      refine ⟨⟨first.1.trans second.1, by omega, ?_⟩, .atom rfl⟩
      rw [still, same]
      exact .none

theorem still_declareFunction (name : String) : Still (declareFunction name) := by
  intro s found s' ok
  obtain ⟨place, t, placed, ok⟩ := of_bind_ok ok
  rw [← still_functionPlace name _ _ _ placed]
  rw [get_bind] at ok
  generalize t.functions.entries[place]? = entry at ok
  rcases entry with _ | _ | _ | _
  all_goals
    cases ok
    rfl

end Compile

end Scriptlet
