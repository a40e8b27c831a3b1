import Scriptlet.Proofs.Rules.Steps

/-!
Expressions keep a session orderly. None of them makes an operand wait, and each reads at least
one token before it succeeds, which is what bounds the recursion: a rule that starts with less
than `n` ahead never asks for a budget above `n`.

A rule that says its code is one literal has appended an opcode and an operand, so that these are
what an operator on constants takes back.
-/
namespace Scriptlet.Compile

open Actions Source

variable {α β : Type} {b : Terms} {m n : Nat} {stops : Stop → Session → Prop} {s t u : Session}
  {k k' : Nat} {next next' inner inner' : Rule} {left right : Option Constant}
  {item item' : Compile Unit} {folded : Option Constant} {op : UnaryOp}
  {yields : Session → α → Session → Prop} {name : Token}

def Meets (b : Terms) (n : Nat) (yields : Session → α → Session → Prop) (x y : Compile α) : Prop :=
  ∀ s, Orderly b s → s.InBody → s.tokens.ahead < n →
    Concludes b (Halts b Diagnostic.Ordinary) (yields s) s (x s) (y (s.granted b))

/-- Where rules are used, and what they leave alone there. -/
structure Regime where
  place : Session → Prop
  stays : ∀ {s t}, Onward s t → place s → place t
  keeps : Session → Session → Prop
  quiet : ∀ {s t}, t.pending = s.pending → keeps s t
  trans : ∀ {s t u}, keeps s t → keeps t u → keeps s u

def Regime.formula : Regime where
  place := Session.InBody
  stays := Onward.inBody
  keeps s t := t.pending = s.pending
  quiet := id
  trans first second := second.trans first

def Regime.free (place : Session → Prop) (stays : ∀ {s t}, Onward s t → place s → place t) :
    Regime where
  place := place
  stays := stays
  keeps _ _ := True
  quiet _ := trivial
  trans _ _ := trivial

variable {r : Regime} {kind : Token.Kind} {level : BinaryOp → Bool}

def Regime.Meets (r : Regime) (b : Terms) (n : Nat) (yields : Session → α → Session → Prop)
    (x y : Compile α) :
    Prop :=
  ∀ s, Orderly b s → r.place s → s.tokens.ahead < n →
    Concludes b (Halts b Diagnostic.Ordinary) (yields s) s (x s) (y (s.granted b))

def Keeps (b : Terms) (r : Regime) (n : Nat) (x y : Compile α) :
    Prop := r.Meets b n (fun s _ => r.keeps s) x y

def Takes (b : Terms) (r : Regime) (n : Nat) (x y : Compile α) : Prop :=
  r.Meets b n (fun s _ t => r.keeps s t ∧ t.tokens.ahead < s.tokens.ahead) x y

/-- A rule that asks for itself only behind something it has read, with as much budget as is ahead.
-/
theorem Regime.Meets.recursion {ι : Type} {x y : Nat → ι → Compile α}
    (round : ∀ m k k', m < n → (∀ i, r.Meets b m yields (x k i) (y k' i)) →
      ∀ i, r.Meets b (m + 1) yields (x (k + 1) i) (y (k' + 1) i)) (bound : n ≤ k)
        (bound' : n ≤ k') (i : ι) :
    r.Meets b n yields (x k i) (y k' i) := by
  induction n generalizing k k' i with
  | zero => exact fun _ _ _ none_ => absurd none_ (Nat.not_lt_zero _)
  | succ n ih =>
    obtain _ | k := k
    · omega
    obtain _ | k' := k'
    · omega
    exact round n k k' n.lt_succ_self (fun i => ih (fun m k k' below => round m k k' (by omega))
      (by omega) (by omega) i) i

theorem Regime.Meets.rounds {x y : Nat → Compile α}
    (round : ∀ m k k', m < n → r.Meets b m yields (x k) (y k') →
      r.Meets b (m + 1) yields (x (k + 1)) (y (k' + 1)))
    (bound : n ≤ k) (bound' : n ≤ k') : r.Meets b n yields (x k) (y k') :=
  Regime.Meets.recursion (x := fun k (_ : Unit) => x k) (y := fun k _ => y k)
    (fun m k k' below again _ => round m k k' below (again ())) bound bound' ()

section

variable {x y x' y' : Compile α} {f g : α → Compile β}

theorem Regime.Meets.andThen {K : α → Prop} (first : r.Meets b n yields x y)
    (given : ∀ {s a t}, s.tokens.ahead < n → Onward s t → yields s a t →
      r.keeps s t ∧ t.tokens.ahead < m ∧ K a)
    (rest : ∀ a, K a → Keeps b r m (f a) (g a)) : Keeps b r n (x >>= f) (y >>= g) := by
  intro s orderly there few
  apply (first s orderly there few).bind
  intro a t onward calm got
  obtain ⟨kept, few', known⟩ := given few onward got
  apply ((rest a known t calm (r.stays onward there) few').rebase onward).weaken
  exact fun _ _ _ kept' => r.trans kept kept'

theorem Keeps.andThen (first : Keeps b r n x y) (rest : ∀ a, Keeps b r n (f a) (g a)) :
    Keeps b r n (x >>= f) (y >>= g) :=
  Regime.Meets.andThen (K := fun _ => True) first
    (fun few onward kept => ⟨kept, Nat.lt_of_le_of_lt onward.ahead few, trivial⟩) fun a _ => rest a

theorem Takes.andThen (first : Takes b r n x y) (below : m < n)
    (rest : ∀ a, Keeps b r m (f a) (g a)) :
    Keeps b r (m + 1) (x >>= f) (y >>= g) :=
  Regime.Meets.andThen (K := fun _ => True) (fun s orderly there few =>
    first s orderly there (by omega)) (fun few _ kept => ⟨kept.1, by omega, trivial⟩)
      fun a _ => rest a

theorem Keeps.ite {c : Prop} [Decidable c] (yes : Keeps b r n x y) (no : Keeps b r n x' y') :
    Keeps b r n (if c then x else x') (if c then y else y') :=
  fun s orderly there few => .ite (fun _ => yes s orderly there few) fun _ => no s orderly there few

theorem Keeps.pure {a : α} : Keeps b r n (pure a) (pure a) :=
  fun _ orderly _ _ => .pure orderly (r.quiet rfl)

theorem Keeps.discard (keeps : Keeps b r n x y) : Keeps b r n (discard x) (discard y) :=
  fun s orderly there few => (keeps s orderly there few).discard fun _ _ _ given => given

theorem Keeps.get {f g : Session → Compile α}
    (rest : ∀ s, Orderly b s → s.tokens.ahead < n →
      Keeps b r (s.tokens.ahead + 1) (f s) (g (s.granted b))) :
    Keeps b r n (MonadState.get >>= f) (MonadState.get >>= g) :=
  fun s orderly there few => rest s orderly few s orderly there (Nat.lt_succ_self _)

theorem Keeps.mono (keeps : Keeps b r n x y) (below : m ≤ n) : Keeps b r m x y :=
  fun s orderly there few => keeps s orderly there (Nat.lt_of_lt_of_le few below)

theorem Keeps.of_quiet
    (runs : ∀ {s}, Orderly b s → r.place s → Concludes b (Halts b Diagnostic.Ordinary)
      (yields s) s (x s) (y (s.granted b))) (quiet : ∀ {s a t}, yields s a t →
      t.pending = s.pending) : Keeps b r n x y :=
  fun _ orderly there _ => (runs orderly there).weaken fun _ _ _ given => r.quiet (quiet given)

end

structure Advances (s t : Session) : Prop where
  pending : t.pending = s.pending
  shorter : t.tokens.ahead < s.tokens.ahead

structure Formed (s : Session) (folded : Option Constant) (t : Session) :
    Prop extends Advances s t where
  single : folded.isSome = true → t.kinds = s.kinds ++ [true, false]

theorem Reads.pending (reads : Reads s t) : t.pending = s.pending := by
  obtain ⟨tokens, line, rfl⟩ := reads
  rfl

theorem Reads.kinds (reads : Reads s t) : t.kinds = s.kinds := by
  obtain ⟨tokens, line, rfl⟩ := reads
  rfl

theorem accept_keeps (solid : kind ≠ .endOfFile) : Keeps b r n (accept kind) (accept kind) :=
  .of_quiet (fun calm _ => accept_concludes solid calm) (·.1.pending)

theorem expect_keeps {p : Problem} (ordinary : p.isOrdinary = true) :
    Keeps b r n (discard (expect kind p)) (discard (expect kind p)) :=
  .discard (.of_quiet (fun calm _ => expect_concludes ordinary calm) (·.1.reads.pending))

theorem peekKind_keeps : Keeps b r n peekKind peekKind :=
  .of_quiet (fun calm _ => peekKind_concludes calm) (·.1.pending)

theorem nextToken_keeps : Keeps b r n (discard nextToken) (discard nextToken) :=
  .discard (.of_quiet (fun calm _ => nextToken_concludes calm) (·.reads.pending))

theorem emit_keeps (op : Opcode) : Keeps b r n (emit op) (emit op) :=
  .of_quiet (fun calm _ => emit_concludes op calm) (·.1.pending)

theorem emitWith_keeps (op : Opcode) (word : UInt32) :
    Keeps b r n (emitWith op word) (emitWith op word) :=
  .of_quiet (fun calm _ => emitWith_concludes op word calm) (·.pending)

theorem Formed.of_reads (reads : Reads s t) (onward : Onward s t) (formed : Formed t folded u) :
    Formed s folded u where
  pending := formed.pending.trans reads.pending
  shorter := Nat.lt_of_lt_of_le formed.shorter onward.ahead
  single constant := by rw [formed.single constant, reads.kinds]

theorem undo_kinds (s : Session) :
    ({ s with writer := s.writer.undo } : Session).kinds = s.kinds.dropLast := by
  simp [Session.kinds, CodeWriter.undo, List.map_dropLast]

theorem takenBack_concludes {writer : CodeWriter} {literals : Array Value} (start : Orderly b s)
    (onward : Onward s t) (calm : Orderly b t) (pending : t.pending = s.pending)
    (kinds : ({ t with writer, literals } : Session).kinds = s.kinds)
    (outer : writer.outer = t.writer.outer) (missed : writer.missed = t.writer.missed)
    (ranked : ∀ {line}, Ranked b.source line t.writer t.tokens →
      Ranked b.source line writer t.tokens) :
    Concludes b stops (fun _ u => u.kinds = s.kinds ∧ u.pending = s.pending ∧ u.tokens = t.tokens) s
      (.ok () { t with writer, literals })
      (.ok () (({ t with writer, literals } : Session).granted b)) := by
  have waits : ∀ a ∈ ({ t with writer, literals } : Session).pending,
      ({ t with writer, literals } : Session).kinds[a]? = some false := by
    rw [kinds]
    intro a waits
    exact start.pending a (pending ▸ waits)
  have back : Onward s { t with writer, literals } :=
    { onward with kinds := kinds ▸ List.prefix_rfl, outer := outer.trans onward.outer }
  have orderly : Orderly b { t with writer, literals } :=
    { calm with
      missed := missed.trans calm.missed
      pending := waits
      lined := { calm.lined with code := calm.lined.code.imp fun _ => ranked } }
  exact .ok back orderly ⟨kinds, pending, rfl⟩

theorem refolded_concludes {words mark : Nat} (v : Value)
    (shorter : t.tokens.ahead < s.tokens.ahead) (back : Concludes b stops
      (fun _ u => u.kinds = s.kinds ∧ u.pending = s.pending ∧ u.tokens = t.tokens) s
      (takeBack words mark t) (takeBack words mark (t.granted b))) :
    Concludes b stops (fun folded u => Formed s folded u ∧ u.tokens = t.tokens) s
      ((do takeBack words mark; some <$> emitLiteral v) t)
      ((do takeBack words mark; some <$> emitLiteral v) (t.granted b)) := by
  apply back.bind
  rintro _ u onward calm ⟨kinds, pending, tokens⟩
  apply ((emitLiteral_concludes v calm).rebase onward).map
  intro c w _ adds
  have same : w.tokens = t.tokens := adds.tokens.trans tokens
  exact ⟨⟨⟨adds.pending.trans pending, by rw [same]; exact shorter⟩,
    fun _ => by rw [adds.kinds, kinds]⟩, same⟩

theorem operator_concludes (op : Opcode) (onward : Onward s t) (calm : Orderly b t)
    (advances : Advances s t) :
    Concludes b stops (fun folded u => Formed s folded u ∧ u.tokens = t.tokens) s
      ((do let _ ← emit op; pure none : Rule) t)
      ((do let _ ← emit op; pure none : Rule) (t.granted b)) := by
  apply (emit_concludes op calm).after onward
  rintro _ u onward' calm' ⟨adds, -⟩
  have shorter := advances.shorter
  rw [← adds.tokens] at shorter
  exact .ok (onward.trans onward') calm'
    ⟨⟨⟨adds.pending.trans advances.pending, shorter⟩, fun constant => nomatch constant⟩,
      adds.tokens⟩

theorem foldUnary_concludes {operand : Option Constant} (start : Orderly b s) (onward : Onward s t)
    (calm : Orderly b t) (formed : Formed s operand t) :
    Concludes b stops (fun folded u => Formed s folded u ∧ u.tokens = t.tokens) s
      (foldUnary op operand t) (foldUnary op operand (t.granted b)) := by
  cases operand with
  | none => exact operator_concludes _ onward calm formed.toAdvances
  | some c =>
    have kinds : ({ t with writer := t.writer.undo.undo } : Session).kinds = s.kinds := by
      have last := undo_kinds { t with writer := t.writer.undo }
      rw [undo_kinds t, formed.single rfl] at last
      simpa using last
    exact refolded_concludes _ formed.shorter
      (takenBack_concludes start onward calm formed.pending kinds rfl rfl (·.undo.undo))

theorem foldBinary_concludes {op : BinaryOp} (start : Orderly b s) (onward : Onward s t)
    (calm : Orderly b t) (advances : Advances s t)
    (both : left.isSome = true → right.isSome = true →
      t.kinds = s.kinds ++ [true, false, true, false]) :
    Concludes b stops (fun folded u => Formed s folded u ∧ u.tokens = t.tokens) s
      (foldBinary op left right t) (foldBinary op left right (t.granted b)) := by
  cases left with
  | none => exact operator_concludes _ onward calm advances
  | some c =>
    cases right with
    | none => exact operator_concludes _ onward calm advances
    | some d =>
      have kinds : ({ t with writer := t.writer.undo.undo.undo.undo } : Session).kinds =
          s.kinds := by
        have last := undo_kinds { t with writer := t.writer.undo.undo.undo }
        have third := undo_kinds { t with writer := t.writer.undo.undo }
        have second := undo_kinds { t with writer := t.writer.undo }
        rw [undo_kinds t, both rfl rfl] at second
        simp only at second third last
        rw [last, third, second]
        simp
      exact refolded_concludes _ advances.shorter
        (takenBack_concludes start onward calm advances.pending kinds rfl rfl
          (·.undo.undo.undo.undo))

theorem Formed.then_reads (formed : Formed s folded t) (reads : Reads t u) (onward : Onward t u) :
    Formed s folded u where
  pending := reads.pending.trans formed.pending
  shorter := Nat.lt_of_le_of_lt onward.ahead formed.shorter
  single constant := by rw [reads.kinds, formed.single constant]

theorem Formed.both (first : Formed s left t) (second : Formed t right u) (one : left.isSome = true)
    (two : right.isSome = true) : u.kinds = s.kinds ++ [true, false, true, false] := by
  rw [second.single two, first.single one, List.append_assoc]
  rfl

theorem Formed.advances (first : Formed s left t) (second : Formed t right u) : Advances s u :=
  ⟨second.pending.trans first.pending, Nat.lt_trans second.shorter first.shorter⟩

theorem chainFrom_concludes (operand : Meets b n Formed next next')
    (start : Orderly b s) (inside : s.InBody) (few : s.tokens.ahead < n) :
    ∀ {k k' : Nat} {left : Option Constant} {t : Session}, t.tokens.ahead < k →
    t.tokens.ahead < k' → Onward s t → Orderly b t → Formed s left t →
      Concludes b (Halts b Diagnostic.Ordinary) (Formed s) s (chainFrom level next k left t)
        (chainFrom level next' k' left (t.granted b)) := by
  intro k
  induction k with
  | zero => intro _ _ _ none_; exact absurd none_ (Nat.not_lt_zero _)
  | succ k ih =>
    intro k' left t room room' onward calm formed
    obtain _ | k' := k'
    · omega
    unfold chainFrom
    apply (peekKind_concludes calm).after onward
    rintro kind t₁ onward₁ calm₁ ⟨reads₁, facing⟩
    have ended : Concludes b (Halts b Diagnostic.Ordinary) (Formed s) s (.ok left t₁)
        (.ok left (t₁.granted b)) :=
      .ok (onward.trans onward₁) calm₁ (formed.then_reads reads₁ onward₁)
    split
    · apply Concludes.ite
      · intro _
        have so_far := onward.trans onward₁
        apply (facing.take (by simp) calm₁).after so_far
        rintro _ t₂ onward₂ calm₂ ⟨reads₂, shorter⟩
        have left_read := (formed.then_reads reads₁ onward₁).then_reads reads₂ onward₂
        have so_far := so_far.trans onward₂
        apply (operand t₂ calm₂ (so_far.inBody inside) (by have := so_far.ahead; omega)).after
          so_far
        intro right t₃ onward₃ calm₃ right_read
        have so_far := so_far.trans onward₃
        apply (foldBinary_concludes start so_far calm₃ (left_read.advances right_read)
          (left_read.both right_read)).bind
        rintro folded t₄ onward₄ calm₄ ⟨formed₄, tokens⟩
        have ahead := onward₁.ahead
        have ahead' := right_read.shorter
        rw [← tokens] at ahead'
        exact ih (by omega) (by omega) onward₄ calm₄ formed₄
      · intro _
        exact ended
    · exact ended

theorem chain_meets (bound : n ≤ k) (bound' : n ≤ k') (operand : Meets b n Formed next next') :
    Meets b n Formed (chain k level next) (chain k' level next') := by
  intro s orderly inside few
  unfold chain
  apply (operand s orderly inside few).bind
  intro left t onward calm formed
  have shorter := formed.shorter
  exact chainFrom_concludes operand orderly inside few (by omega) (by omega) onward calm formed

theorem unary_concludes {m : Nat} {other other' : Rule} (solid : kind ≠ .endOfFile)
    (operand : Meets b m Formed next next') (orderly : Orderly b s) (inside : s.InBody)
    (few : s.tokens.ahead < m + 1) (tighter : ∀ t, Onward s t → Orderly b t → Reads s t →
      Concludes b (Halts b Diagnostic.Ordinary) (Formed s) s (other t) (other' (t.granted b))) :
    Concludes b (Halts b Diagnostic.Ordinary) (Formed s) s
      ((do if ← accept kind then foldUnary op (← next) else other : Rule) s)
      ((do if ← accept kind then foldUnary op (← next') else other' : Rule) (s.granted b)) := by
  apply (accept_concludes solid orderly).bind
  rintro found t onward calm ⟨reads, shorter⟩
  apply Concludes.ite
  · intro yes
    have shorter := shorter yes
    apply (operand t calm (onward.inBody inside) (by omega)).after onward
    intro operand u onward' calm' formed
    apply (foldUnary_concludes orderly (onward.trans onward') calm'
      (formed.of_reads reads onward)).weaken
    intro _ v _ given
    exact given.1
  · intro _
    exact tighter t onward calm reads

theorem negations_meets (bound : n ≤ k) (bound' : n ≤ k') (operand : Meets b n Formed next next') :
    Meets b n Formed (negations next k) (negations next' k') := by
  refine Regime.Meets.rounds (r := .formula) (fun m k k' below again s orderly inside few => ?_)
    bound bound'
  apply unary_concludes (by decide) again orderly inside few
  intro t onward calm reads
  have ahead := onward.ahead
  apply ((operand t calm (onward.inBody inside) (by omega)).rebase onward).weaken
  intro _ u _ formed
  exact formed.of_reads reads onward

theorem signed_meets (bound : n ≤ k) (bound' : n ≤ k') (operand : Meets b n Formed next next') :
    Meets b n Formed (signed next k) (signed next' k') := by
  refine Regime.Meets.rounds (r := .formula) (fun m k k' below again s orderly inside few => ?_)
    bound bound'
  apply unary_concludes (by decide) again orderly inside few
  intro t onward calm reads
  have ahead := onward.ahead
  apply (operand t calm (onward.inBody inside) (by omega)).after onward
  intro base t₁ onward₁ calm₁ formed
  have base_read := formed.of_reads reads onward
  have so_far := onward.trans onward₁
  apply (accept_concludes (by decide) calm₁).after so_far
  rintro found t₂ onward₂ calm₂ ⟨reads₂, -⟩
  have base_read := base_read.then_reads reads₂ onward₂
  have so_far := so_far.trans onward₂
  apply Concludes.ite
  · intro _
    have shorter := base_read.shorter
    apply (again t₂ calm₂ (so_far.inBody inside) (by omega)).after so_far
    intro exponent t₃ onward₃ calm₃ exponent_read
    apply (foldBinary_concludes orderly (so_far.trans onward₃) calm₃
      (base_read.advances exponent_read) (base_read.both exponent_read)).weaken
    intro _ v _ given
    exact given.1
  · intro _
    exact .ok so_far calm₂ base_read

theorem expressionOf_takes (formula : Meets b n Formed inner inner') :
    Takes b .formula n (expressionOf inner) (expressionOf inner') := by
  intro s orderly inside few
  unfold expressionOf
  apply (nextToken_concludes orderly).bind
  intro tok t onward calm took
  apply Concludes.ite
  · intro _
    apply (unget_concludes orderly calm took).bind
    intro _ u onward' calm' reads
    have ahead := onward'.ahead
    have opened : Concludes b (Halts b Diagnostic.Ordinary) (fun _ => Advances u) u.opened
        (discard inner u.opened) (discard inner' (u.opened.granted b)) :=
      (formula u.opened calm'.opened (onward'.inBody inside) (Nat.lt_of_le_of_lt ahead few)).discard
        fun _ _ _ formed => ⟨formed.pending, formed.shorter⟩
    apply (counted_concludes opened ?_).rebase onward'
    intro _ v w advances adds
    exact ⟨adds.pending.trans (advances.pending.trans reads.pending),
      by rw [adds.tokens]; exact Nat.lt_of_lt_of_le advances.shorter ahead⟩
  · intro _
    exact refuse_concludes rfl orderly calm took

section Items

variable (items : Takes b .formula n item item') {close : Token.Kind} {p : Problem}
include items

theorem itemsUntil_keeps (solid : close ≠ .endOfFile)
    (ordinary : p.isOrdinary = true) (bound : n ≤ k) (bound' : n ≤ k') :
    ∀ count, Keeps b .formula n (itemsUntil close p item k count)
      (itemsUntil close p item' k' count) := by
  refine Regime.Meets.recursion (fun m k k' below again count => ?_) bound bound'
  unfold itemsUntil
  exact items.andThen below fun _ => (accept_keeps solid).andThen fun _ =>
    .ite .pure ((expect_keeps ordinary).andThen fun _ => again _)

theorem itemsOrNone_keeps (solid : close ≠ .endOfFile)
    (ordinary : p.isOrdinary = true) (bound : n ≤ k) (bound' : n ≤ k') :
    Keeps b .formula n (itemsOrNone k close p item) (itemsOrNone k' close p item') :=
  (accept_keeps solid).andThen fun _ =>
    .ite .pure (itemsUntil_keeps items solid ordinary bound bound' 0)

theorem bareItems_keeps (bound : n ≤ k) (bound' : n ≤ k') :
    ∀ count, Keeps b .formula n (bareItems item k count) (bareItems item' k' count) := by
  refine Regime.Meets.recursion (fun m k k' below again count => ?_) bound bound'
  unfold bareItems
  exact items.andThen below fun _ => (accept_keeps (by decide)).andThen
    fun _ => .ite (again _) .pure

theorem bareItemsOrNone_keeps (bound : n ≤ k) (bound' : n ≤ k') :
    Keeps b .formula n (bareItemsOrNone k item) (bareItemsOrNone k' item') :=
  peekKind_keeps.andThen fun _ => .ite (bareItems_keeps items bound bound' 0) .pure

theorem indexes_keeps (bound : n ≤ k) (bound' : n ≤ k') :
    ∀ count, Keeps b .formula n (indexes item k count) (indexes item' k' count) := by
  refine Regime.Meets.recursion (fun m k k' below again count => ?_) bound bound'
  unfold indexes
  exact (accept_keeps (by decide)).andThen fun _ =>
    .ite (items.andThen below fun _ => (expect_keeps rfl).andThen fun _ => again _) .pure

end Items

theorem prefixed_keeps {x y : Compile Nat} (rule : Keeps b r n x y) :
    Keeps b r n (prefixedByCount x) (prefixedByCount y) := by
  intro s orderly there few
  apply prefixedByCount_concludes orderly
  · intro t onward calm adds
    apply (rule t calm (r.stays onward there) (by rw [adds.tokens]; exact few)).weaken
    exact fun _ _ _ given => r.trans (r.quiet adds.pending) given
  · exact fun _ _ _ given adds => r.trans given (r.quiet adds.pending)

theorem indexPath_keeps (items : Takes b .formula n item item') (bound : n ≤ k) (bound' : n ≤ k') :
    Keeps b .formula n (indexPath k item) (indexPath k' item') :=
  (prefixed_keeps (indexes_keeps items bound bound' 0)).discard

theorem callOf_keeps {op : Opcode} {arguments arguments' : Compile Nat}
    (known : Known b.source name.line) (rule : Keeps b r n arguments arguments') :
    Keeps b r n (callOf op name arguments) (callOf op name arguments') := by
  intro s orderly there few
  unfold callOf
  apply (functionPlace_concludes name.lexeme orderly).bind
  rintro place t₁ onward₁ calm₁ ⟨adds₁, entered⟩
  apply (emitWith_concludes op _ calm₁).after onward₁
  intro _ t₂ onward₂ calm₂ adds₂
  have so_far := onward₁.trans onward₂
  have ahead := so_far.ahead
  apply (prefixed_keeps rule t₂ calm₂ (r.stays so_far there) (by omega)).after so_far
  intro count t₃ onward₃ calm₃ kept
  have entered := Nat.lt_of_lt_of_le entered (onward₂.trans onward₃).functions
  apply ((checkCall_concludes known count calm₃ entered).rebase (so_far.trans onward₃)).weaken
  intro _ u _ adds
  exact r.trans (r.quiet (adds₂.pending.trans adds₁.pending)) (r.trans kept (r.quiet adds.pending))

theorem variableAddress_keeps (known : Known b.source name.line) :
    Keeps b .formula n (variableAddress name) (variableAddress name) :=
  .of_quiet (variableAddress_concludes known) (·.pending)

theorem symbolOperand_keeps (known : Known b.source name.line)
    (items : Takes b .formula n item item') (bound : n ≤ k) (bound' : n ≤ k') :
    Keeps b .formula n (symbolOperand k item name) (symbolOperand k' item' name) := by
  unfold symbolOperand
  refine peekKind_keeps.andThen fun kind => ?_
  split
  · exact nextToken_keeps.andThen fun _ =>
      callOf_keeps known (itemsOrNone_keeps items (by decide) rfl bound bound')
  · exact (variableAddress_keeps known).andThen fun _ => (emitWith_keeps _ _).andThen fun _ =>
      indexPath_keeps items bound bound'
  · exact .get fun _ _ _ => .ite (callOf_keeps known .pure)
      ((variableAddress_keeps known).andThen fun _ => emitWith_keeps _ _)

theorem listInitializer_keeps (items : Takes b .formula n item item') (bound : n ≤ k)
    (bound' : n ≤ k') :
    Keeps b .formula n (listInitializer k item) (listInitializer k' item') :=
  (emit_keeps _).andThen fun _ =>
    (prefixed_keeps (itemsOrNone_keeps items (by decide) rfl bound bound')).discard

theorem literal_cost {tok : Token} {v : Value} (literal : tok.literal? = some v) :
    tok.cost = 1 := by
  unfold Token.literal? at literal
  split at literal
  · exact cost_of_kind ‹_› (by decide)
  · exact cost_of_kind ‹_› (by decide)
  · exact cost_of_kind ‹_› (by decide)
  · cases literal

theorem operand_meets (formula : Meets b n Formed inner inner') (bound : n ≤ k) (bound' : n ≤ k') :
    Meets b (n + 1) Formed (operand k inner) (operand k' inner') := by
  intro s orderly inside few
  have items := expressionOf_takes formula
  unfold operand
  apply (nextToken_concludes orderly).bind
  intro tok t onward calm took
  have inside' := onward.inBody inside
  have spent := took.spent
  cases literal : tok.literal? with
  | some v =>
    rw [literal_cost literal] at spent
    apply ((emitLiteral_concludes v calm).rebase onward).map
    intro c u _ adds
    exact ⟨⟨adds.pending.trans took.reads.pending, by rw [adds.tokens]; exact spent⟩, fun _ => by
      rw [adds.kinds, took.reads.kinds]⟩
  | none =>
    simp only
    generalize same : tok.kind = kind
    -- code other than a literal
    have written {x y : Compile Unit} (solid : kind ≠ .endOfFile) (keeps : Keeps b .formula n x y) :
        Concludes b (Halts b Diagnostic.Ordinary) (Formed s) s ((do x; pure none : Rule) t)
          ((do y; pure none : Rule) (t.granted b)) := by
      rw [cost_of_kind same solid] at spent
      apply (keeps t calm inside' (by omega)).after onward
      intro _ t₁ onward₁ calm₁ pending
      have ahead := onward₁.ahead
      exact .ok (onward.trans onward₁) calm₁ ⟨⟨pending.trans took.reads.pending, by omega⟩,
        fun constant => nomatch constant⟩
    split
    · rw [cost_of_kind same (by decide)] at spent
      apply (formula t calm inside' (by omega)).after onward
      intro folded t₁ onward₁ calm₁ formed
      apply (discard_expect_concludes rfl (by decide) calm₁).after (onward.trans onward₁)
      rintro _ t₂ onward₂ calm₂ ⟨reads₂, -⟩
      exact .ok ((onward.trans onward₁).trans onward₂) calm₂
        ((formed.of_reads took.reads onward).then_reads reads₂ onward₂)
    · exact written (by decide) (listInitializer_keeps items bound bound')
    · exact written (by decide) (symbolOperand_keeps took.known items bound bound')
    · exact refuse_concludes rfl orderly calm took

theorem levels_meets (formula : Meets b n Formed inner inner') (bound : n + 1 ≤ k)
    (bound' : n + 1 ≤ k') :
    Meets b (n + 1) Formed (levels k inner) (levels k' inner') := by
  have operands := operand_meets formula (Nat.le_of_succ_le bound) (Nat.le_of_succ_le bound')
  unfold levels
  apply chain_meets bound bound'
  apply chain_meets bound bound'
  apply negations_meets bound bound'
  apply chain_meets bound bound'
  apply chain_meets bound bound'
  apply chain_meets bound bound'
  apply chain_meets bound bound'
  exact signed_meets bound bound' operands

/-- A budget above what is ahead is enough for a formula, however deep it is nested. -/
theorem formula_meets :
    ∀ {n k k' : Nat}, n < k → n < k' → Meets b n Formed (formula k) (formula k') := by
  intro n
  induction n with
  | zero => exact fun _ _ s _ _ none_ => absurd none_ (Nat.not_lt_zero _)
  | succ n ih =>
    intro k k' bound bound'
    obtain _ | k := k
    · omega
    obtain _ | k' := k'
    · omega
    exact levels_meets (ih (by omega) (by omega)) (by omega) (by omega)

theorem openFormula_concludes (orderly : Orderly b s) (inside : s.InBody) :
    Finishes b (Halts b Diagnostic.Ordinary) (Formed s) s openFormula :=
  formula_meets orderly.room orderly.enough s orderly inside (Nat.lt_succ_self _)

theorem expression_takes : Takes b .formula n expression expression :=
  fun s orderly inside _ =>
    expressionOf_takes (formula_meets orderly.room orderly.enough) s orderly inside
      (Nat.lt_succ_self _)

end Scriptlet.Compile
