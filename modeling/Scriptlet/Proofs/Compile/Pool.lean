import Scriptlet.Proofs.Compile.Listings
import Scriptlet.Proofs.Source.Constants

/-!
The literals of a compiled program are those that its code refers to. Every rule that adds a value
to the pool leaves a token behind that refers to it, and when a value is taken back with the code
that needed it, what is left in the pool is still what the code before it refers to. A listing notes
every token of the code, so the literals in it refer to the pool and to the whole pool.
-/
namespace Scriptlet

open Code

variable {p : Program} {b : Body} {a n : Nat}

namespace Code

variable {r : References}

mutual

theorem Term.Valid.literals : (t : Term) → t.Valid r → ∀ i ∈ t.literals, r.literal i
  | .literal place, valid, i, member => by
    rw [Term.literals, List.mem_singleton] at member
    rw [Term.Valid] at valid
    exact member ▸ valid
  | .load _, _, i, member => by simp [Term.literals] at member
  | .binary _, _, i, member => by simp [Term.literals] at member
  | .unary _, _, i, member => by simp [Term.literals] at member
  | .compound _ parts, valid, i, member => by
    rw [Term.literals] at member
    rw [Term.Valid] at valid
    exact partsValid_literals parts valid.2 i member

theorem termsValid_literals :
    (ts : List Term) → termsValid r ts → ∀ i ∈ termsLiterals ts, r.literal i
  | [], _, i, member => by simp [termsLiterals] at member
  | t :: ts, valid, i, member => by
    rw [termsLiterals] at member
    rw [termsValid] at valid
    rcases List.mem_append.mp member with first | later
    · exact Term.Valid.literals t valid.1 i first
    · exact termsValid_literals ts valid.2 i later

theorem partsValid_literals :
    (fs : List (List Term)) → partsValid r fs → ∀ i ∈ partsLiterals fs, r.literal i
  | [], _, i, member => by simp [partsLiterals] at member
  | f :: fs, valid, i, member => by
    rw [partsLiterals] at member
    rw [partsValid] at valid
    rcases List.mem_append.mp member with first | later
    · exact termsValid_literals f valid.1.2 i first
    · exact partsValid_literals fs valid.2 i later

end

end Code

namespace Listing

variable {below act act' : Walking Unit} {depth : Nat} {saved : List Nat}
  {es es' es'' : Array Entry} {w : Walk} {ws ws' : List UInt32} {places more : List Nat}
  {op : Opcode}

variable (p) in
def Refers (e : Entry) (i : Nat) : Prop :=
  e.op = .literal ∧ p.words[e.ip + 1]?.map UInt32.toNat = some i

variable (p) in
/-- Entries have been added, and the literals among them refer to these places and to all of them.
-/
structure Cites (es es' : Array Entry) (places : List Nat) : Prop where
  kept : ∀ e ∈ es, e ∈ es'
  cited : ∀ e ∈ es', e ∈ es ∨ (e.op = .literal → ∃ i ∈ places, Refers p e i)
  all : ∀ i ∈ places, ∃ e ∈ es', Refers p e i

namespace Cites

theorem refl (es : Array Entry) : Cites p es es [] :=
  ⟨fun _ => id, fun _ => Or.inl, by simp⟩

theorem trans (first : Cites p es es' places) (second : Cites p es' es'' more) :
    Cites p es es'' (places ++ more) := by
  refine ⟨fun e member => second.kept e (first.kept e member), fun e member => ?_,
    fun i member => ?_⟩
  · rcases second.cited e member with old | new
    · refine (first.cited e old).imp_right fun refers literal => ?_
      obtain ⟨i, member, refers⟩ := refers literal
      exact ⟨i, List.mem_append_left _ member, refers⟩
    · refine Or.inr fun literal => ?_
      obtain ⟨i, member, refers⟩ := new literal
      exact ⟨i, List.mem_append_right _ member, refers⟩
  · rcases List.mem_append.mp member with old | new
    · obtain ⟨e, member, refers⟩ := first.all i old
      exact ⟨e, second.kept e member, refers⟩
    · exact second.all i new

variable {e : Entry}

theorem push (cited : e.op = .literal → ∃ i ∈ places, Refers p e i)
    (all : ∀ i ∈ places, Refers p e i) : Cites p es (es.push e) places := by
  refine ⟨fun _ => Array.mem_push_of_mem _, fun f member => ?_, fun i member => ?_⟩
  · rcases Array.mem_push.mp member with old | rfl
    · exact Or.inl old
    · exact Or.inr cited
  · exact ⟨e, Array.mem_push_self, all i member⟩

theorem other (is : e.op = op) (other : op ≠ .literal) : Cites p es (es.push e) [] :=
  push (fun literal => absurd (is.symm.trans literal) other) (by simp)

end Cites

variable (p) in
/-- A walk over these words ends behind them, and the literals that it notes refer to these places.
-/
def Covers (act : Walking Unit) (ws : List UInt32) (places : List Nat) : Prop :=
  ∀ ⦃a : Nat⦄ ⦃saved : List Nat⦄ ⦃es : Array Entry⦄ ⦃w : Walk⦄, Holds p.words a ws →
    act ⟨⟨a, saved⟩, es⟩ = .ok () w → w.cursor = ⟨a + ws.length, saved⟩ ∧
    Cites p es w.entries places

theorem times_covers (one : Covers p act ws places) (rest : Covers p (times act n) ws' more) :
    Covers p (times act (n + 1)) (ws ++ ws') (places ++ more) := by
  intro a saved es w holds walked
  obtain ⟨_, ⟨cursor, es'⟩, first, walked⟩ := Actions.of_bind_ok walked
  obtain ⟨rfl, cites⟩ := one holds.append.1 first
  obtain ⟨cursor, cites'⟩ := rest holds.append.2 walked
  refine ⟨?_, cites.trans cites'⟩
  rw [cursor, List.length_append, Nat.add_assoc]

theorem times_covers_zero : Covers p (times act 0) [] [] := by
  intro a saved es w _ walked
  cases walked
  exact ⟨rfl, .refl es⟩

theorem token_noted {found : Option Instruction} {c : Nat} (front : Holds p.words a (op.word :: ws))
    (gives : (Cursor.token p.words).Gives a found c)
    (walked : token p below depth ⟨⟨a, saved⟩, es⟩ = .ok () w) :
    ∃ e : Entry, e.ip = a ∧ e.op = op ∧
      times below (expressionsOf found) ⟨⟨c, saved⟩, es.push e⟩ = .ok () w := by
  rcases token_walks with ⟨e, d, fails, -⟩ | ⟨found', d, entry, gives', ⟨at_, _, first⟩, walks⟩
  · exact absurd fails gives.not_fails
  · obtain ⟨rfl, rfl⟩ := gives.unique gives'
    obtain ⟨is, -⟩ := first.unique (Cursor.opcode_gives front)
    exact ⟨entry, at_, is, walks ▸ walked⟩

theorem simple_covers (other : op ≠ .literal) (gives : ∀ {a}, Holds p.words a (op.word :: ws) →
      (Cursor.token p.words).Gives a none (a + (ws.length + 1))) :
    Covers p (token p below depth) (op.word :: ws) [] := by
  intro a saved es w holds walked
  obtain ⟨e, -, is, walked⟩ := token_noted holds (gives holds) walked
  cases walked
  exact ⟨rfl, .other is other⟩

theorem literal_covers {i : Nat} (small : i < 2 ^ 32) :
    Covers p (token p below depth) [Opcode.literal.word, .ofNat i] [i] := by
  intro a saved es w holds walked
  obtain ⟨e, rfl, is, walked⟩ := token_noted holds (Cursor.literal_gives small holds) walked
  cases walked
  have refers : Refers p e i := by
    refine ⟨is, ?_⟩
    rw [holds.tail.head, Option.map_some, UInt32.toNat_ofNat_of_lt' small]
  exact ⟨rfl, .push (fun _ => ⟨i, List.mem_singleton_self i, refers⟩)
    fun j same => List.mem_singleton.mp same ▸ refers⟩

mutual

theorem term_covers (sound : p.Sound) :
    (t : Term) → t.Valid (b.references p) → (levels depth : Nat) →
    Covers p (token p (expression p levels (depth + 1)) depth) t.words t.literals
  | .literal place, valid, levels, depth => by
    rw [Term.words, Term.literals]
    rw [Term.Valid] at valid
    exact literal_covers (Nat.lt_of_lt_of_le valid sound.literals)
  | .load slot, valid, levels, depth => by
    rw [Term.words, Term.literals]
    rw [Term.Valid] at valid
    exact simple_covers (by simp) (Cursor.load_gives valid.2)
  | .binary op, _, levels, depth => by
    rw [Term.words, Term.literals]
    exact simple_covers (by simp) fun holds =>
      Cursor.headed_gives (Cursor.opcode_gives holds) fun _ => rfl
  | .unary op, _, levels, depth => by
    rw [Term.words, Term.literals]
    exact simple_covers (by simp) fun holds =>
      Cursor.headed_gives (Cursor.opcode_gives holds) fun _ => rfl
  | .compound head parts, valid, levels, depth => by
    intro a saved es w holds walked
    rw [Term.Valid] at valid
    rw [Term.words] at holds ⊢
    rw [Term.literals]
    obtain ⟨front, behind⟩ := holds.append
    have fits := sound.head_fits valid.1
    have few := few_of_holds sound behind (partsWords_length_le parts)
    have gives := Cursor.head_gives fits few front
    rw [head.words_eq] at front
    obtain ⟨e, -, is, walked⟩ := token_noted front gives walked
    obtain ⟨cursor, cites⟩ := parts_covers sound parts valid.2 levels (depth + 1) behind walked
    refine ⟨by rw [cursor, List.length_append, Nat.add_assoc], ?_⟩
    exact (Cites.other is (by cases head <;> simp [Head.opcode])).trans cites

theorem terms_covers (sound : p.Sound) : (ts : List Term) → termsValid (b.references p) ts →
    (levels depth : Nat) →
    Covers p (times (token p (expression p levels (depth + 1)) depth) ts.length) (termsWords ts)
      (termsLiterals ts)
  | [], _, _, _ => by
    rw [termsWords, termsLiterals]
    exact times_covers_zero
  | t :: ts, valid, levels, depth => by
    rw [termsValid] at valid
    rw [termsWords, termsLiterals]
    exact times_covers (term_covers sound t valid.1 levels depth)
      (terms_covers sound ts valid.2 levels depth)

theorem parts_covers (sound : p.Sound) : (fs : List (List Term)) → partsValid (b.references p) fs →
    (levels depth : Nat) →
    Covers p (times (expression p levels depth) fs.length) (partsWords fs) (partsLiterals fs)
  | [], _, _, _ => by
    rw [partsWords, partsLiterals]
    exact times_covers_zero
  | f :: fs, valid, levels, depth => by
    rw [partsValid] at valid
    have one : Covers p (expression p levels depth) (.ofNat f.length :: termsWords f)
        (termsLiterals f) := by
      intro a saved es w holds walked
      cases levels with
      | zero => cases walked
      | succ levels =>
        have few := few_of_holds sound holds.tail (termsWords_length_le f)
        rw [expression, Actions.bind_ok _ (read_ok (Cursor.number_gives few holds))] at walked
        obtain ⟨cursor, cites⟩ := terms_covers sound f valid.1.2 levels depth holds.tail walked
        refine ⟨?_, cites⟩
        rw [cursor, List.length_cons, Nat.add_assoc, Nat.add_comm 1]
    rw [partsWords, partsLiterals]
    exact times_covers one (parts_covers sound fs valid.2 levels depth)

end

theorem statement_covers (sound : p.Sound) {x : Statement} (valid : x.Valid (b.references p))
    (inside : ∀ t, x.target? = some t → ∃ a ≤ p.words.size, t = .ip a) :
    Covers p (statement p) (x.words Target.word) (partsLiterals x.parts) := by
  intro a saved es w holds walked
  obtain ⟨c, gives, parts, size⟩ := statement_front sound holds valid inside
  rcases statement_walks with ⟨e, d, fails, -⟩ | ⟨i, d, op, text, gives', ⟨_, first⟩, walks⟩
  · exact absurd fails gives.not_fails
  · obtain ⟨same, rfl⟩ := gives.unique gives'
    obtain rfl := Option.some.inj same
    rw [walks, x.instruction_expressions] at walked
    obtain ⟨cursor, cites⟩ := parts_covers sound x.parts valid.parts _ _ parts walked
    refine ⟨by rw [cursor, size, x.words_length], (Cites.other rfl ?_).trans cites⟩
    rintro rfl
    exact gives.not_fails (Cursor.headed_fails first (Cursor.statementRest_refused rfl))

theorem statements_cite (sound : p.Sound) (row : List Statement)
    (valid : ∀ x ∈ row, x.Valid (b.references p) ∧ ∀ t, x.target? = some t → ∃ a ≤ p.words.size,
      t = .ip a) :
    ∀ {a n : Nat} {saved : List Nat} {es : Array Entry} {w : Walk},
      Holds p.words a (rowWords Target.word row) → p.words.size ≤ a + n →
      statements p n ⟨⟨a, saved⟩, es⟩ = .ok () w → ∃ n' es', p.words.size ≤ a + rowSize row + n' ∧
        statements p n' ⟨⟨a + rowSize row, saved⟩, es'⟩ = .ok () w ∧
        Cites p es es' (rowLiterals row) := by
  induction row with
  | nil => exact fun _ enough walked => ⟨_, _, enough, walked, .refl _⟩
  | cons x row ih =>
    intro a n saved es w holds enough walked
    obtain ⟨⟨here, inside⟩, valid⟩ := List.forall_mem_cons.mp valid
    rw [rowWords_cons] at holds
    have size := x.size_pos
    have front := holds.append.1
    have behind := holds.append.2
    have room := front.le_size
    rw [x.words_length] at behind room
    obtain _ | n := n
    · omega
    obtain ⟨es₁, stands⟩ := statement_carries saved es (statement_spans sound front here inside)
    obtain ⟨-, cites⟩ := statement_covers sound here inside front stands
    rw [statements_more (by omega) stands] at walked
    obtain ⟨n', es', enough, walked, others⟩ := ih valid behind (by omega) walked
    rw [rowSize_cons, ← Nat.add_assoc]
    exact ⟨n', es', enough, walked, cites.trans others⟩

theorem bodies_cite (sound : p.Sound) (bs : List Body) (sounds : ∀ b ∈ bs, b.Sound p) :
    ∀ {a n : Nat} {saved : List Nat} {es : Array Entry} {w : Walk}, Body.Paves a bs p.words.size →
      p.words.size ≤ a + n → statements p n ⟨⟨a, saved⟩, es⟩ = .ok () w →
      Cites p es w.entries (bs.flatMap fun b => rowLiterals b.row) := by
  induction bs with
  | nil =>
    rintro a n saved es w rfl _ walked
    rw [statements_done] at walked
    cases walked
    exact .refl es
  | cons b bs ih =>
    rintro a n saved es w ⟨rfl, paves⟩ enough walked
    obtain ⟨body, sounds⟩ := List.forall_mem_cons.mp sounds
    have valid : ∀ x ∈ b.row ++ [Statement.final], x.Valid (b.references p) ∧
        ∀ t, x.target? = some t → ∃ a ≤ p.words.size, t = .ip a := by
      refine List.forall_mem_append.mpr ⟨fun x member => ⟨body.valid x member, fun t aims => ?_⟩,
        ?_⟩
      · obtain ⟨a, there, rfl⟩ := body.targets x member t aims
        exact ⟨a, body.inRange there, rfl⟩
      · exact List.forall_mem_singleton.mpr
          ⟨Statement.final_valid _, by simp [Statement.final, Statement.target?]⟩
    obtain ⟨n', es', enough, walked, cites⟩ :=
      statements_cite sound (b.row ++ [Statement.final]) valid body.placed enough walked
    have row : rowLiterals (b.row ++ [Statement.final]) = rowLiterals b.row := by
      rw [rowLiterals_append, List.append_right_eq_self]
      rfl
    rw [row] at cites
    rw [List.flatMap_cons]
    exact cites.trans (ih sounds paves enough walked)

theorem entries_cite (sound : p.Sound) {bs : List Body} (sounds : ∀ b ∈ bs, b.Sound p)
    (paves : Body.Paves 0 bs p.words.size) (listed : p.entries = .ok es) :
    Cites p #[] es (bs.flatMap fun b => rowLiterals b.row) := by
  rw [Program.entries] at listed
  cases walked : statements p p.words.size ⟨.start, #[]⟩ with
  | error e w =>
    rw [walked] at listed
    cases listed
  | ok u w =>
    rw [walked] at listed
    cases listed
    exact bodies_cite sound bs sounds paves (Nat.le_add_left _ 0) walked

end Listing

theorem Binary64.same_comm (x y : Binary64) : x.same y = y.same x := by
  rw [same, same, Bool.and_comm (!x.isNaN), BEq.comm]

theorem Atom.same_comm (x y : Atom) : x.same y = y.same x := by
  cases x <;> cases y <;> simp only [same, BEq.comm, Binary64.same_comm]

mutual

theorem Value.same_comm : (v w : Value) → v.same w = w.same v
  | .atom a, .atom b => by
    rw [Value.same, Value.same]
    exact a.same_comm b
  | .list vs, .list ws => by
    rw [Value.same, Value.same]
    exact Value.sameAll_comm vs ws
  | .atom _, .list _ => rfl
  | .list _, .atom _ => rfl

theorem Value.sameAll_comm : (vs ws : List Value) → Value.sameAll vs ws = Value.sameAll ws vs
  | [], [] => rfl
  | [], _ :: _ => rfl
  | _ :: _, [] => rfl
  | v :: vs, w :: ws => by
    rw [Value.sameAll, Value.sameAll, Value.same_comm v w, Value.sameAll_comm vs ws]

end

namespace Compile

theorem Distinct.different {pool : Array Value} (distinct : Distinct pool) {i j : Nat} {v w : Value}
    (other : i ≠ j) (first : pool[i]? = some v) (second : pool[j]? = some w) :
    v.same w = false := by
  have ordered : ∀ {i j : Nat} {v w : Value}, i < j → pool[i]? = some v → pool[j]? = some w →
      v.same w = false := by
    intro i j v w before first second
    obtain ⟨inside, rfl⟩ := Array.getElem?_eq_some_iff.mp first
    obtain ⟨there, rfl⟩ := Array.getElem?_eq_some_iff.mp second
    exact List.pairwise_iff_getElem.mp distinct i j inside there before
  rcases Nat.lt_or_gt_of_ne other with before | behind
  · exact ordered before first second
  · rw [Value.same_comm]
    exact ordered behind second first

variable {host : Registry} {options : Options} {source : String}

theorem compile_cites (built : Registry.Built host) (ok : compile host options source = .ok p)
    (short : source.length < 2 ^ 32) (small : p.Small) :
    ∃ es places, p.entries = .ok es ∧ Listing.Cites p #[] es places ∧
      (∀ i ∈ places, i < p.literals.size) ∧ Fills #[] p.literals places := by
  have sound := compile_sound built ok short small
  obtain ⟨es, -, listed, -⟩ := compile_listed built ok short small
  obtain ⟨t, place, bs, assembled, -⟩ := compile_assembled built ok
  obtain ⟨paves, sounds, -⟩ := assembled.paves short small
  refine ⟨es, _, listed, Listing.entries_cite sound sounds paves listed, fun i member => ?_, ?_⟩
  · obtain ⟨b, listed, member⟩ := List.mem_flatMap.mp member
    obtain ⟨x, statement, member⟩ := List.mem_flatMap.mp member
    exact partsValid_literals x.parts ((sounds b listed).valid x statement).parts i member
  · rw [assembled.makes.literals]
    exact assembled.paved.stocked.mono fun i member => List.mem_append_right _ member

/-- The pool is what the code needs. Every literal in a listing of a compiled program has a place of
the pool as its operand, every place of the pool is the operand of one, and no two values of the
pool are the same. What an operand refers to is what the source wants there: the expressions in the
code are those of the source one by one, and each of them is rendered from its tree with the values
that the pool has in the end, whatever has been folded and taken back in between. -/
theorem pool_exact (built : Registry.Built host) (ok : compile host options source = .ok p)
    (short : source.length < 2 ^ 32) (small : p.Small) : ∃ es, p.entries = .ok es ∧
      (∀ e ∈ es, e.op = .literal → ∃ i < p.literals.size, Listing.Refers p e i) ∧
      (∀ i < p.literals.size, ∃ e ∈ es, Listing.Refers p e i) ∧
      (∀ (i j : Nat) (v w : Value), i ≠ j → p.literals[i]? = some v → p.literals[j]? = some w →
        v.same w = false) ∧
      ∃ (main : Nat) (outlines : List Grammar.Outline) (phrases : List Grammar.Phrase),
        p.words.toList = rowWords Target.word [.plain (.call main []), Statement.final] ++
          outlines.flatMap Grammar.Outline.words ∧
        Grammar.SourceExpresses (TokenStream.ofSource source).remaining phrases ∧
        Grammar.RendersAll p.literals phrases (outlines.flatMap Grammar.Outline.expressions) := by
  obtain ⟨es, places, listed, cites, inside, fills⟩ := compile_cites built ok short small
  obtain ⟨main, outlines, sourced, words⟩ := compile_sourced ok
  obtain ⟨phrases, expresses, renders⟩ := sourced.expresses
  refine ⟨es, listed, fun e member literal => ?_, fun i inside => ?_, ?_,
    main, outlines, phrases, words, expresses, renders⟩
  · rcases cites.cited e member with none_ | refers
    · simp at none_
    · obtain ⟨i, member, refers⟩ := refers literal
      exact ⟨i, inside i member, refers⟩
  · exact cites.all i (fills.covers i (Nat.zero_le i) inside)
  · exact fun i j v w other => (fills.distinct .nil).different other

def sharedConstants : String :=
  "Main() \x7b for i = 2 + 3 to 9 step 5 x = \x7b i, 6 - 1 \x7d & 9 \n return x \x7d"

theorem pool_exact_shared : ∃ (p : Program) (es : Array Listing.Entry),
      compile .empty ⟨45, true, false, []⟩ sharedConstants = .ok p ∧
      p.literals.toList.map Value.describe = ["Integer(5)", "Integer(9)"] ∧ p.entries = .ok es ∧
      (∀ e ∈ es, e.op = .literal → ∃ i < 2, Listing.Refers p e i) ∧
      (∀ i < 2, ∃ e ∈ es, Listing.Refers p e i) ∧
      ∃ (outlines : List Grammar.Outline) (phrases : List Grammar.Phrase),
        Grammar.SourceExpresses (TokenStream.ofSource sharedConstants).remaining phrases ∧
        Grammar.RendersAll p.literals phrases (outlines.flatMap Grammar.Outline.expressions) := by
  have compiled : ((compile .empty ⟨45, true, false, []⟩ sharedConstants).toOption.any fun p =>
      decide (p.Small ∧ p.literals.toList.map Value.describe = ["Integer(5)", "Integer(9)"])) =
        true := by
    decide +kernel
  cases ok : compile .empty ⟨45, true, false, []⟩ sharedConstants with
  | error ds =>
    rw [ok] at compiled
    cases compiled
  | ok p =>
    rw [ok] at compiled
    obtain ⟨small, values⟩ := of_decide_eq_true compiled
    have size : p.literals.size = 2 := by simpa using congrArg List.length values
    obtain ⟨es, listed, inside, all, -, main, outlines, phrases, -, expresses, renders⟩ :=
      pool_exact .empty ok (by decide) small
    exact ⟨p, es, rfl, values, listed, size ▸ inside, size ▸ all, outlines, phrases,
      expresses, renders⟩

end Compile

end Scriptlet
