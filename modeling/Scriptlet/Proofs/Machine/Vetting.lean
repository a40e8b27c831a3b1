import Scriptlet.Proofs.Machine.Charts

/-!
Instructions that all have a property. If every instruction among the statements of a chart has it
at its address, then so has every instruction that is listed and every one that is executed, and an
instruction is completed with as many values as it has expressions. So a call gets the number of
arguments that stands in the code, whatever has failed before it.
-/
namespace Scriptlet

open Actions

namespace Cursor

variable {words : Array UInt32} {a b c n : Nat} {op : Opcode} {found : Option Instruction}
  {i : Instruction}

theorem number_word (gives : (number words).Gives a n b) :
    b = a + 1 ∧ ∃ w, words[a]? = some w ∧ w.toNat = n := by
  have read := gives []
  cases there : words[a]? with
  | none =>
    have missing : Reading.of (word words) ⟨a, []⟩ = .error (.endOfStream a) ⟨a, []⟩ := by
      simp only [Reading.of, word, there]
    rw [number, bind_error _ missing] at read
    cases read
  | some w =>
    have first : Reading.of (word words) ⟨a, []⟩ = .ok w ⟨a + 1, []⟩ := by
      simp only [Reading.of, word, there]
    rw [number, bind_ok _ first] at read
    cases read
    exact ⟨rfl, w, rfl, rfl⟩

theorem call_words {ip : Nat} (calls : op = .callStatement ∨ op = .call)
    (gives : (instruction words op ip).Gives a (some i) b) :
    ∃ place count, i = ⟨op, ip, .function place.toNat, count.toNat⟩ ∧
      words[a]? = some place ∧ words[a + 1]? = some count := by
  have read : (number words >>= fun place => number words >>= fun n =>
      pure (some ⟨op, ip, .function place, n⟩)) ⟨a, []⟩ = .ok (some i) ⟨b, []⟩ := by
    rcases calls with rfl | rfl <;> exact gives []
  rcases @number_onward words a with ⟨n, c, -, -, first⟩ | ⟨e, c, -, -, fails⟩
  · obtain ⟨rfl, w, there, rfl⟩ := number_word first
    rcases @number_onward words (a + 1) with ⟨k, d, -, -, second⟩ | ⟨e, d, -, -, fails⟩
    · obtain ⟨rfl, v, next, rfl⟩ := number_word second
      rw [bind_ok _ (first []), bind_ok _ (second [])] at read
      cases read
      exact ⟨w, v, rfl, there, next⟩
    · rw [bind_ok _ (first []), bind_error _ (fails [])] at read
      cases read
  · rw [bind_error _ (fails [])] at read
    cases read

end Cursor

namespace Listing

variable {p : Program} {Q : Nat → Instruction → Prop} {a b : Nat}
  {saved : List Nat} {es : Array Entry} {w : Walk} {starts : List Nat} {W : Address → Prop}

theorem statement_vouches {i : Instruction} (vetted : Vetted.Statement p.words Q a i b)
    (walked : statement p ⟨⟨a, saved⟩, es⟩ = .ok () w) :
    w.cursor = ⟨b, saved⟩ ∧ ∀ e ∈ w.entries, e ∈ es ∨ Vouched p Q e := by
  obtain ⟨d, gives, property, vetted⟩ := vetted
  rcases statement_walks with ⟨e, c, -, walks⟩ | ⟨j, d', op, text, gives', ⟨c, first⟩, walks⟩
  · rw [walks] at walked
    cases walked
  · rw [walks] at walked
    obtain ⟨same, rfl⟩ := gives.unique gives'
    cases same
    obtain ⟨same, -, -, vouches⟩ :=
      times_follows (expression_follows (p.words.size + 1) 1) i.expressions walked
    obtain ⟨vetted, new⟩ := vouches vetted
    have ended := Spans.nil_iff.mp vetted.of_parts_zero.spans
    refine ⟨by rw [← ended, ← same], fun e member => ?_⟩
    rcases new e member with old | vouched
    · rcases Array.mem_push.mp old with old | rfl
      · exact Or.inl old
      · have rest := Cursor.statement_instruction gives first
        obtain rfl := Cursor.opcode_next first
        exact Or.inr ⟨⟨rfl, _, first⟩, fun _ => ⟨i, d, rest, property⟩⟩
    · exact Or.inr vouched

theorem statements_vouch (charted : Charted p starts W)
    (vetted : ∀ c ∈ starts, ∃ i b, Vetted.Statement p.words Q c i b) (n : Nat) :
    ∀ {a : Nat} {saved : List Nat} {es : Array Entry} {w : Walk}, a ∈ starts ∨ a = p.words.size →
      statements p n ⟨⟨a, saved⟩, es⟩ = .ok () w → ∀ e ∈ w.entries, e ∈ es ∨ Vouched p Q e := by
  induction n with
  | zero =>
    intro a saved es w _ walked e member
    cases walked
    exact Or.inl member
  | succ n ih =>
    intro a saved es w next walked e member
    rcases next with start | rfl
    · obtain ⟨i, b, here⟩ := vetted a start
      obtain ⟨j, d, spans, -, later⟩ := charted.chained.statement_at start
      obtain ⟨-, rfl⟩ := spans.unique here.spans
      obtain ⟨es', stands⟩ := statement_carries saved es here.spans
      rw [statements_more (charted.chained.mem_lt start) stands] at walked
      rcases ih later walked e member with old | vouched
      · exact (statement_vouches here stands).2 e old
      · exact Or.inr vouched
    · rw [statements_done] at walked
      cases walked
      exact Or.inl member

theorem entries_vouched (charted : Charted p starts W)
    (vetted : ∀ c ∈ starts, ∃ i b, Vetted.Statement p.words Q c i b) (listed : p.entries = .ok es) :
    ∀ e ∈ es, Vouched p Q e := by
  rw [Program.entries] at listed
  cases walked : statements p p.words.size ⟨.start, #[]⟩ with
  | error e w =>
    rw [walked] at listed
    cases listed
  | ok u w =>
    rw [walked] at listed
    cases listed
    intro e member
    rcases statements_vouch charted vetted _ charted.chained.first walked e
      member with none_ | vouched
    · simp at none_
    · exact vouched

end Listing

namespace Machine

variable {World : Type} {p : Program} {Q : Nat → Instruction → Prop} {starts : List Nat}
  {W : Address → Prop} {m : Machine World}

/-- An instruction that is completed has the property, and it has as many values as it has
expressions in the code. -/
theorem completed_checked (charted : Charted p starts W)
    (vetted : ∀ c ∈ starts, ∃ i b, Vetted.Statement p.words Q c i b) (met : Met p m)
    (busy : m.atBoundary = false) {i : Instruction} {values : List Value} {rest : List Work}
    (working : m.work = .instruction i 0 values :: rest) :
    (∃ a, Q a i) ∧ values.length = i.expressions := by
  obtain ⟨gs, visited⟩ := met
  obtain ⟨⟨work, calls, chart, checked⟩, -⟩ := visited_checked charted vetted visited
  have here := checked.here
  cases work with
  | nil => exact absurd rfl (chart.stacked.busy busy)
  | cons w work =>
    obtain ⟨rfl, -⟩ := List.cons.inj (working.symm.trans chart.stacked.working)
    obtain ⟨property, count, -⟩ := here.below
    exact ⟨property, count⟩

end Machine

end Scriptlet
