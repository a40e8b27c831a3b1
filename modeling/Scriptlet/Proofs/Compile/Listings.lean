import Scriptlet.Proofs.Compile.Charts

/-!
Listing code and running it read the same words as statements. Whatever the words are, a statement
that the machine completes can be listed and ends at the same address, and one that can be listed
can be read by the machine up to there. Code that was compiled can be listed as a whole.
-/
namespace Scriptlet

open Code

namespace Machine

variable {World : Type} {host : Host World} {p : Program} {gs : List UserFunction}
  {m m₁ m₂ : Machine World} {es : Array Listing.Entry} {w : Listing.Walk} {n : Nat}

theorem boundary_stacked (intact : Intact p gs m) (boundary : m.atBoundary = true) :
    ∃ calls, Stacked m [] calls := by
  obtain ⟨work, calls, stacked⟩ := intact_stacked intact
  obtain rfl := stacked.boundary_iff.mp boundary
  exact ⟨calls, stacked⟩

theorem Completes.listed (completes : Completes host p m m₁ m₂) (intact : Intact p gs m)
    (boundary : m.atBoundary = true) (es : Array Listing.Entry) :
    m₁.frames = m.frames ∧ ∃ i w, Listing.statement p ⟨m.cursor, es⟩ = .ok () w ∧
      w.cursor = ⟨m₁.cursor.ip, m.cursor.saved⟩ ∧ Continues i m₁.cursor.ip m m₂ := by
  obtain ⟨calls, stacked⟩ := boundary_stacked intact boundary
  obtain ⟨frames, i, spans, continues⟩ := completes.reads intact stacked
  obtain ⟨es', listed⟩ := Listing.statement_carries m.cursor.saved es spans
  exact ⟨frames, i, _, listed, rfl, continues⟩

def units (host : Host World) (p : Program) : Nat → Machine World → Machine World
  | 0, m => m
  | n + 1, m => ending (unit (units host p n m))
where
  unit (m : Machine World) : EStateM.Result Fault (Machine World) Unit :=
    if m.atBoundary then beginStatement p m else advance host p m

variable (host p) in
theorem units_met (n : Nat) (world : World) : Met p (units host p n (init p world)) := by
  induction n with
  | zero => exact ⟨[], .fresh world⟩
  | succ n ih =>
    obtain ⟨gs, visited⟩ := ih
    rw [units, units.unit]
    split
    · rename_i boundary
      exact ⟨gs, visited.begin_ boundary⟩
    · rename_i busy
      exact ⟨_, visited.advance host (Bool.not_eq_true _ ▸ busy)⟩

end Machine

namespace Compile

variable {host : Registry} {options : Options} {source : String} {p : Program}

theorem entry_words (place : Nat) :
    rowWords Target.word ((entryBody place).row ++ [Statement.final]) =
      [Opcode.callStatement.word, .ofNat place, .ofNat 0] ++
      ([Opcode.returnValue.word] ++ [.ofNat 0]) := by
  simp [entryBody, rowWords, Statement.words, Statement.final, Plain.words, Plain.front,
    Plain.parts, partsWords, termsWords]

theorem compile_listed (built : Registry.Built host) (ok : compile host options source = .ok p)
    (short : source.length < 2 ^ 32) (small : p.Small) :
    ∃ es text, p.entries = .ok es ∧ p.listing = .ok text ∧
    (∃ detail, ⟨0, 0, .callStatement, detail⟩ ∈ es) ∧
      (∃ detail, ⟨3, 0, .returnValue, detail⟩ ∈ es) ∧
      ∀ f, .user f ∈ p.functions → ∃ op detail, ⟨f.ip.toNat, 0, op, detail⟩ ∈ es := by
  obtain ⟨place, bs, entry, charted⟩ := compile_charted built ok short small
  obtain ⟨es, walked, -, noted⟩ := Listing.statements_chained charted.chained
    (Nat.le_trans (Nat.le_add_left _ 0) charted.chained.length_le) [] #[]
  have listed : p.entries = .ok es := by
    rw [Program.entries, show Listing.statements p p.words.size ⟨.start, #[]⟩ = _ from walked]
  have front := entry.placed
  rw [entry_words] at front
  have call := Cursor.opcode_gives front
  have return_ := Cursor.opcode_gives front.append.2
  refine ⟨es, _, listed, by rw [Program.listing, listed]; rfl, ?_, ?_, ?_⟩
  · obtain ⟨op, d, text, gives, member⟩ :=
      noted 0 (List.mem_flatMap.mpr ⟨_, List.mem_cons_self, start_mem_bounds 0 _⟩)
    obtain ⟨rfl, -⟩ := gives.unique call
    exact ⟨text, member⟩
  · obtain ⟨op, d, text, gives, member⟩ :=
      noted 3 (List.mem_flatMap.mpr ⟨_, List.mem_cons_self, end_mem_bounds 0 _⟩)
    obtain ⟨rfl, -⟩ := gives.unique return_
    exact ⟨text, member⟩
  · intro f member
    obtain ⟨op, d, text, -, member⟩ := noted _ (charted.users f member)
    exact ⟨op, text, member⟩

open Machine

end Compile

end Scriptlet
