import Scriptlet.Token.Stream

/-!
The pieces of a whole text, and those among them that make it broken. The pieces that the scan of a
token takes are the first ones of the text, and a broken one among them either leaves a problem
behind or is a quoted text that nothing comes after.
-/
namespace Scriptlet.Token

/-- A text cut into pieces from its start to its end. -/
def pieces (cs : List Char) : List Piece :=
  match cs with
  | [] => []
  | c :: rest =>
    have : (Piece.cut c rest).left.length < (c :: rest).length := Piece.cut_left_lt c rest
    Piece.cut c rest :: pieces (Piece.cut c rest).left
termination_by cs.length
decreasing_by exact this

@[simp] theorem pieces_nil : pieces [] = [] := by rw [pieces]

theorem pieces_cons (c : Char) (rest : List Char) :
    pieces (c :: rest) = Piece.cut c rest :: pieces (Piece.cut c rest).left := by rw [pieces]

namespace Piece

section

variable {c : Char} {p : Char → Bool}

theorem ne_of_class {m : Char} (holds : p c = true) (fails : p m = false) : c ≠ m := by
  rintro rfl
  rw [holds] at fails
  cases fails

theorem isBlank_iff : isBlank c = true ↔ c ∈ [' ', '\t', '\r', '\x0c'] := by
  have feed : c = '\x0c' ↔ c.toNat = 12 :=
    ⟨fun same => same ▸ rfl, fun same => Char.toNat_inj.mp (same.trans rfl)⟩
  simp [isBlank, or_assoc, feed]

theorem not_blank_of_class (holds : p c = true) (fails : [' ', '\t', '\r', '\x0c'].any p = false) :
    isBlank c = false :=
  Bool.eq_false_iff.mpr fun blank => List.any_eq_false.mp fails c (isBlank_iff.mp blank) holds

theorem digit_not_start (digit : Reading.isDigit c = true) : isWordStart c = false := by
  simp only [Reading.isDigit, Bool.and_eq_true, decide_eq_true_eq] at digit
  refine Bool.eq_false_iff.mpr fun start => ?_
  simp only [isWordStart, Bool.or_eq_true, Bool.and_eq_true, beq_iff_eq, decide_eq_true_eq] at start
  rcases start with (rfl | ⟨below, -⟩) | ⟨below, -⟩
  · exact absurd digit.2 (by decide)
  · exact absurd (Char.le_trans below digit.2) (by decide)
  · exact absurd (Char.le_trans below digit.2) (by decide)

theorem cut_word (start : isWordStart c = true) (rest : List Char) : cut c rest = word c rest := by
  rw [cut, if_neg (ne_of_class start (by decide)), not_blank_of_class start rfl, if_pos start]
  rfl

theorem cut_number (digit : Reading.isDigit c = true) (rest : List Char) :
    cut c rest = number c rest := by
  rw [cut, if_neg (ne_of_class digit (by decide)), not_blank_of_class digit rfl,
    digit_not_start digit, if_pos digit]
  rfl

end

def Role.isReported : Role → Bool
  | .stray => true
  | .quoted _ .lineBreak => true
  | _ => false

def Role.isUnclosed : Role → Bool
  | .quoted _ .unclosed => true
  | _ => false

/-- No piece is the end of the file, and nothing comes after a quoted text that stays open. -/
structure Sound (p : Piece) : Prop where
  solid : p.role ≠ .plain .endOfFile
  last : p.role.isUnclosed = true → p.left = []

theorem sound_of_role {role : Role} (solid : role ≠ .plain .endOfFile)
    (closed : role.isUnclosed = false) (taken left : List Char) : Sound ⟨role, taken, left⟩ :=
  ⟨solid, fun unclosed => absurd (closed.symm.trans unclosed) (by decide)⟩

theorem plain_sound {kind : Kind} (solid : kind ≠ .endOfFile) (taken left : List Char) :
    Sound ⟨.plain kind, taken, left⟩ :=
  sound_of_role (fun same => solid (Role.plain.inj same)) rfl taken left

theorem word_sound (c : Char) (rest : List Char) : (word c rest).Sound := by
  refine plain_sound ?_ _ _
  unfold Kind.ofWord
  repeat' split
  all_goals simp

theorem decimal_sound (c : Char) (rest : List Char) : (decimal c rest).Sound := by
  unfold decimal
  split
  · exact sound_of_role (by decide) rfl _ _
  · exact plain_sound (by decide) _ _

theorem number_sound (c : Char) (rest : List Char) : (number c rest).Sound := by
  unfold number
  split
  · split
    · exact sound_of_role (by decide) rfl _ _
    · exact decimal_sound c _
  · exact decimal_sound c _

theorem quotation_unclosed {quote : Char} {cs : List Char}
    (unclosed : (quotation quote cs).ending = .unclosed) : (quotation quote cs).left = [] := by
  fun_induction quotation quote cs with
  | case1 | case4 => rfl
  | case2 | case3 => cases unclosed
  | case5 _ _ _ ih | case6 _ _ _ _ _ ih | case7 _ _ _ _ _ ih => exact ih unclosed

theorem string_sound (quote : Char) (rest : List Char) : (string quote rest).Sound := by
  refine ⟨by simp [string], fun unclosed => quotation_unclosed ?_⟩
  generalize ending : (quotation quote rest).ending = e
  simp only [string, ending] at unclosed
  cases e with
  | unclosed => rfl
  | _ => cases unclosed

theorem alone_sound (c : Char) (rest : List Char) : (alone c rest).Sound := by
  unfold alone
  split
  · rename_i kind single
    refine plain_sound ?_ _ _
    rintro rfl
    unfold single? at single
    split at single <;> cases single
  · exact sound_of_role (by decide) rfl _ _

theorem mark_sound (c : Char) (rest : List Char) : (mark c rest).Sound := by
  unfold mark
  split
  · exact alone_sound c []
  · rename_i d more
    split
    · exact sound_of_role (by decide) rfl _ _
    · split
      · exact sound_of_role (by decide) rfl _ _
      · split
        · exact sound_of_role (by decide) rfl _ _
        · split
          · rename_i kind double
            refine plain_sound ?_ _ _
            rintro rfl
            unfold double? at double
            split at double <;> cases double
          · exact alone_sound c (d :: more)

theorem cut_sound (c : Char) (rest : List Char) : (cut c rest).Sound := by
  unfold cut
  split
  · exact sound_of_role (by decide) rfl _ _
  · split
    · exact sound_of_role (by decide) rfl _ _
    · split
      · exact word_sound c rest
      · split
        · exact number_sound c rest
        · split
          · exact string_sound c rest
          · exact mark_sound c rest

end Piece

theorem scan_end {cs : List Char} {line : UInt32} (last : (scan cs line).token.kind = .endOfFile) :
    (scan cs line).rest = [] := by
  fun_induction scan cs line with
  | case1 => rfl
  | case2 _ _ _ _ _ _ ih | case3 _ _ _ _ _ _ ih => exact ih last
  | case4 | case6 => cases last
  | case5 line c rest p shorter kind same =>
    obtain rfl : kind = .endOfFile := last
    exact absurd same (Piece.cut_sound c rest).solid

/-- What a broken piece that the scan takes leaves behind. -/
structure Shows (r : Scan) (p : Piece) : Prop where
  reported : p.role.isReported = true → r.errors ≠ []
  unclosed : p.role.isUnclosed = true → r.token.kind = .string ∧ r.rest = []

theorem scan_pieces (cs : List Char) (line : UInt32) :
    ∃ before, pieces cs = before ++ pieces (scan cs line).rest ∧ ∀ p ∈ before,
    Shows (scan cs line) p := by
  fun_induction scan cs line with
  | case1 line => exact ⟨[], by simp, by simp⟩
  | case2 line c rest p shorter same ih =>
    obtain ⟨before, cut, shows_⟩ := ih
    refine ⟨p :: before, by rw [pieces_cons, cut]; rfl, List.forall_mem_cons.mpr ⟨?_, shows_⟩⟩
    constructor <;> simp [same, Piece.Role.isReported, Piece.Role.isUnclosed]
  | case3 line c rest p shorter same ih =>
    obtain ⟨before, cut, shows_⟩ := ih
    refine ⟨p :: before, by rw [pieces_cons, cut]; rfl, List.forall_mem_cons.mpr ⟨?_, ?_⟩⟩
    · constructor <;> simp [same, Scan.withError, Piece.Role.isUnclosed]
    · intro q member
      exact ⟨fun _ => List.cons_ne_nil _ _, (shows_ q member).unclosed⟩
  | case4 line c rest p shorter same | case5 line c rest p shorter kind same =>
    refine ⟨[p], by rw [pieces_cons]; rfl, List.forall_mem_singleton.mpr ?_⟩
    constructor <;> simp [same, Piece.Role.isReported, Piece.Role.isUnclosed]
  | case6 line c rest p shorter content ending same =>
    refine ⟨[p], by rw [pieces_cons]; rfl, List.forall_mem_singleton.mpr ⟨?_, fun unclosed => ?_⟩⟩
    · rw [same]
      cases ending <;> simp [Piece.Role.isReported, quotationErrors]
    · exact ⟨rfl, (Piece.cut_sound c rest).last unclosed⟩

end Scriptlet.Token
