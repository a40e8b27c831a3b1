import Scriptlet.Proofs.Number.Numerals
import Scriptlet.Proofs.Script.Tree
import Scriptlet.Proofs.Source.Pieces

/-!
The lexemes of a script are read back from its source. Every lexeme is cut off as one token,
because the blank behind it ends every word, number and operator. A stream of tokens has a row
of lexemes ahead if it gives them one after another and then ends, without a lexical problem.
-/
namespace Scriptlet.Script

open Token

variable {c : Char} {ls : List Lexeme} {l : Lexeme} {s : TokenStream} {x : String} {n : Nat}
  {registry : Registry} {rest cs : List Char}

def Lexeme.Matches (l : Lexeme) (t : Token) : Prop :=
  t.kind = l.kind ∧ (l.kind ≠ .endOfLine → t.lexeme = l.text)

/-- A blank behind the lexeme makes it one token. -/
structure Lexeme.Legible (l : Lexeme) : Prop where
  head : ∃ c cs, l.text.toList = c :: cs ∧ Piece.isBlank c = false
  scan : ∀ rest line, ∃ t line', l.Matches t ∧
    Token.scan (l.text.toList ++ ' ' :: rest) line = ⟨t, ' ' :: rest, line', []⟩

theorem scan_plain {kind : Kind} (line : UInt32) (role : (Piece.cut c rest).role = .plain kind) :
    scan (c :: rest) line = ⟨⟨kind, String.ofList (Piece.cut c rest).taken, line⟩,
      (Piece.cut c rest).left, line + .ofNat (Piece.cut c rest).breaks, []⟩ := by
  rw [scan]
  simp only [role]

theorem scan_lineBreak (rest : List Char) (line : UInt32) :
    scan ('\n' :: rest) line = ⟨endOfLine line, rest, line + 1, []⟩ := by
  rw [scan]
  rfl

theorem scan_blank (line : UInt32) (solid : ∀ c cs, rest = c :: cs → Piece.isBlank c = false) :
    scan (' ' :: rest) line = scan rest line := by
  have left : rest.dropWhile Piece.isBlank = rest ∧ rest.takeWhile Piece.isBlank = [] := by
    cases rest with
    | nil => exact ⟨rfl, rfl⟩
    | cons c cs => simp [List.dropWhile, List.takeWhile, solid c cs rfl]
  have cut : Piece.cut ' ' rest = ⟨.skipped, [' '], rest⟩ := by
    change Piece.run .skipped [' '] Piece.isBlank rest = _
    rw [Piece.run, left.1, left.2, List.append_nil]
  rw [scan]
  simp only [cut]
  exact congrArg (scan rest) (UInt32.add_zero line)

theorem legible_of_cut (text : l.text.toList = c :: cs) (solid : Piece.isBlank c = false)
    (cut : ∀ rest, Piece.cut c (cs ++ ' ' :: rest) = ⟨.plain l.kind, c :: cs, ' ' :: rest⟩) :
    l.Legible := by
  refine ⟨⟨c, cs, text, solid⟩, fun rest line => ?_⟩
  have role : (Piece.cut c (cs ++ ' ' :: rest)).role = .plain l.kind := by rw [cut]
  have lexeme : String.ofList (c :: cs) = l.text := by rw [← text, String.ofList_toList]
  have scanned := scan_plain line role
  rw [cut] at scanned
  dsimp only at scanned
  rw [lexeme] at scanned
  refine ⟨⟨l.kind, l.text, line⟩, line + .ofNat ((c :: cs).count '\n'), ⟨rfl, fun _ => rfl⟩, ?_⟩
  rw [text]
  exact scanned

theorem word_legible (word : isWord l.text.toList = true)
    (kind : Kind.ofWord l.text.toList = l.kind) :
    l.Legible := by
  cases text : l.text.toList with
  | nil =>
    rw [text] at word
    cases word
  | cons c cs =>
    rw [text] at word kind
    simp only [isWord, Bool.and_eq_true, List.all_eq_true] at word
    refine legible_of_cut text (Piece.not_blank_of_class word.1 rfl) fun rest => ?_
    obtain ⟨taken, left⟩ := @Reading.takeWhile_until _ _ (' ' :: rest) word.2 (by rintro _ ⟨⟩; rfl)
    rw [Piece.cut_word word.1, Piece.word, taken, left, kind]

theorem sameWord_spelling (word : List Char) (k : Keyword) :
    Reading.sameWord word k.name = Reading.sameWord word (Lexeme.spelling k) := by
  have lowered : k.name.toList.map Reading.lowerAscii =
      (Lexeme.spelling k).toList.map Reading.lowerAscii := by
    cases k <;> decide
  rw [Reading.sameWord, Reading.sameWord, lowered]

theorem ofWord_name (name : isName x = true) : Kind.ofWord x.toList = .symbol := by
  simp only [isName, Bool.and_eq_true, List.all_eq_true, Bool.not_eq_true'] at name
  have free := name.2
  have keyword : Keyword.ofWord? x.toList = none := by
    rw [Keyword.ofWord?, List.find?_eq_none]
    intro k _
    rw [sameWord_spelling, free _ (by cases k <;> decide)]
    decide
  rw [Kind.ofWord, free "and" (by decide), free "or" (by decide), free "xor" (by decide),
    free "not" (by decide), keyword]
  rfl

theorem name_legible (name : isName x = true) : (Lexeme.name x).Legible :=
  word_legible (Bool.and_eq_true_iff.mp name).1 (ofWord_name name)

theorem keyword_legible (k : Keyword) : (Lexeme.keyword k).Legible := by
  cases k <;> exact word_legible rfl rfl

theorem digits_legible (row : List Char) (digits : ∀ c ∈ row, Reading.isDigit c = true)
    (some : row ≠ []) :
    (⟨.integer, String.ofList row⟩ : Lexeme).Legible := by
  obtain ⟨c, cs, rfl⟩ := List.exists_cons_of_ne_nil some
  obtain ⟨first, others⟩ := List.forall_mem_cons.mp digits
  refine legible_of_cut String.toList_ofList (Piece.not_blank_of_class first rfl) fun rest => ?_
  obtain ⟨taken, left⟩ := @Reading.takeWhile_until _ _ (' ' :: rest) others (by rintro _ ⟨⟩; rfl)
  have decimal : Piece.decimal c (cs ++ ' ' :: rest) = ⟨.plain .integer, c :: cs, ' ' :: rest⟩ := by
    rw [Piece.decimal, taken, left]
    rfl
  rw [Piece.cut_number first, Piece.number, decimal]
  -- No digit is the mark of a hexadecimal number.
  intro d more marked
  cases cs with
  | nil => simp at marked
  | cons e es =>
    have wrong := others e List.mem_cons_self
    rw [List.cons_append] at marked
    rw [(List.cons.inj marked).1] at wrong
    exact absurd wrong (by decide)

theorem number_legible (n : Nat) : (Lexeme.number n).Legible :=
  digits_legible _ (Reading.toDigits_isDigit n) Nat.toDigits_ne_nil

theorem unary_legible (op : UnaryOp) : (unaryLexeme op).Legible := by
  cases op with
  | negate => exact legible_of_cut rfl rfl fun _ => rfl
  | not => exact word_legible rfl rfl

theorem leftParen_legible : Lexeme.leftParen.Legible := legible_of_cut rfl rfl fun _ => rfl

theorem rightParen_legible : Lexeme.rightParen.Legible := legible_of_cut rfl rfl fun _ => rfl

theorem leftBrace_legible : Lexeme.leftBrace.Legible := legible_of_cut rfl rfl fun _ => rfl

theorem rightBrace_legible : Lexeme.rightBrace.Legible := legible_of_cut rfl rfl fun _ => rfl

theorem comma_legible : Lexeme.comma.Legible := legible_of_cut rfl rfl fun _ => rfl

theorem equal_legible : Lexeme.equal.Legible := legible_of_cut rfl rfl fun _ => rfl

theorem minus_legible : Lexeme.minus.Legible := unary_legible .negate

theorem lineBreak_legible : Lexeme.lineBreak.Legible :=
  ⟨⟨'\n', [], rfl, rfl⟩, fun rest line =>
    ⟨_, _, ⟨rfl, fun other => absurd rfl other⟩, scan_lineBreak (' ' :: rest) line⟩⟩

theorem digits_literal {row : List Char} {t : Token} (digits : ∀ c ∈ row, Reading.isDigit c = true)
    (some : row ≠ []) (read : (⟨.integer, String.ofList row⟩ : Lexeme).Matches t) :
    t.literal? = .some (if Reading.digits row < 2 ^ 31 then .integer (.ofNat (Reading.digits row))
      else .float (.ofInt (Reading.digits row))) := by
  have integer : Reading.integer? row = .some (Reading.digits row : Int) :=
    @Reading.integer?_signed false _ digits some
  have float : Reading.float? row = .some (.ofInt (Reading.digits row)) := by
    have numeral := @Reading.float?_signed false _ (Reading.numeral_digits digits some)
    rw [Reading.decimal?_digits digits some] at numeral
    exact numeral.trans (congrArg _ (Reading.ofDecimal_whole (Reading.digits row)))
  have kind : t.kind = .integer := read.1
  have range :
      (-0x80000000 ≤ (Reading.digits row : Int) ∧ (Reading.digits row : Int) < 0x80000000) ↔
    Reading.digits row < 2 ^ 31 := by omega
  rw [literal?, kind, read.2 (by simp), String.toList_ofList, integerLiteral]
  · simp only [Reading.int32?, integer, float, range, Int32.ofInt_eq_ofNat]
    by_cases small : Reading.digits row < 2 ^ 31
    · rw [if_pos small, if_pos small]
    · rw [if_neg small, if_neg small]
      rfl
  -- No digit is the mark of a hexadecimal number.
  intro more same
  exact absurd (digits 'x' (by simp [same])) (by decide)

theorem number_literal (small : n < 2 ^ 31) {t : Token} (read : (Lexeme.number n).Matches t) :
    t.literal? = some (.integer (Int32.ofNat n)) := by
  rw [digits_literal (Reading.toDigits_isDigit n) Nat.toDigits_ne_nil read, Reading.digits_toDigits,
    if_pos small]

/-- The stream gives these lexemes, then the end of the source, and no lexical problem. -/
def Ahead : List Lexeme → TokenStream → Prop
  | [], s => s.errors = #[] ∧ s.next.1.kind = .endOfFile ∧ s.next.2.errors = #[]
  | l :: ls, s => s.errors = #[] ∧ l.Matches s.next.1 ∧ Ahead ls s.next.2

namespace Ahead

variable {l : Lexeme} {ls : List Lexeme} {s s' : TokenStream}

theorem errors (ahead : Ahead ls s) : s.errors = #[] := by
  cases ls with
  | nil | cons => exact ahead.1

theorem next_errors (ahead : Ahead ls s) : s.next.2.errors = #[] := by
  cases ls with
  | nil => exact ahead.2.2
  | cons l ls => exact ahead.2.2.errors

/-- What is ahead depends only on the next token and what follows it. -/
theorem of_next (ahead : Ahead ls s) (errors : s'.errors = #[]) (next : s'.next = s.next) :
    Ahead ls s' := by
  cases ls with
  | nil | cons l ls => exact ⟨errors, next ▸ ahead.2.1, next ▸ ahead.2.2⟩

theorem unget_next (s : TokenStream) : (s.next.2.unget s.next.1).next = s.next := by
  have pushed : s.next.2.pushed = none := by
    unfold TokenStream.next
    split <;> rfl
  have same : ({ s.next.2 with pushed := none } : TokenStream) = s.next.2 := by rw [← pushed]
  rw [TokenStream.unget, pushed]
  change (s.next.1, { s.next.2 with pushed := none }) = s.next
  rw [same]

theorem peek (ahead : Ahead ls s) : Ahead ls s.peek.2 :=
  ahead.of_next ahead.next_errors (unget_next s)

theorem unget (ahead : Ahead ls s) : Ahead ls (s.next.2.unget s.next.1) := ahead.peek

theorem nextPastBreaks_of_ne (other : s.next.1.kind ≠ .endOfLine) : s.nextPastBreaks = s.next := by
  rw [TokenStream.nextPastBreaks]
  simp [other]

theorem nextPastBreaks_of_eq (lineBreak : s.next.1.kind = .endOfLine) :
    s.nextPastBreaks = s.next.2.nextPastBreaks := by
  rw [TokenStream.nextPastBreaks]
  simp [lineBreak]

end Ahead

/-- The lexemes are ahead, but the first line break may have been taken already. -/
def Past (ls : List Lexeme) (s : TokenStream) : Prop :=
  Ahead ls s ∨ Ahead (.lineBreak :: ls) s

theorem Past.settled (past : Past ls s) (solid : ∀ {r}, Ahead ls r → r.next.1.kind ≠ .endOfLine) :
    ∃ r, Ahead ls r ∧ s.nextPastBreaks = r.next := by
  rcases past with now | behind
  · exact ⟨s, now, Ahead.nextPastBreaks_of_ne (solid now)⟩
  · refine ⟨s.next.2, behind.2.2, ?_⟩
    rw [Ahead.nextPastBreaks_of_eq behind.2.1.1, Ahead.nextPastBreaks_of_ne (solid behind.2.2)]

theorem Past.next (past : Past (l :: ls) s) (solid : l.kind ≠ .endOfLine) :
    l.Matches s.nextPastBreaks.1 ∧ Ahead ls s.nextPastBreaks.2 := by
  obtain ⟨r, ahead, same⟩ := past.settled fun ahead => ahead.2.1.1 ▸ solid
  rw [same]
  exact ahead.2

/-- The token behind line breaks can be given back, the breaks are gone. -/
theorem Past.unget (past : Past (l :: ls) s) (solid : l.kind ≠ .endOfLine) :
    Ahead (l :: ls) (s.nextPastBreaks.2.unget s.nextPastBreaks.1) := by
  obtain ⟨r, ahead, same⟩ := past.settled fun ahead => ahead.2.1.1 ▸ solid
  rw [same]
  exact ahead.unget

theorem Past.end_ (past : Past [] s) :
    s.nextPastBreaks.1.kind = .endOfFile ∧ s.nextPastBreaks.2.errors = #[] := by
  obtain ⟨r, ahead, same⟩ := past.settled fun ahead => by rw [ahead.2.1]; decide
  rw [same]
  exact ahead.2

theorem Past.errors (past : Past ls s) : s.errors = #[] := by
  rcases past with now | behind
  · exact now.errors
  · exact behind.errors

theorem spell_solid (legible : ∀ l ∈ ls, l.Legible) :
    ∀ c cs, spell ls = c :: cs → Piece.isBlank c = false := by
  intro c cs same
  cases ls with
  | nil => cases same
  | cons l ls =>
    obtain ⟨d, ds, text, solid⟩ := (legible l List.mem_cons_self).head
    rw [spell, List.flatMap_cons, text] at same
    exact (List.cons.inj same).1 ▸ solid

theorem spell_ahead (legible : ∀ l ∈ ls, l.Legible) (line : UInt32) :
    Ahead ls ⟨spell ls, line, none, #[], []⟩ ∧ Ahead ls ⟨' ' :: spell ls, line, none, #[], []⟩ := by
  suffices plain : ∀ line, Ahead ls ⟨spell ls, line, none, #[], []⟩ by
    refine ⟨plain line, (plain line).of_next rfl ?_⟩
    have same := scan_blank line (spell_solid legible)
    simp only [TokenStream.next, TokenStream.scan, same]
  induction ls with
  | nil => intro line; exact ⟨rfl, by simp [TokenStream.next, TokenStream.scan, spell, endOfFile],
      by simp [TokenStream.next, TokenStream.scan, spell]⟩
  | cons l ls ih =>
    intro line
    have others : ∀ m ∈ ls, m.Legible := fun m member => legible m (List.mem_cons_of_mem _ member)
    obtain ⟨t, line', read, scanned⟩ := (legible l List.mem_cons_self).scan (spell ls) line
    have text : spell (l :: ls) = l.text.toList ++ ' ' :: spell ls := by
      simp [spell]
    have next : TokenStream.next ⟨spell (l :: ls), line, none, #[], []⟩ =
        (t, ⟨' ' :: spell ls, line', none, #[], []⟩) := by
      simp only [TokenStream.next, TokenStream.scan, text, scanned]
      rfl
    refine ⟨rfl, ?_, ?_⟩
    · rw [next]
      exact read
    · rw [next]
      refine (ih others line').of_next rfl ?_
      have same := scan_blank line' (spell_solid others)
      simp only [TokenStream.next, TokenStream.scan, same]

theorem isName_of_isVariable {g : Signature} (variable_ : g.isVariable x = true) :
    isName x = true := by
  simp only [Signature.isVariable, Bool.and_eq_true] at variable_
  exact variable_.1.1.1

def Signature.Named (g : Signature) : Prop :=
  ∀ f n, g.functions.lookup f = some n → isName f = true

theorem parameterLexemes_legible {xs : List String} (names : ∀ x ∈ xs, isName x = true) :
    ∀ l ∈ parameterLexemes xs, l.Legible := by
  induction xs with
  | nil =>
    rw [parameterLexemes, List.forall_mem_singleton]
    exact rightParen_legible
  | cons x rest ih =>
    have first := name_legible (names x List.mem_cons_self)
    cases rest with
    | nil =>
      simp only [parameterLexemes, List.forall_mem_cons]
      exact ⟨first, rightParen_legible, by simp⟩
    | cons y rest =>
      rw [parameterLexemes, List.forall_mem_cons, List.forall_mem_cons]
      · exact ⟨first, comma_legible, ih fun z member => names z (List.mem_cons_of_mem _ member)⟩
      · simp

section Lookup

variable {α : Type} {name : α → String} {count : α → Nat} {ds : List α}

theorem mem_of_lookup {f : String} {n : Nat}
    (found : (ds.map fun d => (name d, count d)).lookup f = some n) :
    ∃ d ∈ ds, name d = f ∧ count d = n := by
  induction ds with
  | nil => cases found
  | cons d rest ih =>
    rw [List.map_cons, List.lookup_cons] at found
    split at found
    · rename_i same
      exact ⟨d, List.mem_cons_self, (beq_iff_eq.mp same).symm, Option.some.inj found⟩
    · obtain ⟨e, member, same⟩ := ih found
      exact ⟨e, List.mem_cons_of_mem _ member, same⟩

theorem lookup_of_mem (distinct : (ds.map name).Nodup) {d : α} (member : d ∈ ds) :
    (ds.map fun d => (name d, count d)).lookup (name d) = some (count d) := by
  induction ds with
  | nil => cases member
  | cons e rest ih =>
    rw [List.map_cons, List.nodup_cons] at distinct
    rw [List.map_cons, List.lookup_cons]
    rcases List.mem_cons.mp member with rfl | later
    · simp
    · have other : ¬name d = name e := by
        intro same
        exact distinct.1 (same ▸ List.mem_map_of_mem later)
      simp only [beq_eq_false_iff_ne.mpr other]
      exact ih distinct.2 later

end Lookup

theorem lookup_definition {s : Script} {f : String}
    (found : (s.signature registry).functions.lookup f = some n) :
    ∃ d ∈ s.definitions, d.name = f ∧ d.parameters.length = n :=
  mem_of_lookup found

theorem Proper.named {s : Script} (proper : s.Proper registry) : (s.signature registry).Named := by
  intro f n found
  obtain ⟨d, member, rfl, _⟩ := lookup_definition found
  have function := (proper.definitions d member).name
  simp only [Signature.isFunction, Bool.and_eq_true] at function
  exact function.1.1

end Scriptlet.Script
