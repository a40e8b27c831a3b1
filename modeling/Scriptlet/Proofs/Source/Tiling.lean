import Mathlib.Computability.Language
import Scriptlet.Proofs.Source.Positions

/-!
Pieces by longest match. The lexical patterns of the language are regular languages: blanks,
comments, words, numbers and operators. At every place of a text the piece that is cut off is the
longest prefix of what is left that any of the patterns matches, with the rest of a block comment or
of a quoted text behind its opening, or else a single character where no pattern matches. So the
pieces of a text cover it without gaps, and reading gives the tokens among them, at most one for
each character, and then the end of the file for ever.
-/
namespace Scriptlet

namespace Token

open Piece Computability

variable {c d : Char} {rest w cs : List Char} {p : Char → Bool} {kind : Kind} {q : Piece}
  {members : Set Char} {text t : List Char}

def oneOf (members : Set Char) : Language Char := {w | ∃ c ∈ members, w = [c]}

def exactly (text : List Char) : Language Char := {text}

def digits : Set Char := {c | '0' ≤ c ∧ c ≤ '9'}

def letters : Set Char := {c | c = '_' ∨ ('a' ≤ c ∧ c ≤ 'z') ∨ ('A' ≤ c ∧ c ≤ 'Z')}

def hexDigits : Set Char := {c | ('0' ≤ c ∧ c ≤ '9') ∨ ('a' ≤ c ∧ c ≤ 'f') ∨ ('A' ≤ c ∧ c ≤ 'F')}

def blanks : Set Char := {' ', '\t', '\r', '\x0c'}

def plus (l : Language Char) : Language Char := l * l∗

def operators : List (List Char × Kind) :=
  [(['+'], .operator (.arithmetic .add)), (['-'], .operator (.arithmetic .subtract)),
    (['*'], .operator (.arithmetic .multiply)), (['/'], .operator (.arithmetic .divide)),
    (['^'], .operator .power), (['%'], .operator (.arithmetic .modulus)),
    (['&'], .operator .concat), (['='], .operator (.relation .equal)),
    (['<', '>'], .operator (.relation .notEqual)), (['>'], .operator (.relation .greater)),
    (['>', '='], .operator (.relation .greaterOrEqual)), (['<'], .operator (.relation .less)),
    (['<', '='], .operator (.relation .lessOrEqual)), (['('], .leftParen), ([')'], .rightParen),
    (['{'], .leftBrace), (['}'], .rightBrace), (['['], .leftBracket), ([']'], .rightBracket),
    ([','], .comma), ([':'], .colon)]

inductive Pattern where
  | blanks
  | lineBreak
  | lineComment
  | commentStart
  | word
  | hexadecimal
  | integer
  | float
  | quote
  | operator (kind : Kind)

/-- The texts that a pattern matches. -/
def Pattern.language : Pattern → Language Char
  | .blanks => plus (oneOf Token.blanks)
  | .lineBreak => exactly ['\n']
  | .lineComment => exactly ['/', '/'] * (oneOf {'\n'}ᶜ)∗
  | .commentStart => exactly ['/', '*']
  | .word => oneOf letters * (oneOf (letters ∪ digits))∗
  | .hexadecimal => exactly ['0', 'x'] * plus (oneOf hexDigits)
  | .integer => plus (oneOf digits)
  | .float =>
    plus (oneOf digits) * (exactly ['.'] * (oneOf digits)∗) + exactly ['.'] * plus (oneOf digits)
  | .quote => exactly ['"'] + exactly ['\'']
  | .operator kind => {w | (w, kind) ∈ operators}

/-- A prefix of a text that a pattern matches, and no pattern matches a longer one. -/
structure Longest (cs : List Char) (pattern : Pattern) (w : List Char) : Prop where
  matched : w ∈ pattern.language
  front : w <+: cs
  longest : ∀ (other : Pattern) (v : List Char), v ∈ other.language → v <+: cs → v.length ≤ w.length

def Pattern.role? : Pattern → List Char → Option Role
  | .blanks, _ => some .skipped
  | .lineBreak, _ => some .lineBreak
  | .lineComment, _ => some .skipped
  | .commentStart, _ => none
  | .word, w => some (.plain (.ofWord w))
  | .hexadecimal, _ => some (.plain .integer)
  | .integer, _ => some (.plain .integer)
  | .float, _ => some (.plain .float)
  | .quote, _ => none
  | .operator kind, _ => some (.plain kind)

/-- The piece at the head of a text. A block comment goes on to the first end mark, or to the end.
-/
inductive Cuts (cs : List Char) : Piece → Prop where
  | matched {pattern : Pattern} {w left : List Char} {role : Role} : Longest cs pattern w →
      pattern.role? w = some role → cs = w ++ left → Cuts cs ⟨role, w, left⟩
  | comment {body left : List Char} : Longest cs .commentStart ['/', '*'] →
      cs = ['/', '*'] ++ body ++ ['*', '/'] ++ left → ¬ ['*', '/'] <:+: body ++ ['*'] →
      Cuts cs ⟨.skipped, ['/', '*'] ++ body ++ ['*', '/'], left⟩
  | openComment {body : List Char} : Longest cs .commentStart ['/', '*'] → cs = ['/', '*'] ++ body →
      ¬ ['*', '/'] <:+: body → Cuts cs ⟨.skipped, cs, []⟩
  | quoted {quote : Char} {content taken left : List Char} {ending : Ending} :
      Longest cs .quote [quote] → cs = quote :: taken ++ left →
      Cuts cs ⟨.quoted content ending, quote :: taken, left⟩
  | stray {c : Char} {left : List Char} :
      (∀ (pattern : Pattern) (v : List Char), v ∈ pattern.language → ¬ v <+: cs) → cs = c :: left →
      Cuts cs ⟨.stray, [c], left⟩

theorem mem_star : w ∈ (oneOf members)∗ ↔ ∀ c ∈ w, c ∈ members := by
  rw [Language.mem_kstar]
  constructor
  · rintro ⟨parts, rfl, each⟩ c inside
    obtain ⟨part, listed, inside⟩ := List.mem_flatten.mp inside
    obtain ⟨d, member, rfl⟩ := each part listed
    rwa [List.mem_singleton.mp inside]
  · intro all
    refine ⟨w.map ([·]), by rw [← List.flatMap_def, List.flatMap_singleton'], fun y listed => ?_⟩
    obtain ⟨c, inside, rfl⟩ := List.mem_map.mp listed
    exact ⟨c, all c inside, rfl⟩

theorem mem_oneOf_star {first others : Set Char} :
    w ∈ oneOf first * (oneOf others)∗ ↔ ∃ c t, w = c :: t ∧ c ∈ first ∧ ∀ d ∈ t, d ∈ others := by
  rw [Language.mem_mul]
  constructor
  · rintro ⟨a, ⟨c, member, rfl⟩, t, rest, rfl⟩
    exact ⟨c, t, rfl, member, mem_star.mp rest⟩
  · rintro ⟨c, t, rfl, member, rest⟩
    exact ⟨[c], ⟨c, member, rfl⟩, t, mem_star.mpr rest, rfl⟩

theorem mem_plus :
    w ∈ plus (oneOf members) ↔ ∃ c t, w = c :: t ∧ c ∈ members ∧ ∀ d ∈ t,
    d ∈ members := mem_oneOf_star

theorem mem_exactly_mul {l : Language Char} : w ∈ exactly text * l ↔ ∃ t ∈ l, w = text ++ t := by
  rw [Language.mem_mul]
  constructor
  · rintro ⟨a, rfl, t, member, rfl⟩
    exact ⟨t, member, rfl⟩
  · rintro ⟨t, member, rfl⟩
    exact ⟨_, rfl, t, member, rfl⟩

theorem mem_digits : c ∈ digits ↔ Reading.isDigit c = true := by
  simp [digits, Reading.isDigit]

theorem mem_letters : c ∈ letters ↔ isWordStart c = true := by
  simp [letters, isWordStart, or_assoc]

theorem mem_hexDigits : c ∈ hexDigits ↔ isHexDigit c = true := by
  simp [hexDigits, isHexDigit, Reading.isDigit, or_assoc]

theorem mem_blanks : c ∈ Token.blanks ↔ isBlank c = true := by
  simp [Token.blanks, isBlank_iff]

theorem mem_wordParts : c ∈ letters ∪ digits ↔ isWordPart c = true := by
  rw [Set.mem_union, mem_letters, mem_digits, isWordPart, Bool.or_eq_true]

theorem mem_inLine : c ∈ ({'\n'}ᶜ : Set Char) ↔ (c != '\n') = true := by simp

theorem cut_blank (blank : isBlank c = true) (rest : List Char) :
    cut c rest = run .skipped [c] isBlank rest := by
  rw [cut, if_neg (ne_of_class blank (by decide)), if_pos blank]

theorem mem_operators (listed : (text, kind) ∈ operators) :
    (∃ a, text = [a] ∧ single? a = some kind) ∨ ∃ a b, text = [a, b] ∧ double? a b = some kind := by
  have table : ∀ entry ∈ operators, (∃ a, entry.1 = [a] ∧ single? a = some entry.2) ∨
      ∃ a b, entry.1 = [a, b] ∧ double? a b = some entry.2 := by
    simp only [operators, List.forall_mem_cons, List.cons.injEq, and_true, ↓existsAndEq]
    simp [single?, double?]
  exact table _ listed

theorem single_mem_operators (single : single? c = some kind) : ([c], kind) ∈ operators := by
  unfold single? at single
  split at single
  all_goals cases single
  all_goals decide

theorem double_mem_operators (double : double? c d = some kind) : ([c, d], kind) ∈ operators := by
  unfold double? at double
  split at double
  all_goals cases double
  all_goals decide

theorem cut_single (single : single? c = some kind) (rest : List Char) :
    (cut c rest).role ≠ .stray := by
  unfold cut word number decimal string mark alone run
  repeat' split
  all_goals simp_all

theorem mem_takeWhile (inside : c ∈ cs.takeWhile p) :
    p c = true := List.all_eq_true.mp (List.all_takeWhile ..) c inside

theorem length_le_takeWhile (front : t <+: cs) (all : ∀ c ∈ t, p c = true) :
    t.length ≤ (cs.takeWhile p).length := by
  obtain ⟨more, rfl⟩ := front
  rw [List.takeWhile_append_of_pos all, List.length_append]
  exact Nat.le_add_right _ _

/-- The characters at the head of a text that a pattern matches, and none where nothing starts. The
rest of a block comment or of a quoted text comes behind them. -/
def lead (c : Char) (rest : List Char) : List Char :=
  if c = '"' ∨ c = '\'' then [c]
  else if c = '/' ∧ rest.head? = some '*' then ['/', '*']
  else if (cut c rest).role = .stray then []
  else (cut c rest).taken

theorem lead_eq (same : cut c rest = q) (noQuote : c ≠ '"' ∧ c ≠ '\'')
    (noComment : c = '/' → rest.head? ≠ some '*') (solid : q.role ≠ .stray) :
    lead c rest = q.taken := by
  rw [lead, if_neg (by simp [noQuote]), if_neg (fun both => noComment both.1 both.2), same,
    if_neg solid]

theorem lead_of_class (holds : p c = true) (same : cut c rest = q) (solid : q.role ≠ .stray)
    (fails : ['"', '\'', '/'].any p = false) : lead c rest = q.taken := by
  have outside : c ∉ ['"', '\'', '/'] := fun listed => List.any_eq_false.mp fails c listed holds
  simp only [List.mem_cons, List.not_mem_nil, or_false, not_or] at outside
  exact lead_eq same ⟨outside.1, outside.2.1⟩ (fun slash => absurd slash outside.2.2) solid

theorem lead_blank (blank : isBlank c = true) (rest : List Char) :
    lead c rest = c :: rest.takeWhile isBlank :=
  lead_of_class blank (cut_blank blank rest) (by simp [run]) rfl

theorem lead_word (start : isWordStart c = true) (rest : List Char) :
    lead c rest = c :: rest.takeWhile isWordPart :=
  lead_of_class start (cut_word start rest) (by simp [word]) rfl

theorem lead_number (digit : Reading.isDigit c = true) (rest : List Char) :
    lead c rest = (number c rest).taken := by
  refine lead_of_class digit (cut_number digit rest) ?_ rfl
  unfold number decimal run
  repeat' split
  all_goals simp

theorem digits_le_number (c : Char) (rest : List Char) :
    1 + (rest.takeWhile Reading.isDigit).length ≤ (number c rest).taken.length := by
  have decimals : 1 + (rest.takeWhile Reading.isDigit).length ≤ (decimal c rest).taken.length := by
    unfold decimal run
    split
    all_goals simp
    all_goals omega
  unfold number
  split
  · split
    · simp [run, show Reading.isDigit 'x' = false by decide]
    · exact decimals
  · exact decimals

theorem number_of_point {more : List Char} (whole : ∀ d ∈ t, Reading.isDigit d = true) :
    (number c (t ++ '.' :: more)).taken = c :: t ++ ['.'] ++ more.takeWhile Reading.isDigit := by
  have plain : number c (t ++ '.' :: more) = decimal c (t ++ '.' :: more) := by
    unfold number
    split
    · rename_i d others marked
      cases t with
      | nil => cases marked
      | cons x t =>
        obtain ⟨rfl, -⟩ := List.cons.inj marked
        exact absurd (whole 'x' (by simp)) (by decide)
    · rfl
  have point : Reading.isDigit '.' = false := by decide
  rw [plain, decimal]
  simp [List.takeWhile_append_of_pos whole, List.dropWhile_append_of_pos whole, point, run]

theorem cut_fraction (digit : Reading.isDigit d = true) (more : List Char) :
    cut '.' (d :: more) = run (.plain .float) ['.', d] Reading.isDigit more := by
  change mark '.' (d :: more) = _
  simp [mark, digit]

theorem lead_fraction (digit : Reading.isDigit d = true) (more : List Char) :
    lead '.' (d :: more) = '.' :: d :: more.takeWhile Reading.isDigit :=
  lead_eq (cut_fraction digit more) (by decide) (fun slash => absurd slash (by decide))
    (by simp [run])

theorem Pattern.le_lead {p : Pattern} {v : List Char} (matched : v ∈ p.language)
    (front : v <+: c :: rest) :
    0 < v.length ∧ v.length ≤ (lead c rest).length := by
  -- The first characters of a pattern select the arm of `lead`, whose run takes in its own.
  cases p with
  | blanks =>
    obtain ⟨b, t, rfl, member, all⟩ := mem_plus.mp matched
    obtain ⟨rfl, along⟩ := List.cons_prefix_cons.mp front
    rw [lead_blank (mem_blanks.mp member)]
    exact ⟨Nat.succ_pos _, Nat.succ_le_succ
      (length_le_takeWhile along fun d inside => mem_blanks.mp (all d inside))⟩
  | lineBreak =>
    obtain rfl : v = ['\n'] := matched
    obtain ⟨rfl, -⟩ := List.cons_prefix_cons.mp front
    simp [lead, cut]
  | lineComment =>
    obtain ⟨t, all, rfl⟩ := mem_exactly_mul.mp matched
    obtain ⟨rfl, more, rfl⟩ := List.cons_prefix_cons.mp front
    have run : t.length ≤ ((t ++ more).takeWhile (· != '\n')).length :=
      length_le_takeWhile (List.prefix_append t more) fun d inside =>
        mem_inLine.mp (mem_star.mp all d inside)
    have same : lead '/' ('/' :: (t ++ more)) = '/' :: '/' :: (t ++ more).takeWhile (· != '\n') :=
      rfl
    change 0 < t.length + 2 ∧ t.length + 2 ≤ (lead '/' ('/' :: (t ++ more))).length
    rw [same]
    exact ⟨Nat.succ_pos _, Nat.add_le_add_right run 2⟩
  | commentStart =>
    obtain rfl : v = ['/', '*'] := matched
    obtain ⟨rfl, more, rfl⟩ := List.cons_prefix_cons.mp front
    exact ⟨by decide, Nat.le_refl 2⟩
  | word =>
    obtain ⟨b, t, rfl, member, all⟩ := mem_oneOf_star.mp matched
    obtain ⟨rfl, along⟩ := List.cons_prefix_cons.mp front
    rw [lead_word (mem_letters.mp member)]
    exact ⟨Nat.succ_pos _, Nat.succ_le_succ
      (length_le_takeWhile along fun d inside => mem_wordParts.mp (all d inside))⟩
  | hexadecimal =>
    obtain ⟨t, run, rfl⟩ := mem_exactly_mul.mp matched
    obtain ⟨d, t, rfl, head, all⟩ := mem_plus.mp run
    obtain ⟨rfl, more, rfl⟩ := List.cons_prefix_cons.mp front
    have run := length_le_takeWhile (List.prefix_append t more) fun e inside =>
      mem_hexDigits.mp (all e inside)
    rw [lead_number (by decide)]
    simp [number, mem_hexDigits.mp head, Piece.run, run]
  | integer =>
    obtain ⟨b, t, rfl, member, all⟩ := mem_plus.mp matched
    obtain ⟨rfl, along⟩ := List.cons_prefix_cons.mp front
    have run := length_le_takeWhile (p := Reading.isDigit) along
      fun d inside => mem_digits.mp (all d inside)
    rw [lead_number (mem_digits.mp member), List.length_cons]
    exact ⟨Nat.succ_pos _, Nat.le_trans (by omega) (digits_le_number b rest)⟩
  | float =>
    rcases (Language.mem_add _ _ _).mp matched with leading | trailing
    · obtain ⟨w, run, u, point, rfl⟩ := Language.mem_mul.mp leading
      obtain ⟨b, t, rfl, first, all⟩ := mem_plus.mp run
      obtain ⟨z, fraction, rfl⟩ := mem_exactly_mul.mp point
      rw [List.cons_append] at front ⊢
      obtain ⟨rfl, more, rfl⟩ := List.cons_prefix_cons.mp front
      have run := length_le_takeWhile (p := Reading.isDigit) (List.prefix_append z more)
        fun d inside => mem_digits.mp (mem_star.mp fraction d inside)
      rw [lead_number (mem_digits.mp first), List.append_assoc t]
      change _ ∧ _ ≤ (number b (t ++ '.' :: (z ++ more))).taken.length
      rw [number_of_point fun d inside => mem_digits.mp (all d inside)]
      simp [run]
    · obtain ⟨w, run, rfl⟩ := mem_exactly_mul.mp trailing
      obtain ⟨d, t, rfl, head, all⟩ := mem_plus.mp run
      obtain ⟨rfl, more, rfl⟩ := List.cons_prefix_cons.mp front
      have run := length_le_takeWhile (p := Reading.isDigit) (List.prefix_append t more)
        fun e inside => mem_digits.mp (all e inside)
      change 0 < t.length + 2 ∧ t.length + 2 ≤ (lead '.' (d :: (t ++ more))).length
      rw [lead_fraction (mem_digits.mp head)]
      exact ⟨Nat.succ_pos _, Nat.add_le_add_right run 2⟩
  | quote =>
    rcases (Language.mem_add _ _ _).mp matched with same | same
    · obtain rfl : v = ['"'] := same
      obtain ⟨rfl, -⟩ := List.cons_prefix_cons.mp front
      simp [lead]
    · obtain rfl : v = ['\''] := same
      obtain ⟨rfl, -⟩ := List.cons_prefix_cons.mp front
      simp [lead]
  | operator kind =>
    rcases mem_operators matched with ⟨a, rfl, single⟩ | ⟨a, b, rfl, double⟩
    · obtain ⟨rfl, -⟩ := List.cons_prefix_cons.mp front
      have some_ := List.length_pos_iff.mpr (cut_taken_ne_nil a rest)
      rw [lead, if_neg (cut_single single rest)]
      repeat' split
      all_goals simp
      exact some_
    · obtain ⟨rfl, more, rfl⟩ := List.cons_prefix_cons.mp front
      unfold double? at double
      split at double
      all_goals first | exact ⟨by decide, Nat.le_refl 2⟩ | cases double

theorem longest_of_lead {p : Pattern} {left : List Char} (matched : w ∈ p.language)
    (whole : w ++ left = c :: rest) (same : lead c rest = w) : Longest (c :: rest) p w where
  matched := matched
  front := ⟨left, whole⟩
  longest _ _ found front := same ▸ (Pattern.le_lead found front).2

theorem Cuts.of_lead {p : Pattern} (matched : q.taken ∈ p.language)
    (role : p.role? q.taken = some q.role) (whole : q.taken ++ q.left = c :: rest)
    (same : lead c rest = q.taken) : Cuts (c :: rest) q :=
  .matched (longest_of_lead matched whole same) role whole.symm

theorem takeWhile_digits (cs : List Char) : cs.takeWhile Reading.isDigit ∈ (oneOf digits)∗ :=
  mem_star.mpr fun _ inside => mem_digits.mpr (mem_takeWhile inside)

theorem digits_mem (digit : Reading.isDigit c = true) (cs : List Char) :
    c :: cs.takeWhile Reading.isDigit ∈ plus (oneOf digits) :=
  mem_plus.mpr ⟨c, _, rfl, mem_digits.mpr digit, mem_star.mp (takeWhile_digits cs)⟩

theorem number_matched (digit : Reading.isDigit c = true) (rest : List Char) :
    ∃ p : Pattern, (number c rest).taken ∈ p.language ∧
      p.role? (number c rest).taken = some (number c rest).role := by
  have decimals : ∃ p : Pattern, (decimal c rest).taken ∈ p.language ∧
      p.role? (decimal c rest).taken = some (decimal c rest).role := by
    unfold decimal
    split
    · rename_i more point
      refine ⟨.float, Or.inl (Language.mem_mul.mpr ⟨_, digits_mem digit rest, _, mem_exactly_mul.mpr
        ⟨_, takeWhile_digits more, rfl⟩, ?_⟩), rfl⟩
      simp [run]
    · exact ⟨.integer, digits_mem digit rest, rfl⟩
  unfold number
  split
  · rename_i d more
    split
    · rename_i marked
      obtain ⟨rfl, hex⟩ : c = '0' ∧ isHexDigit d = true := by simpa using marked
      refine ⟨.hexadecimal, mem_exactly_mul.mpr ⟨d :: more.takeWhile isHexDigit,
        mem_plus.mpr ?_, rfl⟩, rfl⟩
      exact ⟨d, _, rfl, mem_hexDigits.mpr hex, fun _ inside =>
        mem_hexDigits.mpr (mem_takeWhile inside)⟩
    · exact decimals
  · exact decimals

theorem blockComment_spec (cs : List Char) :
    (∃ body, (blockComment cs).1 = body ++ ['*', '/'] ∧ ¬ ['*', '/'] <:+: body ++ ['*']) ∨
      (blockComment cs).1 = cs ∧ (blockComment cs).2 = [] ∧ ¬ ['*', '/'] <:+: cs := by
  fun_induction blockComment cs with
  | case1 => exact Or.inr ⟨rfl, rfl, by decide⟩
  | case2 rest => exact Or.inl ⟨[], rfl, by decide⟩
  | case3 c rest noEnd taken left same ih =>
    have whole := blockComment_split rest
    rw [same] at ih whole
    have later {l : List Char} (start : l <+: rest) : ¬ ['*', '/'] <+: c :: l := by
      intro front
      obtain ⟨rfl, slash⟩ := List.cons_prefix_cons.mp front
      obtain ⟨more, split⟩ := slash.trans start
      exact noEnd more rfl split.symm
    rcases ih with ⟨body, rfl, none_⟩ | ⟨rfl, rfl, none_⟩
    · refine Or.inl ⟨c :: body, rfl, fun inside => ?_⟩
      rcases List.infix_cons_iff.mp inside with front | inner
      · refine later ⟨['/'] ++ left, ?_⟩ front
        rw [← whole]
        simp
      · exact none_ inner
    · refine Or.inr ⟨rfl, rfl, fun inside => ?_⟩
      rcases List.infix_cons_iff.mp inside with front | inner
      · exact later (List.prefix_refl _) front
      · exact none_ inner

theorem comment_cuts (more : List Char) : Cuts ('/' :: '*' :: more) (mark '/' ('*' :: more)) := by
  have opening : Longest ('/' :: '*' :: more) .commentStart ['/', '*'] :=
    longest_of_lead rfl rfl rfl
  have whole := blockComment_split more
  change Cuts _ ⟨.skipped, '/' :: '*' :: (blockComment more).1, (blockComment more).2⟩
  rcases blockComment_spec more with ⟨body, closed, first⟩ | ⟨all, none_, open_⟩
  · rw [closed] at whole ⊢
    refine .comment opening ?_ first
    rw [List.append_assoc, List.append_assoc, ← List.append_assoc body, whole]
    rfl
  · rw [all, none_]
    exact .openComment opening rfl open_

theorem alone_cuts (same : cut c rest = alone c rest) (noQuote : c ≠ '"' ∧ c ≠ '\'')
    (noComment : c = '/' → rest.head? ≠ some '*') : Cuts (c :: rest) (alone c rest) := by
  cases single : single? c with
  | some kind =>
    rw [alone, single] at same ⊢
    exact .of_lead (p := .operator kind) (single_mem_operators single) rfl rfl
      (lead_eq same noQuote noComment (by simp))
  | none =>
    rw [alone, single] at same ⊢
    have nothing : lead c rest = [] := by
      rw [lead, if_neg (by simp [noQuote]), if_neg (fun both => noComment both.1 both.2), same,
        if_pos rfl]
    refine .stray (fun p v matched front => ?_) rfl
    obtain ⟨some_, less⟩ := Pattern.le_lead matched front
    rw [nothing] at less
    exact absurd less (Nat.not_le.mpr some_)

theorem mark_cuts (same : cut c rest = mark c rest) (noQuote : c ≠ '"' ∧ c ≠ '\'') :
    Cuts (c :: rest) (mark c rest) := by
  cases rest with
  | nil => exact alone_cuts same noQuote (by simp)
  | cons d more =>
    by_cases line : c = '/' ∧ d = '/'
    · obtain ⟨rfl, rfl⟩ := line
      exact .of_lead (p := .lineComment) (mem_exactly_mul.mpr ⟨_, mem_star.mpr fun _ inside =>
        mem_inLine.mpr (mem_takeWhile (p := (· != '\n')) inside), rfl⟩) rfl (mark_split _ _) rfl
    by_cases comment : c = '/' ∧ d = '*'
    · obtain ⟨rfl, rfl⟩ := comment
      exact comment_cuts more
    by_cases point : c = '.' ∧ Reading.isDigit d = true
    · obtain ⟨rfl, digit⟩ := point
      rw [← same, cut_fraction digit]
      exact .of_lead (p := .float) (Or.inr (mem_exactly_mul.mpr ⟨_, digits_mem digit more, rfl⟩))
        rfl (run_split _ _ _ _) (lead_fraction digit more)
    have noComment : c = '/' → (d :: more).head? ≠ some '*' :=
      fun slash star => comment ⟨slash, Option.some.inj star⟩
    rw [mark, if_neg line, if_neg comment, if_neg point] at same ⊢
    cases double : double? c d with
    | some kind =>
      rw [double] at same
      exact .of_lead (p := .operator kind) (double_mem_operators double) rfl rfl
        (lead_eq same noQuote noComment (by simp))
    | none =>
      rw [double] at same
      exact alone_cuts same noQuote noComment

theorem cut_cuts (c : Char) (rest : List Char) : Cuts (c :: rest) (cut c rest) := by
  by_cases feed : c = '\n'
  · subst feed
    exact .of_lead (p := .lineBreak) rfl rfl rfl rfl
  by_cases blank : isBlank c = true
  · rw [cut_blank blank]
    exact .of_lead (p := .blanks) (mem_plus.mpr ⟨c, _, rfl, mem_blanks.mpr blank,
      fun _ inside => mem_blanks.mpr (mem_takeWhile inside)⟩) rfl (run_split _ _ _ _)
        (lead_blank blank rest)
  by_cases start : isWordStart c = true
  · rw [cut_word start]
    exact .of_lead (p := .word) (mem_oneOf_star.mpr ⟨c, _, rfl, mem_letters.mpr start,
      fun _ inside => mem_wordParts.mpr (mem_takeWhile inside)⟩) rfl (word_split c rest)
        (lead_word start rest)
  by_cases digit : Reading.isDigit c = true
  · obtain ⟨p, matched, role⟩ := number_matched digit rest
    rw [cut_number digit]
    exact .of_lead matched role (number_split c rest) (lead_number digit rest)
  have same : cut c rest = if c = '"' || c = '\'' then string c rest else mark c rest := by
    rw [cut, if_neg feed, if_neg blank, if_neg start, if_neg digit]
  by_cases quote : c = '"' ∨ c = '\''
  · have member : [c] ∈ Pattern.quote.language :=
      quote.imp (fun same => congrArg ([·]) same) fun same => congrArg ([·]) same
    rw [same, if_pos (by simpa using quote)]
    exact .quoted (longest_of_lead (p := .quote) member rfl (if_pos quote))
      (string_split c rest).symm
  · rw [if_neg (by simpa using quote)] at same
    rw [same]
    exact mark_cuts same (by simpa using quote)

open Source

theorem cut_of_pieces {front back : List Piece} {p : Piece}
    (split : pieces cs = front ++ p :: back) :
    ∃ c rest, cs = taken front ++ c :: rest ∧ p = cut c rest := by
  induction front generalizing cs with
  | nil =>
    cases cs with
    | nil => simp at split
    | cons c rest =>
      rw [pieces_cons, List.nil_append] at split
      exact ⟨c, rest, rfl, (List.cons.inj split).1.symm⟩
  | cons q front ih =>
    cases cs with
    | nil => simp at split
    | cons c rest =>
      rw [pieces_cons, List.cons_append] at split
      obtain ⟨rfl, later⟩ := List.cons.inj split
      obtain ⟨d, more, left, same⟩ := ih later
      refine ⟨d, more, ?_, same⟩
      rw [taken_cons, List.append_assoc, ← left, cut_split]

theorem place_split {before : List Char} {ps : List Piece} {front back : List Placed} {q : Placed}
    (split : place before ps = front ++ q :: back) :
    ∃ more, ps = front.map (·.piece) ++ q.piece :: more ∧
      q.before = before ++ front.flatMap (·.piece.taken) := by
  induction front generalizing before ps with
  | nil =>
    cases ps with
    | nil => cases split
    | cons p ps =>
      obtain ⟨rfl, -⟩ := List.cons.inj split
      exact ⟨ps, rfl, by simp⟩
  | cons first front ih =>
    cases ps with
    | nil => cases split
    | cons p ps =>
      obtain ⟨rfl, later⟩ := List.cons.inj split
      obtain ⟨more, same, behind⟩ := ih later
      exact ⟨more, congrArg (p :: ·) same, by rw [behind]; simp⟩

theorem taken_place (before : List Char) (ps : List Piece) :
    (place before ps).flatMap (·.piece.taken) = taken ps := by
  induction ps generalizing before with
  | nil => rfl
  | cons p ps ih =>
    rw [place, List.flatMap_cons, ih, taken_cons]

theorem tokens_le (before : List Char) (cs : List Char) :
    ((place before (pieces cs)).filterMap (·.token?)).length ≤ cs.length := by
  fun_induction pieces cs generalizing before with
  | case1 => exact Nat.le_refl 0
  | case2 c rest shorter ih =>
    have later := ih (before ++ (cut c rest).taken)
    rw [place, List.filterMap_cons]
    split
    · omega
    · rw [List.length_cons]
      omega

theorem Placed.token?_solid {q : Placed} (cut_ : q.piece = cut c rest) {t : Token}
    (token : q.token? = some t) :
    t.kind ≠ .endOfFile := by
  have solid := (cut_sound c rest).solid
  rw [← cut_] at solid
  unfold Placed.token? Piece.token? at token
  split at token
  · cases token
  · cases token
  · cases token
    simp [endOfLine]
  · rename_i kind same
    cases token
    rintro rfl
    exact solid same
  · cases token
    simp

end Token

namespace TokenStream

open Source Token

variable {source : String} {s : TokenStream} {ps : List Piece}

theorem read_placed (free : s.pushed = none) (reached : Reached source s ps) (k : Nat) :
    ((fun s : TokenStream => s.next.2)^[k] s).next.1 =
      ((place (taken ps) (pieces s.rest)).filterMap (·.token?)).getD k
        (endOfFile (.ofNat (lineOf source.toList))) := by
  induction k generalizing s ps with
  | zero =>
    obtain ⟨more, further, scanned⟩ := reached.scan
    rw [Function.iterate_zero, id, next_free free, place_scanned scanned, List.filterMap_append]
    rcases scanned.token with ⟨one, -⟩ | ⟨none_, nothing, last⟩
    · rw [one]
      rfl
    · have line : s.scan.2.line = .ofNat (lineOf source.toList) := by
        rw [further.line, further.text, show s.scan.2.rest = [] from nothing, List.append_nil]
      rw [none_, nothing, pieces_nil]
      change (Token.scan s.rest s.line).token = endOfFile (.ofNat (lineOf source.toList))
      rw [last, ← line]
      rfl
  | succ k ih =>
    obtain ⟨more, further, scanned⟩ := reached.scan
    have later := ih rfl further
    rw [Function.iterate_succ_apply, next_free free, later, place_scanned scanned,
      List.filterMap_append, taken_append]
    rcases scanned.token with ⟨one, -⟩ | ⟨none_, nothing, -⟩
    · rw [one]
      rfl
    · rw [none_]
      change _ = List.getD (List.filterMap _ (place _ (pieces s.scan.2.rest))) (k + 1) _
      rw [show s.scan.2.rest = [] from nothing, pieces_nil]
      rfl

theorem errors_placed (free : s.pushed = none) (reached : Reached source s ps) (k : Nat)
    (enough : ((place (taken ps) (pieces s.rest)).filterMap (·.token?)).length < k) :
    ((fun s : TokenStream => s.next.2)^[k] s).errors.toList =
      s.errors.toList ++ (place (taken ps) (pieces s.rest)).flatMap (·.problems) := by
  induction k generalizing s ps with
  | zero => exact absurd enough (Nat.not_lt_zero _)
  | succ k ih =>
    obtain ⟨more, further, scanned⟩ := reached.scan
    rw [place_scanned scanned] at enough ⊢
    rw [Function.iterate_succ_apply, next_free free, List.flatMap_append, ← List.append_assoc,
      ← scanned.problems, ← scan_errors, ← taken_append]
    rw [List.filterMap_append, List.length_append, ← taken_append] at enough
    rcases scanned.token with ⟨one, -⟩ | ⟨none_, nothing, -⟩
    · rw [one, List.length_singleton] at enough
      exact ih rfl further (Nat.lt_of_add_lt_add_left (Nat.add_comm k 1 ▸ enough))
    · rw [nothing, pieces_nil]
      cases k with
      | zero => simp [place]
      | succ k =>
        have none_ : s.scan.2.rest = [] := nothing
        have later := ih rfl further (by rw [none_, pieces_nil]; exact Nat.succ_pos k)
        rw [none_, pieces_nil] at later
        exact later

end TokenStream

namespace Token

open Source

/-- The scanner tiles the source by longest match. The pieces of a source stand one behind the
other, none of them is empty, and together they are the source. Each is cut off the text that is
left by longest match: a word, a number, an operator, blanks or a comment, a quoted text, or a
character that nothing starts with. What is read are the tokens among the pieces in their order, at
most one for each character, and after them the end of the file for ever; the problems met are those
of the pieces. -/
theorem source_tiled (source : String) : (placed source).flatMap (·.piece.taken) = source.toList ∧
    (∀ front q back, placed source = front ++ q :: back →
      q.before = front.flatMap (·.piece.taken) ∧ q.piece.taken ≠ [] ∧
      ∃ rest, source.toList = q.before ++ rest ∧ Cuts rest q.piece) ∧
    (∀ t ∈ (placed source).filterMap (·.token?), t.kind ≠ .endOfFile) ∧
    ((placed source).filterMap (·.token?)).length ≤ source.length ∧
    (∀ k, ((fun s : TokenStream => s.next.2)^[k] (.ofSource source)).next.1 =
      ((placed source).filterMap (·.token?)).getD k (endOfFile (.ofNat (lineOf source.toList)))) ∧
    ∀ k, ((placed source).filterMap (·.token?)).length < k →
      ((fun s : TokenStream => s.next.2)^[k] (.ofSource source)).errors.toList =
        (placed source).flatMap (·.problems) := by
  have cut_at {front back : List Placed} {q : Placed} (split : placed source = front ++ q :: back) :
      q.before = front.flatMap (·.piece.taken) ∧
        ∃ c rest, source.toList = q.before ++ c :: rest ∧ q.piece = Piece.cut c rest := by
    obtain ⟨more, ps, before⟩ := place_split split
    obtain ⟨c, rest, text, same⟩ := cut_of_pieces ps
    have before : q.before = front.flatMap (·.piece.taken) := before
    refine ⟨before, c, rest, ?_, same⟩
    rw [text, before, taken, List.flatMap_map]
  have reached := TokenStream.ofSource_reached source
  refine ⟨?_, fun front q back split => ?_, fun t member => ?_, ?_,
    fun k => TokenStream.read_placed rfl reached k, fun k =>
      TokenStream.errors_placed rfl reached k⟩
  · rw [placed, taken_place, taken_pieces]
  · obtain ⟨before, c, rest, text, same⟩ := cut_at split
    rw [same]
    exact ⟨before, Piece.cut_taken_ne_nil c rest, c :: rest, text, cut_cuts c rest⟩
  · obtain ⟨q, there, token⟩ := List.mem_filterMap.mp member
    obtain ⟨front, back, split⟩ := List.append_of_mem there
    obtain ⟨-, c, rest, -, same⟩ := cut_at split
    exact Placed.token?_solid same token
  · rw [← String.length_toList]
    exact tokens_le [] source.toList

theorem source_tiled_overlaps :
    let source := "0xG 1..2</* <"
    (placed source).map (fun q => String.ofList q.piece.taken) =
      ["0", "xG", " ", "1.", ".2", "<", "/* <"] ∧
    (∀ q ∈ placed source, ∃ rest, source.toList = q.before ++ rest ∧ Cuts rest q.piece) ∧
    ((fun s : TokenStream => s.next.2)^[4] (.ofSource source)).next.1.lexeme = "<" ∧
    ((fun s : TokenStream => s.next.2)^[5] (.ofSource source)).next.1 = endOfFile 1 := by
  intro source
  obtain ⟨-, cuts, -, -, reads, -⟩ := source_tiled source
  refine ⟨by decide +kernel, fun q member => ?_, ?_, ?_⟩
  · obtain ⟨front, back, split⟩ := List.append_of_mem member
    exact (cuts front q back split).2.2
  · rw [reads 4]
    decide +kernel
  · rw [reads 5]
    decide +kernel

end Token

end Scriptlet
