import Scriptlet.Token.Stream

/-!
Quoted texts and how they are written. Between quotes a text is read piece by piece: what a piece
stands for does not depend on what follows it, and pieces put together stand for their contents put
together. So every text can be written in either quotes and is read back as it was.

Behind a backslash a line break does not end a quoted text. One that starts with a carriage return
then stands for itself, while in front of a line feed the backslash is an unknown escape and stays
in the text.
-/
namespace Scriptlet

namespace Token.Piece

variable {quote c : Char} {written content rest text u v : List Char}

/-- Between such quotes, what is written stands for the content, whatever follows. -/
def StandsFor (quote : Char) (written content : List Char) : Prop :=
  ∀ rest, quotation quote (written ++ rest) = (quotation quote rest).push content written

theorem StandsFor.append {more : List Char} (first : StandsFor quote written content)
    (second : StandsFor quote more text) : StandsFor quote (written ++ more) (content ++ text) := by
  intro rest
  rw [List.append_assoc, first, second]
  simp [Quotation.push]

theorem StandsFor.flatMap {spell : Char → List Char}
    (each : ∀ c ∈ text, StandsFor quote (spell c) [c]) :
    StandsFor quote (text.flatMap spell) text := by
  induction text with
  | nil => exact fun _ => rfl
  | cons c text ih =>
    obtain ⟨first, others⟩ := List.forall_mem_cons.mp each
    exact first.append (ih others)

theorem StandsFor.closed (stands : StandsFor quote written content) (rest : List Char) :
    quotation quote (written ++ quote :: rest) = ⟨content, .closed, written ++ [quote], rest⟩ := by
  rw [stands, quotation.eq_def]
  simp [Quotation.push]

def Verbatim (quote c : Char) : Prop := c ≠ quote ∧ c ≠ '\\' ∧ c ≠ '\n' ∧ c ≠ '\r'

theorem Verbatim.standsFor (verbatim : Verbatim quote c) : StandsFor quote [c] [c] := by
  intro rest
  obtain ⟨unquoted, unescaped, noFeed, noReturn⟩ := verbatim
  rw [List.singleton_append, quotation.eq_def]
  simp [unquoted, unescaped, noFeed, noReturn]

theorem standsFor_itself (verbatim : ∀ c ∈ text, Verbatim quote c) : StandsFor quote text text := by
  have each := StandsFor.flatMap fun c member => (verbatim c member).standsFor
  rwa [List.flatMap_singleton'] at each

/-- Only a carriage return can take a second character along, a line feed. -/
theorem quotation_escape (solid : quote ≠ '\\') (single : c = '\r' → rest.head? ≠ some '\n') :
    quotation quote ('\\' :: c :: rest) = (quotation quote rest).push (escape c) ['\\', c] := by
  rw [quotation.eq_4 _ _ _ _ (by rintro more rfl rfl; exact single rfl rfl)]
  simp [solid.symm]

theorem escape_standsFor (solid : quote ≠ '\\') (single : c ≠ '\r') :
    StandsFor quote ['\\', c] (escape c) :=
  fun _ => quotation_escape solid fun same => absurd same single

def spelled (quote c : Char) : List Char :=
  if c = '\\' ∨ c = quote then ['\\', c]
  else if c = '\n' then ['\\', 'n']
  else if c = '\r' then ['\\', 'r']
  else [c]

def literal (quote : Char) (t : String) : List Char :=
  quote :: t.toList.flatMap (spelled quote) ++ [quote]

theorem escape_mark (mark : c = '\\' ∨ c = '"' ∨ c = '\'') :
    escape c = [c] ∧ c ≠ '\r' ∧ c ≠ '\n' := by
  rcases mark with rfl | rfl | rfl <;> decide

theorem spelled_standsFor (either : quote = '"' ∨ quote = '\'') (c : Char) :
    StandsFor quote (spelled quote c) [c] := by
  have solid : quote ≠ '\\' := by rcases either with rfl | rfl <;> decide
  unfold spelled
  split
  · rename_i marked
    obtain ⟨itself, single, -⟩ := escape_mark (marked.imp_right fun same => same ▸ either)
    exact itself ▸ escape_standsFor solid single
  · rename_i unmarked
    obtain ⟨unescaped, unquoted⟩ := not_or.mp unmarked
    split
    · rename_i feed
      exact feed ▸ escape_standsFor solid (by decide)
    · rename_i noFeed
      split
      · rename_i ret
        exact ret ▸ escape_standsFor solid (by decide)
      · rename_i noReturn
        exact Verbatim.standsFor ⟨unquoted, unescaped, noFeed, noReturn⟩

theorem spelled_unbroken (either : quote = '"' ∨ quote = '\'') (c : Char) :
    '\n' ∉ spelled quote c := by
  unfold spelled
  split
  · rename_i marked
    obtain ⟨-, -, noFeed⟩ := escape_mark (marked.imp_right fun same => same ▸ either)
    simp [noFeed.symm]
  · split
    · decide
    · rename_i noFeed
      split <;> simp [Ne.symm noFeed]

inductive LineBreak where
  | lf
  | cr
  | crlf
  deriving DecidableEq

def LineBreak.chars : LineBreak → List Char
  | lf => ['\n']
  | cr => ['\r']
  | crlf => ['\r', '\n']

/-- What a backslash and a line break stand for: the backslash is dropped, but not in front of a
line feed alone. -/
def LineBreak.continued (b : LineBreak) : List Char := (if b = lf then ['\\'] else []) ++ b.chars

theorem quotation_break (solid : quote ≠ '\\') (b : LineBreak) (apart : rest.head? ≠ some '\n') :
    quotation quote ('\\' :: b.chars ++ rest) =
      (quotation quote rest).push b.continued ('\\' :: b.chars) := by
  cases b with
  | lf => exact escape_standsFor solid (by decide) rest
  | cr => exact quotation_escape solid fun _ => apart
  | crlf =>
    rw [LineBreak.chars, List.cons_append, List.cons_append, List.cons_append, quotation.eq_3]
    simp [solid.symm, LineBreak.continued, LineBreak.chars]

theorem quotation_continued (either : quote = '"' ∨ quote = '\'') (b : LineBreak)
    (before : ∀ c ∈ u, Verbatim quote c) (behind : ∀ c ∈ v, Verbatim quote c) (rest : List Char) :
    quotation quote (u ++ ('\\' :: b.chars ++ (v ++ quote :: rest))) =
      ⟨u ++ b.continued ++ v, .closed, u ++ '\\' :: b.chars ++ v ++ [quote], rest⟩ := by
  have solid : quote ≠ '\\' ∧ quote ≠ '\n' := by rcases either with rfl | rfl <;> decide
  have apart : (v ++ quote :: rest).head? ≠ some '\n' := by
    cases v with
    | nil => simp [solid.2]
    | cons c v => simp [(behind c List.mem_cons_self).2.2.1]
  rw [standsFor_itself before, quotation_break solid.1 b apart, (standsFor_itself behind).closed]
  simp [Quotation.push]

theorem count_verbatim (verbatim : ∀ c ∈ text, Verbatim quote c) : text.count '\n' = 0 :=
  List.count_eq_zero.mpr fun member => (verbatim _ member).2.2.1 rfl

end Token.Piece

namespace TokenStream

open Token.Piece

variable {s : TokenStream} {quote : Char} {u v : List Char}

theorem next_quoted {rest content taken left : List Char} (either : quote = '"' ∨ quote = '\'')
    (ready : s.pushed = none) (ahead : s.rest = quote :: rest)
    (read : quotation quote rest = ⟨content, .closed, taken, left⟩) :
    s.next = (⟨.string, String.ofList content, s.line⟩,
      { s with rest := left, line := s.line + .ofNat (taken.count '\n') }) := by
  have quoted : cut quote rest = string quote rest := by rcases either with rfl | rfl <;> rfl
  have piece : cut quote rest = ⟨.quoted content .closed, quote :: taken, left⟩ := by
    rw [quoted, string, read]
  have unbroken : (quote :: taken).count '\n' = taken.count '\n' := by
    rcases either with rfl | rfl <;> rfl
  rw [next, ready]
  simp only [scan, ahead]
  rw [Token.scan]
  simp [piece, breaks, unbroken, Token.quotationErrors]

/-- A text that is written as a string literal is the next token, with the text as its value. No
problem is met, and the stream goes on with what follows, on the same line. -/
theorem literal_read (either : quote = '"' ∨ quote = '\'') (t r : String) (ready : s.pushed = none)
    (ahead : s.rest = literal quote t ++ r.toList) :
    let token : Token := ⟨.string, t, s.line⟩
    s.next = (token, { s with rest := r.toList }) ∧ token.literal? = some (.text t) := by
  have stands : StandsFor quote (t.toList.flatMap (spelled quote)) t.toList :=
    .flatMap fun c _ => spelled_standsFor either c
  have unbroken : (t.toList.flatMap (spelled quote) ++ [quote]).count '\n' = 0 := by
    rw [List.count_eq_zero]
    rcases either with rfl | rfl <;> simp [spelled_unbroken]
  refine ⟨?_, rfl⟩
  rw [next_quoted either ready (by rw [ahead, literal, List.append_assoc]; rfl)
    (stands.closed r.toList), unbroken, String.ofList_toList, show UInt32.ofNat 0 = 0 from rfl,
    UInt32.add_zero]

theorem literal_read_mixed :
    let source := "'it\\'s \"\\\\\"\\n' x"
    let text := "it's \"\\\"\n"
    (ofSource source).rest = literal '\'' text ++ " x".toList ∧
    (ofSource source).next = (⟨.string, text, 1⟩, ofSource " x") := by
  intro source text
  have ahead : (ofSource source).rest = literal '\'' text ++ " x".toList := by decide
  exact ⟨ahead, (literal_read (Or.inr rfl) text " x" rfl ahead).1⟩

/-- A string literal over two lines is one token, its text the two parts with the line break between
them and no problem met. Only in front of a line feed alone the backslash is part of the text. -/
theorem continued_line_read (either : quote = '"' ∨ quote = '\'') (b : LineBreak)
    (before : ∀ c ∈ u, Verbatim quote c) (behind : ∀ c ∈ v, Verbatim quote c) (r : List Char)
    (ready : s.pushed = none)
    (ahead : s.rest = quote :: (u ++ ('\\' :: b.chars ++ (v ++ quote :: r)))) :
    s.next = (⟨.string, String.ofList (u ++ b.continued ++ v), s.line⟩,
      { s with rest := r, line := s.line + .ofNat (b.chars.count '\n') }) := by
  have lines : (u ++ '\\' :: b.chars ++ v ++ [quote]).count '\n' = b.chars.count '\n' := by
    rcases either with rfl | rfl <;> simp [count_verbatim before, count_verbatim behind]
  rw [next_quoted either ready ahead (quotation_continued either b before behind r), lines]

theorem continued_line_read_both :
    (∀ c ∈ ['o', 'n', 'e'], Verbatim '"' c) ∧ (∀ c ∈ ['t', 'w', 'o'], Verbatim '"' c) ∧
    (ofSource "\"one\\\r\ntwo\" x").next =
      (⟨.string, "one\r\ntwo", 1⟩, ⟨[' ', 'x'], 2, none, #[], []⟩) ∧
    (ofSource "\"one\\\ntwo\" x").next =
      (⟨.string, "one\\\ntwo", 1⟩, ⟨[' ', 'x'], 2, none, #[], []⟩) := by
  have before : ∀ c ∈ ['o', 'n', 'e'], Verbatim '"' c := by simp [Verbatim]
  have behind : ∀ c ∈ ['t', 'w', 'o'], Verbatim '"' c := by simp [Verbatim]
  exact ⟨before, behind, continued_line_read (Or.inl rfl) .crlf before behind [' ', 'x'] rfl
    (by decide), continued_line_read (Or.inl rfl) .lf before behind [' ', 'x'] rfl (by decide)⟩

end TokenStream

end Scriptlet
