import Scriptlet.Token.Basic

/-!
Cutting a source text into pieces. At every place the longest piece is taken: a run of
blanks, a comment, a line break, a token, or a single character that starts nothing. A
piece remembers the characters it took and those it left, so that the pieces of a text
put together are the text.
-/
namespace Scriptlet.Token

inductive Ending where
  | closed
  | lineBreak
  | unclosed
  deriving DecidableEq, Repr

inductive Piece.Role where
  | skipped
  | stray
  | lineBreak
  | plain (kind : Kind)
  | quoted (content : List Char) (ending : Ending)
  deriving DecidableEq, Repr

structure Piece where
  role : Piece.Role
  taken : List Char
  left : List Char
  deriving DecidableEq, Repr

namespace Piece

def breaks (p : Piece) : Nat := p.taken.count '\n'

/-- Blanks are skipped. The line feed is not among them, because it ends a statement. -/
def isBlank (c : Char) : Bool := c == ' ' || c == '\t' || c == '\r' || c.toNat == 12

def isWordStart (c : Char) : Bool :=
  c == '_' || (decide ('a' ≤ c) && decide (c ≤ 'z')) || (decide ('A' ≤ c) && decide (c ≤ 'Z'))

def isWordPart (c : Char) : Bool := isWordStart c || Reading.isDigit c

def isHexDigit (c : Char) : Bool :=
  Reading.isDigit c || (decide ('a' ≤ c) && decide (c ≤ 'f'))
    || (decide ('A' ≤ c) && decide (c ≤ 'F'))

def run (role : Role) (head : List Char) (p : Char → Bool) (rest : List Char) : Piece :=
  ⟨role, head ++ rest.takeWhile p, rest.dropWhile p⟩

def word (c : Char) (rest : List Char) : Piece :=
  let cs := c :: rest.takeWhile isWordPart
  ⟨.plain (.ofWord cs), cs, rest.dropWhile isWordPart⟩

def decimal (c : Char) (rest : List Char) : Piece :=
  let whole := c :: rest.takeWhile Reading.isDigit
  match rest.dropWhile Reading.isDigit with
  | '.' :: more => run (.plain .float) (whole ++ ['.']) Reading.isDigit more
  | left => ⟨.plain .integer, whole, left⟩

/-- A number that starts with a digit. The mark `0x` needs a hexadecimal digit behind it,
otherwise the zero stands alone. -/
def number (c : Char) (rest : List Char) : Piece :=
  match rest with
  | 'x' :: d :: more =>
    if c == '0' && isHexDigit d then run (.plain .integer) [c, 'x', d] isHexDigit more
    else decimal c rest
  | _ => decimal c rest

def blockComment : List Char → List Char × List Char
  | [] => ([], [])
  | '*' :: '/' :: rest => (['*', '/'], rest)
  | c :: rest => let (taken, left) := blockComment rest; (c :: taken, left)

/-- What a backslash and the character behind it stand for. An unknown escape stands for
itself, backslash included. -/
def escape (c : Char) : List Char :=
  if c = 't' then ['\t']
  else if c = 'r' then ['\r']
  else if c = 'n' then ['\n']
  else if c = '\'' || c = '"' || c = '\\' then [c]
  else if c = '\r' then ['\r']
  else ['\\', c]

structure Quotation where
  content : List Char
  ending : Ending
  taken : List Char
  left : List Char

def Quotation.push (q : Quotation) (content taken : List Char) : Quotation :=
  { q with content := content ++ q.content, taken := taken ++ q.taken }

/-- Reads a quoted text behind its opening quote. A raw line break ends it and is left;
behind a backslash a carriage return continues it, with the line feed after it. -/
def quotation (quote : Char) : List Char → Quotation
  | [] => ⟨[], .unclosed, [], []⟩
  | c :: rest =>
    if c = quote then ⟨[], .closed, [c], rest⟩
    else if c = '\r' || c = '\n' then ⟨[], .lineBreak, [], c :: rest⟩
    else if c = '\\' then
      match rest with
      | [] => ⟨[], .unclosed, [c], []⟩
      | '\r' :: '\n' :: more => (quotation quote more).push ['\r', '\n'] [c, '\r', '\n']
      | e :: more => (quotation quote more).push (escape e) [c, e]
    else (quotation quote rest).push [c] [c]

def string (quote : Char) (rest : List Char) : Piece :=
  let q := quotation quote rest
  ⟨.quoted q.content q.ending, quote :: q.taken, q.left⟩

def single? (c : Char) : Option Kind :=
  match c with
  | '+' => some (.operator (.arithmetic .add))
  | '-' => some .minus
  | '*' => some (.operator (.arithmetic .multiply))
  | '/' => some (.operator (.arithmetic .divide))
  | '^' => some .power
  | '%' => some (.operator (.arithmetic .modulus))
  | '&' => some (.operator .concat)
  | '=' => some .equal
  | '>' => some (.operator (.relation .greater))
  | '<' => some (.operator (.relation .less))
  | '(' => some .leftParen
  | ')' => some .rightParen
  | '{' => some .leftBrace
  | '}' => some .rightBrace
  | '[' => some .leftBracket
  | ']' => some .rightBracket
  | ',' => some .comma
  | ':' => some .colon
  | _ => none

def double? (c d : Char) : Option Kind :=
  match c, d with
  | '<', '>' => some (.operator (.relation .notEqual))
  | '>', '=' => some (.operator (.relation .greaterOrEqual))
  | '<', '=' => some (.operator (.relation .lessOrEqual))
  | _, _ => none

def alone (c : Char) (rest : List Char) : Piece :=
  match single? c with
  | some kind => ⟨.plain kind, [c], rest⟩
  | none => ⟨.stray, [c], rest⟩

def mark (c : Char) (rest : List Char) : Piece :=
  match rest with
  | [] => alone c rest
  | d :: more =>
    if c = '/' ∧ d = '/' then run .skipped [c, d] (· != '\n') more
    else if c = '/' ∧ d = '*' then
      let (taken, left) := blockComment more
      ⟨.skipped, c :: d :: taken, left⟩
    else if c = '.' ∧ Reading.isDigit d then run (.plain .float) [c, d] Reading.isDigit more
    else
      match double? c d with
      | some kind => ⟨.plain kind, [c, d], more⟩
      | none => alone c rest

def cut (c : Char) (rest : List Char) : Piece :=
  if c = '\n' then ⟨.lineBreak, [c], rest⟩
  else if isBlank c then run .skipped [c] isBlank rest
  else if isWordStart c then word c rest
  else if Reading.isDigit c then number c rest
  else if c = '"' || c = '\'' then string c rest
  else mark c rest

theorem run_split (role : Role) (head : List Char) (p : Char → Bool) (rest : List Char) :
    (run role head p rest).taken ++ (run role head p rest).left = head ++ rest := by
  simp [run, List.append_assoc]

theorem word_split (c : Char) (rest : List Char) :
    (word c rest).taken ++ (word c rest).left = c :: rest := by
  simp [word]

theorem decimal_split (c : Char) (rest : List Char) :
    (decimal c rest).taken ++ (decimal c rest).left = c :: rest := by
  have whole := List.takeWhile_append_dropWhile (p := Reading.isDigit) (l := rest)
  unfold decimal
  split
  · rename_i more point
    rw [run_split, List.append_assoc, List.cons_append, List.singleton_append, ← point, whole]
  · rename_i left
    simp

theorem number_split (c : Char) (rest : List Char) :
    (number c rest).taken ++ (number c rest).left = c :: rest := by
  unfold number
  split
  · split
    · rw [run_split]; simp
    · exact decimal_split c _
  · exact decimal_split c rest

theorem blockComment_split (cs : List Char) : (blockComment cs).1 ++ (blockComment cs).2 = cs := by
  fun_induction blockComment cs with
  | case1 => rfl
  | case2 => rfl
  | case3 c rest _ taken left same ih => simpa [same] using ih

theorem quotation_split (quote : Char) (cs : List Char) :
    (quotation quote cs).taken ++ (quotation quote cs).left = cs := by
  fun_induction quotation quote cs <;> simp_all [Quotation.push]

theorem string_split (quote : Char) (rest : List Char) :
    (string quote rest).taken ++ (string quote rest).left = quote :: rest := by
  simp [string, quotation_split]

theorem alone_split (c : Char) (rest : List Char) :
    (alone c rest).taken ++ (alone c rest).left = c :: rest := by
  unfold alone
  split <;> rfl

theorem mark_split (c : Char) (rest : List Char) :
    (mark c rest).taken ++ (mark c rest).left = c :: rest := by
  unfold mark
  split
  · exact alone_split c []
  · rename_i d more
    split
    · rw [run_split]; rfl
    · split
      · simp [blockComment_split]
      · split
        · rw [run_split]; rfl
        · split
          · rfl
          · exact alone_split c (d :: more)

theorem cut_split (c : Char) (rest : List Char) :
    (cut c rest).taken ++ (cut c rest).left = c :: rest := by
  unfold cut
  split
  · rfl
  · split
    · rw [run_split]; rfl
    · split
      · exact word_split c rest
      · split
        · exact number_split c rest
        · split
          · exact string_split c rest
          · exact mark_split c rest

theorem cut_taken_ne_nil (c : Char) (rest : List Char) : (cut c rest).taken ≠ [] := by
  unfold cut word number decimal string mark alone run
  repeat' split
  all_goals simp

theorem cut_left_lt (c : Char) (rest : List Char) :
    (cut c rest).left.length < (c :: rest).length := by
  have split := congrArg List.length (cut_split c rest)
  have some := List.length_pos_iff.mpr (cut_taken_ne_nil c rest)
  rw [List.length_append] at split
  omega

end Piece

end Scriptlet.Token
