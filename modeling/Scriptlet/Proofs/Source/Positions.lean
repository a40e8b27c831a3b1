import Scriptlet.Diagnostic.Source
import Scriptlet.Proofs.Compile.Emission
import Scriptlet.Proofs.Source.Grammar
import Scriptlet.Proofs.Source.Pieces
import Mathlib.Algebra.GroupWithZero.Nat

/-!
Where in a text things are. A text is cut into pieces, and every token and every lexical problem is
one of them. The line that a token or a problem carries is the line of its first character, counted
by the line feeds in front of it, and the same lines come of splitting the text at its line feeds.
-/
namespace Scriptlet

namespace Source

variable {source : String} {above below : List (List Char)} {cs : List Char}

/-- The line behind a text. -/
def lineOf (before : List Char) : Nat := 1 + before.count '\n'

/-- Where a line starts: behind the line feeds of the lines above it. -/
def lineStart (source : String) (line : Nat) : Nat :=
  (((lines source).take (line - 1)).map fun text => text.length + 1).sum

/-- The characters that the text of a line is taken from, with its line feed. -/
def lineRange (source : String) (line : Nat) : List Char :=
  (source.toList.take (lineStart source (line + 1))).drop (lineStart source line)

/-- A place in a line of the source. The end of the source is in its last line. -/
structure Inside (source : String) (offset line : Nat) : Prop where
  first : 1 ≤ line
  last : line ≤ lineCount source
  start : lineStart source line ≤ offset
  stop : offset < lineStart source (line + 1)

theorem lineOf_append (before taken : List Char) :
    lineOf (before ++ taken) = lineOf before + taken.count '\n' := by
  simp [lineOf, Nat.add_assoc]

theorem lineWord_append (before taken : List Char) :
    UInt32.ofNat (lineOf (before ++ taken)) =
      .ofNat (lineOf before) + .ofNat (taken.count '\n') := by
  rw [lineOf_append, UInt32.ofNat_add]

theorem lineOf_le_append (before taken : List Char) : lineOf before ≤ lineOf (before ++ taken) :=
  lineOf_append before taken ▸ Nat.le_add_right _ _

theorem splitLines_ne_nil (cs : List Char) : splitLines cs ≠ [] := by
  fun_induction splitLines cs <;> simp

def joined (lines : List (List Char)) : List Char := lines.flatMap (· ++ ['\n'])

theorem joined_length (lines : List (List Char)) :
    (joined lines).length = (lines.map fun text => text.length + 1).sum := by
  simp [joined, List.length_flatMap]

theorem splitLines_at (before after : List Char) : ∃ above front back below,
    splitLines (before ++ after) = above ++ (front ++ back) :: below ∧
      above.length = before.count '\n' ∧ before = joined above ++ front := by
  induction before with
  | nil =>
    obtain ⟨line, more, split⟩ := List.exists_cons_of_ne_nil (splitLines_ne_nil after)
    exact ⟨[], [], line, more, by simpa using split, rfl, rfl⟩
  | cons c before ih =>
    obtain ⟨above, front, back, below, split, count, whole⟩ := ih
    rw [List.cons_append, splitLines, split]
    by_cases feed : c = '\n'
    · refine ⟨[] :: above, front, back, below, by simp [feed], by simp [feed, count], ?_⟩
      simp [feed, whole, joined]
    · rw [if_neg feed]
      cases above with
      | nil => exact ⟨[], c :: front, back, below, rfl, by simpa [feed] using count, by
          rw [whole]; rfl⟩
      | cons line above =>
        refine ⟨(c :: line) :: above, front, back, below, rfl, by simpa [feed] using count, ?_⟩
        rw [whole]
        rfl

theorem lineStart_eq (split : lines source = above ++ below) :
    lineStart source (above.length + 1) = (joined above).length := by
  rw [lineStart, Nat.add_sub_cancel, split, List.take_left, joined_length]

theorem inside_of_append {before after : List Char} (whole : source.toList = before ++ after) :
    Inside source before.length (lineOf before) := by
  obtain ⟨above, front, back, below, split, count, same⟩ := splitLines_at before after
  have lines_eq : lines source = above ++ (front ++ back) :: below := by rw [lines, whole, split]
  have line : lineOf before = above.length + 1 := by rw [lineOf, count, Nat.add_comm]
  have start := lineStart_eq lines_eq
  have through : lines source = (above ++ [front ++ back]) ++ below := by simpa using lines_eq
  have stop := lineStart_eq through
  have length : before.length = (joined above).length + front.length := by simp [same]
  rw [List.length_append, List.length_singleton] at stop
  refine ⟨by simp [lineOf], ?_, by rw [line, start]; omega, ?_⟩
  · rw [lineCount, lines_eq, line]
    simp
  · rw [line, stop, length]
    simp [joined]

theorem joined_splitLines (cs : List Char) : joined (splitLines cs) = cs ++ ['\n'] := by
  induction cs with
  | nil => rfl
  | cons c cs ih =>
    rw [splitLines, List.cons_append, ← ih]
    split
    · rename_i feed
      simp [joined, feed]
    · cases lines : splitLines cs with
      | nil => exact absurd lines (splitLines_ne_nil cs)
      | cons line more => simp [joined]

theorem no_feed_in_line (cs : List Char) : ∀ text ∈ splitLines cs, '\n' ∉ text := by
  induction cs with
  | nil => simp [splitLines]
  | cons c cs ih =>
    rw [splitLines]
    split
    · simpa using ih
    · rename_i other
      cases lines : splitLines cs with
      | nil => exact absurd lines (splitLines_ne_nil cs)
      | cons line more =>
        rw [lines] at ih
        obtain ⟨first, others⟩ := List.forall_mem_cons.mp ih
        exact List.forall_mem_cons.mpr ⟨by simp [first, Ne.symm other], others⟩

theorem dropTrailing_of_not_mem {c : Char} (none_ : c ∉ cs) : dropTrailing c cs = cs := by
  rw [dropTrailing]
  have kept : cs.reverse.dropWhile (· == c) = cs.reverse := by
    cases back : cs.reverse with
    | nil => rfl
    | cons d rest =>
      have last : d ∈ cs := List.mem_reverse.mp (by simp [back])
      have other : ¬ (d == c) = true := fun same => none_ (eq_of_beq same ▸ last)
      exact List.dropWhile_cons_of_neg other
  rw [kept, List.reverse_reverse]

theorem dropTrailing_append {c : Char} (none_ : c ∉ cs) : dropTrailing c (cs ++ [c]) = cs := by
  have rest := dropTrailing_of_not_mem none_
  rw [dropTrailing] at rest ⊢
  simpa using rest

theorem lineRange_eq {text : List Char}
    (split : lines source = above ++ text :: below) :
    lineRange source (above.length + 1) = if below = [] then text else text ++ ['\n'] := by
  have whole : source.toList ++ ['\n'] = joined above ++ (text ++ ['\n']) ++ joined below := by
    rw [← joined_splitLines]
    change joined (lines source) = _
    simp [split, joined]
  have start := lineStart_eq split
  have stop : lineStart source (above.length + 1 + 1) =
      (joined above ++ (text ++ ['\n'])).length := by
    have through : lines source = (above ++ [text]) ++ below := by simpa using split
    simpa [joined] using lineStart_eq through
  rw [lineRange, start, stop]
  by_cases last : below = []
  · subst last
    have whole : source.toList ++ ['\n'] = joined above ++ text ++ ['\n'] := by
      simpa [joined] using whole
    have all : source.toList = joined above ++ text := List.append_cancel_right whole
    rw [if_pos rfl, all, List.take_of_length_le (by simp), List.drop_left]
  · have all : source.toList =
        joined above ++ (text ++ ['\n']) ++ (joined below.dropLast ++ below.getLast last) := by
      rw [← List.append_left_inj ['\n'], whole]
      conv => lhs; rw [← List.dropLast_concat_getLast last]
      simp [joined]
    rw [if_neg last, all, List.take_left, List.drop_left]

theorem lineText_eq {line : UInt32} (first : 1 ≤ line.toNat)
    (last : line.toNat ≤ lineCount source) :
    lineText source line =
      String.ofList (dropTrailing '\r' (dropTrailing '\n' (lineRange source line.toNat))) := by
  obtain ⟨n, word⟩ : ∃ n, line.toNat = n + 1 := ⟨line.toNat - 1, by omega⟩
  rw [word] at last ⊢
  have there : n < (lines source).length := last
  have split : lines source =
      (lines source).take n ++ (lines source)[n] :: (lines source).drop (n + 1) := by
    rw [← List.drop_eq_getElem_cons, List.take_append_drop]
  have no_feed := no_feed_in_line source.toList _ (List.getElem_mem there)
  have range := lineRange_eq split
  rw [List.length_take_of_le (Nat.le_of_lt there)] at range
  rw [range, lineText, word]
  dsimp only
  rw [List.getD_eq_getElem?_getD, List.getElem?_eq_getElem there, Option.getD_some]
  split
  · rw [dropTrailing_of_not_mem no_feed]
  · rw [dropTrailing_append no_feed]

end Source

namespace Token

open Source

variable {before rest : List Char} {ps : List Piece} {c : Char} {q : Placed}

def Piece.token? (p : Piece) (line : UInt32) : Option Token :=
  match p.role with
  | .skipped => none
  | .stray => none
  | .lineBreak => some (endOfLine line)
  | .plain kind => some ⟨kind, String.ofList p.taken, line⟩
  | .quoted content _ => some ⟨.string, String.ofList content, line⟩

def Piece.problems (p : Piece) (line : UInt32) : List Diagnostic :=
  match p.role with
  | .stray => [strayCharacter line p.taken]
  | .quoted content ending => quotationErrors line content ending
  | _ => []

def taken (ps : List Piece) : List Char := ps.flatMap (·.taken)

@[simp] theorem taken_nil : taken [] = [] := rfl

@[simp] theorem taken_cons (p : Piece) (ps : List Piece) :
    taken (p :: ps) = p.taken ++ taken ps := rfl

@[simp] theorem taken_append (ps qs : List Piece) : taken (ps ++ qs) = taken ps ++ taken qs :=
  List.flatMap_append

/-- A piece and the text in front of it. -/
structure Placed where
  before : List Char
  piece : Piece
  deriving DecidableEq, Repr

def place : List Char → List Piece → List Placed
  | _, [] => []
  | before, p :: ps => ⟨before, p⟩ :: place (before ++ p.taken) ps

namespace Placed

def line (q : Placed) : UInt32 := .ofNat (lineOf q.before)

def token? (q : Placed) : Option Token := q.piece.token? q.line

def problems (q : Placed) : List Diagnostic := q.piece.problems q.line

end Placed

def placed (source : String) : List Placed := place [] (pieces source.toList)

theorem taken_pieces (cs : List Char) : taken (pieces cs) = cs := by
  fun_induction pieces cs with
  | case1 => rfl
  | case2 c rest shorter ih =>
    rw [taken_cons, ih, Piece.cut_split]

theorem place_append (before : List Char) (ps qs : List Piece) :
    place before (ps ++ qs) = place before ps ++ place (before ++ taken ps) qs := by
  induction ps generalizing before with
  | nil => simp [place]
  | cons p ps ih =>
    rw [List.cons_append, place, place, ih, List.cons_append, taken_cons, List.append_assoc]

theorem before_of_mem (member : q ∈ place before ps) :
    ∃ front back, ps = front ++ q.piece :: back ∧ q.before = before ++ taken front := by
  induction ps generalizing before with
  | nil => cases member
  | cons p ps ih =>
    rcases List.mem_cons.mp member with rfl | later
    · exact ⟨[], ps, rfl, by simp⟩
    · obtain ⟨front, back, rfl, same⟩ := ih later
      exact ⟨p :: front, back, rfl, by rw [same]; simp⟩

theorem placed_text {source : String} (member : q ∈ placed source) :
    ∃ after, source.toList = q.before ++ q.piece.taken ++ after := by
  obtain ⟨front, back, split, same⟩ := before_of_mem member
  refine ⟨taken back, ?_⟩
  rw [← taken_pieces source.toList, split, same]
  simp

/-- What one scan does with the pieces at the head of a text: it skips those that are no token, up
to the first that is one or to the end. -/
structure Scanned (before cs : List Char) (r : Scan) (ps : List Piece) : Prop where
  pieces : Token.pieces cs = ps ++ Token.pieces r.rest
  text : cs = taken ps ++ r.rest
  line : r.line = .ofNat (lineOf (before ++ taken ps))
  problems : r.errors = (place before ps).flatMap (·.problems)
  token : (place before ps).filterMap (·.token?) = [r.token] ∧ r.token.kind ≠ .endOfFile ∨
    (place before ps).filterMap (·.token?) = [] ∧ r.rest = [] ∧ r.token = endOfFile r.line

theorem Scanned.skip {r : Scan} (none_ : (Piece.cut c rest).token? (.ofNat (lineOf before)) = none)
    (scanned : Scanned (before ++ (Piece.cut c rest).taken) (Piece.cut c rest).left r ps) :
    Scanned before (c :: rest)
      { r with errors := (Piece.cut c rest).problems (.ofNat (lineOf before)) ++ r.errors }
      (Piece.cut c rest :: ps) := by
  have tokens : (place before (Piece.cut c rest :: ps)).filterMap (·.token?) =
      (place (before ++ (Piece.cut c rest).taken) ps).filterMap (·.token?) :=
    List.filterMap_cons_none none_
  refine ⟨by rw [pieces_cons, scanned.pieces, List.cons_append], ?_, ?_, ?_, ?_⟩
  · rw [taken_cons, List.append_assoc, ← scanned.text, Piece.cut_split]
  · rw [scanned.line, taken_cons, List.append_assoc]
  · rw [scanned.problems]
    rfl
  · rw [tokens]
    exact scanned.token

theorem Scanned.stop {t : Token}
    (token : (Piece.cut c rest).token? (.ofNat (lineOf before)) = some t)
    (solid : t.kind ≠ .endOfFile) : Scanned before (c :: rest)
      ⟨t, (Piece.cut c rest).left, .ofNat (lineOf before) + .ofNat (Piece.cut c rest).breaks,
        (Piece.cut c rest).problems (.ofNat (lineOf before))⟩ [Piece.cut c rest] := by
  refine ⟨pieces_cons c rest, ?_, ?_, ?_, Or.inl ⟨?_, solid⟩⟩
  · simp [Piece.cut_split]
  · simp [lineWord_append, Piece.breaks]
  · simp [place, Placed.problems, Placed.line]
  · exact List.filterMap_cons_some token

theorem scan_scanned (before cs : List Char) :
    ∃ ps, Scanned before cs (scan cs (.ofNat (lineOf before))) ps := by
  generalize line : UInt32.ofNat (lineOf before) = n
  fun_induction scan cs n generalizing before with
  | case1 n => exact ⟨[], by simp, rfl, by simpa using line.symm, rfl, Or.inr ⟨rfl, rfl, rfl⟩⟩
  | case2 n c rest p shorter same ih | case3 n c rest p shorter same ih =>
    subst line
    obtain ⟨ps, scanned⟩ := ih (before ++ p.taken) (lineWord_append _ _)
    have skipped := scanned.skip (by rw [Piece.token?, same])
    rw [Piece.problems, same] at skipped
    exact ⟨p :: ps, skipped⟩
  | case4 n c rest p shorter same =>
    subst line
    have stopped : Scanned before (c :: rest) _ [p] :=
      Scanned.stop (t := endOfLine (.ofNat (lineOf before))) (by rw [Piece.token?, same])
        (by simp [endOfLine])
    rw [Piece.problems, same] at stopped
    exact ⟨[p], stopped⟩
  | case5 n c rest p shorter kind same =>
    subst line
    have solid : kind ≠ .endOfFile := by
      rintro rfl
      exact (Piece.cut_sound c rest).solid same
    have stopped : Scanned before (c :: rest) _ [p] :=
      Scanned.stop (t := ⟨kind, String.ofList p.taken, .ofNat (lineOf before)⟩)
        (by rw [Piece.token?, same]) solid
    rw [Piece.problems, same] at stopped
    exact ⟨[p], stopped⟩
  | case6 n c rest p shorter content ending same =>
    subst line
    have stopped : Scanned before (c :: rest) _ [p] :=
      Scanned.stop (t := ⟨.string, String.ofList content, .ofNat (lineOf before)⟩)
        (by rw [Piece.token?, same]) (by simp)
    rw [Piece.problems, same] at stopped
    exact ⟨[p], stopped⟩

end Token

namespace TokenStream

open Source Token

def drained (s : TokenStream) : TokenStream :=
  if more : s.next.1.kind = .endOfFile then s.next.2
  else
    have := s.next_unread_lt more
    s.next.2.drained
termination_by s.unread
decreasing_by exact this

theorem drained_of_end {s : TokenStream} (last : s.next.1.kind = .endOfFile) :
    s.drained = s.next.2 := by
  rw [drained, dif_pos last]

theorem drained_of_more {s : TokenStream} (more : s.next.1.kind ≠ .endOfFile) :
    s.drained = s.next.2.drained := by
  rw [drained, dif_neg more]

/-- The pieces of a source that a stream has gone through. -/
structure Reached (source : String) (s : TokenStream) (ps : List Piece) : Prop where
  pieces : Token.pieces source.toList = ps ++ Token.pieces s.rest
  text : source.toList = taken ps ++ s.rest
  line : s.line = .ofNat (lineOf (taken ps))

theorem ofSource_reached (source : String) : Reached source (ofSource source) [] := ⟨rfl, rfl, rfl⟩

variable {source : String} {s : TokenStream} {ps : List Piece}

theorem Reached.scan (reached : Reached source s ps) :
    ∃ more, Reached source s.scan.2 (ps ++ more) ∧
    Scanned (taken ps) s.rest (Token.scan s.rest s.line) more := by
  have scanned := scan_scanned (taken ps) s.rest
  rw [← reached.line] at scanned
  obtain ⟨more, scanned⟩ := scanned
  refine ⟨more, ⟨?_, ?_, ?_⟩, scanned⟩
  · rw [reached.pieces, scanned.pieces, List.append_assoc]
    rfl
  · rw [reached.text, scanned.text, taken_append, List.append_assoc]
    rfl
  · rw [taken_append]
    exact scanned.line

theorem scan_errors (s : TokenStream) :
    s.scan.2.errors.toList = s.errors.toList ++ (Token.scan s.rest s.line).errors := by
  simp [TokenStream.scan]

theorem next_free (free : s.pushed = none) : s.next = s.scan := by
  unfold next
  rw [free]

theorem place_scanned {before : List Char} {r : Scan} {more : List Piece} {cs : List Char}
    (scanned : Scanned before cs r more) :
    place before (pieces cs) =
      place before more ++ place (before ++ taken more) (pieces r.rest) := by
  rw [scanned.pieces, place_append]

theorem remaining_placed (free : s.pushed = none) (reached : Reached source s ps) :
    s.remaining = (place (taken ps) (pieces s.rest)).filterMap (·.token?) ∧
    s.drained.errors.toList =
      s.errors.toList ++ (place (taken ps) (pieces s.rest)).flatMap (·.problems) ∧
    s.drained.line = .ofNat (lineOf source.toList) ∧
    s.drained.next.1 = endOfFile (.ofNat (lineOf source.toList)) := by
  fun_induction remaining s generalizing ps with
  | case1 s last =>
    obtain ⟨more, further, scanned⟩ := reached.scan
    rw [next_free free] at last
    rcases scanned.token with ⟨_, solid⟩ | ⟨none_, nothing, -⟩
    · exact absurd last solid
    rw [drained_of_end (by rw [next_free free, last]), next_free free,
      place_scanned scanned, nothing, pieces_nil]
    have line : s.scan.2.line = .ofNat (lineOf source.toList) := by
      rw [further.line, further.text, show s.scan.2.rest = [] from nothing, List.append_nil]
    refine ⟨by simp [place, none_], by simp [place, scan_errors, scanned.problems], line, ?_⟩
    rw [next_free rfl, TokenStream.scan, show s.scan.2.rest = [] from nothing, scan_nil, line]
  | case2 s more_ shorter ih =>
    obtain ⟨more, further, scanned⟩ := reached.scan
    obtain ⟨remaining, errors, ended⟩ := ih s.next_pushed (next_free free ▸ further)
    rw [next_free free] at more_ remaining errors ended ⊢
    rcases scanned.token with ⟨one, -⟩ | ⟨-, -, last⟩
    · rw [drained_of_more (by rwa [next_free free]), next_free free, place_scanned scanned]
      rw [taken_append] at remaining errors
      refine ⟨?_, ?_, ended⟩
      · rw [remaining, List.filterMap_append, one]
        rfl
      · rw [errors, scan_errors, scanned.problems, List.flatMap_append, List.append_assoc]
        rfl
    · exact absurd (by rw [TokenStream.scan, last]; rfl) more_

end TokenStream

namespace Source

open Token

/-- A line on which a piece of the source starts, or the line of its end. -/
def Starts (source : String) (n : Nat) : Prop :=
  ∃ ps, ps <+: pieces source.toList ∧ n = lineOf (taken ps)

def Known (source : String) (line : UInt32) : Prop := ∃ n, Starts source n ∧ line = .ofNat n

theorem inside_of_pieces {source : String} {ps : List Piece} (front : ps <+: pieces source.toList) :
    Inside source (taken ps).length (lineOf (taken ps)) := by
  obtain ⟨rest, split⟩ := front
  exact inside_of_append (by rw [← taken_append, split, taken_pieces])

end Source

namespace Token

open Source

variable {p : Piece} {line : UInt32}

theorem Piece.token?_line {t : Token} (token : p.token? line = some t) : t.line = line := by
  unfold Piece.token? at token
  split at token
  all_goals cases token
  all_goals rfl

theorem Piece.problems_line {d : Diagnostic} (member : d ∈ p.problems line) : d.line = line := by
  unfold Piece.problems at member
  split at member
  · obtain rfl := List.mem_singleton.mp member
    rfl
  · rename_i content ending _
    cases ending with
    | lineBreak =>
      obtain rfl := List.mem_singleton.mp member
      rfl
    | _ => cases member
  · cases member

end Token

namespace TokenStream

open Source Token

variable {source : String} {s : TokenStream} {ps : List Piece}

/-- A stream that knows where it is: the tokens and problems it has to give carry lines of the
source. -/
structure Lined (source : String) (s : TokenStream) : Prop where
  reached : ∃ ps, Reached source s ps
  pushed : ∀ t ∈ s.pushed, Known source t.line
  errors : ∀ d ∈ s.errors, Known source d.line

theorem ofSource_lined (source : String) : (ofSource source).Lined source :=
  ⟨⟨[], ofSource_reached source⟩, by simp [ofSource], by simp [ofSource]⟩

theorem Reached.starts (reached : Reached source s ps) : Starts source (lineOf (taken ps)) :=
  ⟨ps, ⟨_, reached.pieces.symm⟩, rfl⟩

theorem Reached.known (reached : Reached source s ps) : Known source s.line :=
  ⟨_, reached.starts, reached.line⟩

/-- Tokens that are given back and problems that are taken away do not move a stream. -/
theorem Reached.of_same {t : TokenStream} (reached : Reached source s ps) (rest : t.rest = s.rest)
    (line : t.line = s.line) : Reached source t ps :=
  ⟨rest ▸ reached.pieces, rest ▸ reached.text, line.trans reached.line⟩

theorem Lined.reached_of {t : TokenStream} (lined : s.Lined source) (rest : t.rest = s.rest)
    (line : t.line = s.line) : ∃ ps, Reached source t ps :=
  lined.reached.imp fun _ reached => reached.of_same rest line

theorem Lined.line (lined : s.Lined source) : Known source s.line := by
  obtain ⟨ps, reached⟩ := lined.reached
  exact reached.known

theorem Reached.placed {more : List Piece} {q : Placed} (reached : Reached source s ps)
    (ahead : more <+: Token.pieces s.rest) (member : q ∈ place (taken ps) more) :
    Starts source (lineOf q.before) := by
  obtain ⟨front, back, rfl, before⟩ := before_of_mem member
  obtain ⟨rest, split⟩ := ahead
  refine ⟨ps ++ front, ⟨q.piece :: back ++ rest, ?_⟩, by rw [before, taken_append]⟩
  rw [reached.pieces, ← split]
  simp

/-- A token is on a line that starts in what was scanned for it. -/
theorem Reached.scan_line {more : List Piece} (reached : Reached source s ps)
    (further : Reached source s.scan.2 (ps ++ more))
    (scanned : Scanned (taken ps) s.rest (Token.scan s.rest s.line) more) :
    ∃ n, Starts source n ∧ s.scan.1.line = .ofNat n ∧ lineOf (taken ps) ≤ n ∧
    n ≤ lineOf (taken (ps ++ more)) := by
  rcases scanned.token with ⟨one, -⟩ | ⟨-, -, last⟩
  · have member : s.scan.1 ∈ (place (taken ps) more).filterMap (·.token?) := by
      rw [one]
      exact List.mem_singleton.mpr rfl
    obtain ⟨q, there, token⟩ := List.mem_filterMap.mp member
    refine ⟨lineOf q.before, reached.placed ⟨_, scanned.pieces.symm⟩ there,
      Piece.token?_line token, ?_⟩
    obtain ⟨front, back, rfl, before⟩ := before_of_mem there
    rw [before, taken_append, taken_append, ← List.append_assoc]
    exact ⟨lineOf_le_append _ _, lineOf_le_append _ _⟩
  · refine ⟨_, further.starts, ?_, by rw [taken_append]; exact lineOf_le_append _ _, Nat.le_refl _⟩
    rw [← further.line, TokenStream.scan, last]
    rfl

theorem Lined.scan (lined : s.Lined source) :
    Known source s.scan.1.line ∧ s.scan.2.Lined source := by
  obtain ⟨ps, reached⟩ := lined.reached
  obtain ⟨more, further, scanned⟩ := reached.scan
  obtain ⟨n, starts, line, -⟩ := reached.scan_line further scanned
  refine ⟨⟨n, starts, line⟩, ⟨⟨_, further⟩, by simp [TokenStream.scan], fun d member => ?_⟩⟩
  have listed := Array.mem_toList_iff.mpr member
  rw [scan_errors, scanned.problems, List.mem_append, List.mem_flatMap] at listed
  rcases listed with old | ⟨q, there, problem⟩
  · exact lined.errors d (Array.mem_toList_iff.mp old)
  · exact ⟨_, reached.placed ⟨_, scanned.pieces.symm⟩ there, Piece.problems_line problem⟩

theorem Lined.next (lined : s.Lined source) :
    Known source s.next.1.line ∧ s.next.2.Lined source := by
  unfold TokenStream.next
  cases pushed : s.pushed with
  | some t => exact ⟨lined.pushed t pushed, lined.reached_of rfl rfl, by simp, lined.errors⟩
  | none => exact lined.scan

theorem Lined.nextPastBreaks (lined : s.Lined source) :
    Known source s.nextPastBreaks.1.line ∧ s.nextPastBreaks.2.Lined source := by
  fun_induction TokenStream.nextPastBreaks s with
  | case1 s read lineBreak shorter ih => exact ih lined.next.2
  | case2 s read other => exact lined.next

theorem Lined.unget {t : Token} (lined : s.Lined source) (known : Known source t.line) :
    (s.unget t).Lined source := by
  refine ⟨lined.reached_of rfl rfl, ?_, lined.errors⟩
  rintro _ ⟨⟩
  exact known

end TokenStream

end Scriptlet
