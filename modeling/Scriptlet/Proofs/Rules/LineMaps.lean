import Scriptlet.Proofs.Rules.Outcomes

/-!
Lines in what comes of compiling. A session knows the lines of the source throughout, so the
diagnostics of a source that fails carry such lines, and the line map of a program that was made has
them in the order of its words.
-/
namespace Scriptlet.Compile

open Source

theorem finalSession_lined (registry : Registry) (maxErrors : Nat) (source : String) :
    (finalSession registry maxErrors source).Lined source :=
  (finalSession_outcome registry maxErrors source).2.1.lined

variable {source : String}

theorem compile_known {host : Registry} {options : Options} {ds : List Diagnostic}
    (failed : compile host options source = .error ds) : ∀ d ∈ ds, Known source d.line := by
  unfold compile at failed
  dsimp only at failed
  split at failed
  · cases failed
  · obtain rfl := Except.error.inj failed
    exact fun d member =>
      (finalSession_lined _ _ source).errors d (Array.mem_toList_iff.mp member)

theorem toNat_line {l : Nat} (short : lineCount source < 2 ^ 32)
    (inside : l ≤ lineCount source) : (UInt32.ofNat l).toNat = l :=
  UInt32.toNat_ofNat_of_lt' (Nat.lt_of_le_of_lt inside short)

/-- The line counts the line feeds in front of the place, and the place is in the range of
characters that the text of the line is taken from. -/
structure Counts (source : String) (before : List Char) (line : UInt32) : Prop where
  feeds : line.toNat = lineOf before
  inside : Source.Inside source before.length line.toNat

theorem counts_of_inside {before : List Char} (short : lineCount source < 2 ^ 32)
    (inside : Source.Inside source before.length (lineOf before)) :
    Counts source before (.ofNat (lineOf before)) := by
  have same := toNat_line short inside.last
  exact ⟨same, same.symm ▸ inside⟩

/-- Lines agree from the text to the reports about it, as long as they can be told apart as words.
What is read of a source are its pieces that are tokens, each on the line that the line feeds in
front of it tell, and at the end the line is that of the whole text. The problems met on the way are
on the lines of their pieces, and every diagnostic of the compiler is on a line where a piece starts
or on the last one. -/
theorem lines_agree (source : String) (short : lineCount source < 2 ^ 32) :
    (TokenStream.ofSource source).remaining = (Token.placed source).filterMap (·.token?) ∧
    (TokenStream.ofSource source).drained.errors.toList =
      (Token.placed source).flatMap (·.problems) ∧
    (∀ q ∈ Token.placed source, (∃ after, source.toList = q.before ++ q.piece.taken ++ after) ∧
      (∀ t ∈ q.token?, Counts source q.before t.line) ∧
      ∀ d ∈ q.problems, Counts source q.before d.line) ∧
    Counts source source.toList (TokenStream.ofSource source).drained.line ∧
    (TokenStream.ofSource source).drained.next.1 =
      Token.endOfFile (TokenStream.ofSource source).drained.line ∧
    (∀ host options ds, compile host options source = .error ds → ∀ d ∈ ds,
      ∃ ps, ps <+: Token.pieces source.toList ∧ Counts source (Token.taken ps) d.line) ∧
    ∀ line : UInt32, 1 ≤ line.toNat → line.toNat ≤ lineCount source → lineText source line =
      String.ofList (dropTrailing '\r' (dropTrailing '\n' (lineRange source line.toNat))) := by
  obtain ⟨remaining, errors, line, last⟩ :=
    TokenStream.remaining_placed rfl (TokenStream.ofSource_reached source)
  refine ⟨remaining, errors, fun q member => ?_, ?_, last.trans (congrArg _ line.symm), ?_,
    fun _ => lineText_eq⟩
  · obtain ⟨after, text⟩ := Token.placed_text member
    have counts := counts_of_inside short (inside_of_append (text.trans (List.append_assoc _ _ _)))
    exact ⟨⟨after, text⟩, fun t token => (Token.Piece.token?_line token).symm ▸ counts,
      fun d problem => (Token.Piece.problems_line problem).symm ▸ counts⟩
  · rw [line]
    exact counts_of_inside short (inside_of_append (List.append_nil _).symm)
  · intro host options ds failed d member
    obtain ⟨_, ⟨ps, front, rfl⟩, same⟩ := compile_known failed d member
    exact ⟨ps, front, same ▸ counts_of_inside short (inside_of_pieces front)⟩

def spreadErrors : String := "/* a\n b */ Main() \x7b\r\n x = 'a\\\r\nb' # + )\n"

theorem lines_agree_spread :
    lineCount spreadErrors = 5 ∧ lineText spreadErrors 2 = " b */ Main() \x7b" ∧
    (TokenStream.ofSource spreadErrors).remaining =
      (Token.placed spreadErrors).filterMap (·.token?) ∧
    ∃ ds, compile .empty ⟨45, true, false, []⟩ spreadErrors = .error ds ∧
      ds.map (·.line) = [4, 4, 5] ∧ ∀ d ∈ ds, ∃ ps, ps <+: Token.pieces spreadErrors.toList ∧
        Counts spreadErrors (Token.taken ps) d.line := by
  obtain ⟨tokens, -, -, -, -, diagnostics, texts⟩ := lines_agree spreadErrors (by decide +kernel)
  have failed : (((compile .empty ⟨45, true, false, []⟩ spreadErrors).map fun _ => []).tryCatch
      fun ds => .ok (ds.map (·.line))).toOption = some [4, 4, 5] := by decide +kernel
  refine ⟨by decide +kernel, ?_, tokens, ?_⟩
  · rw [texts 2 (by decide) (by decide +kernel)]
    decide +kernel
  · cases ran : compile .empty ⟨45, true, false, []⟩ spreadErrors with
    | ok p =>
      rw [ran] at failed
      cases failed
    | error ds =>
      rw [ran] at failed
      exact ⟨ds, rfl, Option.some.inj failed, diagnostics .empty _ ds ran⟩

/-- The line map of a program has one entry for each of its words. The entries are lines of the
source that never go back, each as a word, so that all of this holds of the words themselves if the
lines can be told apart as such. Without a line map the program is the same. -/
theorem compile_lines {host : Registry} {options : Options} {source : String} {p : Program}
    (ok : compile host options source = .ok p) (numbered : options.lineNumbers = true) :
    ∃ ls : List Nat, p.lines = some (ls.map UInt32.ofNat).toArray ∧ ls.length = p.words.size ∧
      ls.Pairwise (· ≤ ·) ∧ (∀ l ∈ ls, 1 ≤ l ∧ l ≤ lineCount source) ∧
      (lineCount source < 2 ^ 32 → (ls.map UInt32.ofNat).Pairwise (· ≤ ·) ∧
        ∀ w ∈ ls.map UInt32.ofNat, 1 ≤ w.toNat ∧ w.toNat ≤ lineCount source) ∧
      compile host { options with lineNumbers := false } source = .ok { p with lines := none } := by
  have lined := finalSession_lined (options.registry host) options.maxErrors source
  have registry : ({ options with lineNumbers := false } : Options).registry host =
      options.registry host :=
    rfl
  unfold compile at ok ⊢
  rw [registry]
  dsimp only at ok ⊢
  generalize finalSession (options.registry host) options.maxErrors source = s at lined ok
  split at ok
  · rename_i clean
    obtain rfl := Except.ok.inj ok
    obtain ⟨line, ranked⟩ := lined.code
    obtain ⟨ls, written, sorted, above⟩ := ranked.written
    have inside : ∀ l ∈ ls, 1 ≤ l ∧ l ≤ lineCount source := by
      intro l member
      obtain ⟨ps, front, rfl⟩ := (above l member).2
      exact ⟨(inside_of_pieces front).first, (inside_of_pieces front).last⟩
    have lines : s.writer.lines = (ls.map UInt32.ofNat).toArray := by rw [← written]
    refine ⟨ls, ?_, ?_, sorted, inside, fun short => ⟨?_, ?_⟩, ?_⟩
    · rw [Session.program, if_pos numbered, lines]
    · have size := congrArg Array.size lines
      simpa [CodeWriter.lines, Session.program, CodeWriter.words] using size.symm
    · rw [List.pairwise_map]
      apply sorted.imp_of_mem
      intro a c first second le
      rw [UInt32.le_iff_toNat_le, toNat_line short (inside a first).2,
        toNat_line short (inside c second).2]
      exact le
    · intro w member
      obtain ⟨l, there, rfl⟩ := List.mem_map.mp member
      rw [toNat_line short (inside l there).2]
      exact inside l there
    · rw [if_pos clean]
      rfl
  · cases ok

def spreadLines : String := "Main() \x7b\n while 0 \x7b\n  x = 1 + 2\n \x7d\n\n return x \x7d\n"

theorem compile_lines_spread :
    ∃ p, compile .empty ⟨45, true, false, []⟩ spreadLines = .ok p ∧ lineCount spreadLines = 7 ∧
      p.lines.map (·.toList) = some [1, 1, 1, 1, 1, 2, 2, 2, 2, 2, 3, 3, 3, 3, 3, 4, 4, 6, 6,
        6, 6, 6, 6] ∧
      compile .empty ⟨45, false, false, []⟩ spreadLines = .ok { p with lines := none } := by
  have mapped : ((compile .empty ⟨45, true, false, []⟩ spreadLines).map
      fun p => p.lines.map (·.toList)).toOption =
      some (some [1, 1, 1, 1, 1, 2, 2, 2, 2, 2, 3, 3, 3, 3, 3, 4, 4, 6, 6, 6, 6, 6, 6]) := by
        decide +kernel
  cases ran : compile .empty ⟨45, true, false, []⟩ spreadLines with
  | error ds =>
    rw [ran] at mapped
    cases mapped
  | ok p =>
    rw [ran] at mapped
    obtain ⟨_, _, _, _, _, _, same⟩ := compile_lines ran rfl
    exact ⟨p, rfl, by decide +kernel, Option.some.inj mapped, same⟩

end Scriptlet.Compile
