import Scriptlet.Token.Stream

/-!
One token of pushback does not show. A reader takes tokens, with or without the line breaks in front
of them, looks at the next one, gives back the one it took last, and asks for the problems met so
far. What it gets is what it would get from the plain sequence of tokens, in which it stands at a
place that moves on and back: no token is lost, doubled or out of order, and no problem either.
-/
namespace Scriptlet.TokenStream

def plainAfter (source : String) : Nat → TokenStream
  | 0 => ofSource source
  | n + 1 => (plainAfter source n).scan.2

/-- The tokens of a source in order. Behind the last one, the end of the file comes again and again.
-/
def plain (source : String) (n : Nat) : Token := (plainAfter source n).scan.1

def plainErrors (source : String) (n : Nat) : List Diagnostic := (plainAfter source n).errors.toList

theorem plainErrors_succ (source : String) (n : Nat) :
    plainErrors source (n + 1) = plainErrors source n ++
      (Token.scan (plainAfter source n).rest (plainAfter source n).line).errors := by
  simp [plainErrors, plainAfter, scan]

inductive Act where
  | next
  | nextPastBreaks
  | peek
  | unget
  | takeErrors
  deriving DecidableEq, Repr

/-- A stream with what was done to it: the tokens that were taken and not given back, and the
problems that were asked for. The last token is fresh until another one is taken or looked at. -/
structure Reader where
  stream : TokenStream
  taken : List Token
  fresh : Bool
  drained : List Diagnostic
  deriving DecidableEq, Repr

namespace Reader

def start (source : String) : Reader := ⟨ofSource source, [], false, []⟩

/-- Only a fresh token may be given back. -/
def act (r : Reader) : Act → Option Reader
  | .next =>
    let read := r.stream.next
    some { r with stream := read.2, taken := r.taken ++ [read.1], fresh := true }
  | .nextPastBreaks =>
    let read := r.stream.nextPastBreaks
    some { r with stream := read.2, taken := r.taken ++ [read.1], fresh := true }
  | .peek => some { r with stream := r.stream.peek.2, fresh := false }
  | .unget =>
    if r.fresh then
      r.taken.getLast?.map fun t =>
        { r with stream := r.stream.unget t, taken := r.taken.dropLast, fresh := false }
    else none
  | .takeErrors =>
    let (errors, stream) := r.stream.takeErrors
    some { r with stream, drained := r.drained ++ errors.toList }

end Reader

/-- A place in the plain sequence: how many tokens are in front of it, how many were seen, which of
those in front were taken and not given back, and how many were seen when problems were last asked
for. -/
structure Place where
  passed : Nat
  seen : Nat
  taken : List Nat
  fresh : Bool
  told : Nat
  deriving DecidableEq, Repr

namespace Place

def start : Place := ⟨0, 0, [], false, 0⟩

def take (p : Place) (n : Nat) : Place :=
  { p with passed := n + 1, seen := max p.seen (n + 1), taken := p.taken ++ [n], fresh := true }

/-- What an act makes of a place. Only reading past line breaks leaves tokens out. -/
inductive Moves (source : String) (p : Place) : Act → Place → Prop where
  | next : Moves source p .next (p.take p.passed)
  | nextPastBreaks {n : Nat} : p.passed ≤ n →
      (∀ i, p.passed ≤ i → i < n → (plain source i).kind = .endOfLine) →
      (plain source n).kind ≠ .endOfLine → Moves source p .nextPastBreaks (p.take n)
  | peek : Moves source p .peek { p with seen := max p.seen (p.passed + 1), fresh := false }
  | unget : p.fresh = true →
      Moves source p .unget
        { p with passed := p.passed - 1, taken := p.taken.dropLast, fresh := false }
  | takeErrors : Moves source p .takeErrors { p with told := p.seen }

inductive Follows (source : String) : Place → List Act → Place → Prop where
  | nil {p : Place} : Follows source p [] p
  | cons {p q r : Place} {a : Act} {acts : List Act} : Moves source p a q →
      Follows source q acts r → Follows source p (a :: acts) r

structure Thinned (source : String) (p : Place) : Prop where
  order : p.taken.Sublist (List.range p.passed)
  all : ∀ i < p.passed, i ∉ p.taken → (plain source i).kind = .endOfLine
  fresh : p.fresh = true → ∃ front n, p.taken = front ++ [n] ∧ p.passed = n + 1

variable {source : String} {p q : Place} {acts : List Act}

theorem start_thinned (source : String) : Thinned source start := by
  constructor <;> simp [start]

theorem Thinned.take (thinned : Thinned source p) {n : Nat} (after : p.passed ≤ n)
    (breaks : ∀ i, p.passed ≤ i → i < n → (plain source i).kind = .endOfLine) :
    Thinned source (p.take n) := by
  refine ⟨?_, fun i inside left => ?_, fun _ => ⟨p.taken, n, rfl, rfl⟩⟩
  · have longer : (List.range p.passed).Sublist (List.range n) := List.range_sublist.mpr after
    change (p.taken ++ [n]).Sublist (List.range (n + 1))
    rw [List.range_succ]
    exact (thinned.order.trans longer).append (List.Sublist.refl _)
  · have inside : i < n + 1 := inside
    have left : i ∉ p.taken ++ [n] := left
    rw [List.mem_append, List.mem_singleton, not_or] at left
    by_cases old : i < p.passed
    · exact thinned.all i old left.1
    · exact breaks i (Nat.not_lt.mp old) (by omega)

theorem Thinned.unget (thinned : Thinned source p) (fresh : p.fresh = true) :
    Thinned source
      { p with passed := p.passed - 1, taken := p.taken.dropLast, fresh := false } := by
  obtain ⟨front, n, taken, passed⟩ := thinned.fresh fresh
  have order := thinned.order
  have all := thinned.all
  rw [taken, passed, List.range_succ] at order
  rw [taken, passed] at all
  simp only [taken, passed, Nat.add_sub_cancel, List.dropLast_concat]
  refine ⟨(List.append_sublist_append_right [n]).mp order, fun i inside left => ?_, by simp⟩
  have inside : i < n := inside
  have other : i ∉ front ++ [n] := by
    rw [List.mem_append, List.mem_singleton, not_or]
    exact ⟨left, Nat.ne_of_lt inside⟩
  exact all i (Nat.lt_succ_of_lt inside) other

theorem Moves.thinned {a : Act} (moves : Moves source p a q) (thinned : Thinned source p) :
    Thinned source q := by
  cases moves with
  | next => exact thinned.take (Nat.le_refl _) (by omega)
  | nextPastBreaks after breaks _ => exact thinned.take after breaks
  | peek => exact ⟨thinned.order, thinned.all, by simp⟩
  | unget fresh => exact thinned.unget fresh
  | takeErrors => exact { thinned with }

theorem Follows.thinned (follows : Follows source p acts q)
    (thinned : Thinned source p) : Thinned source q := by
  induction follows with
  | nil => exact thinned
  | cons moves _ ih => exact ih (moves.thinned thinned)

theorem Follows.whole (follows : Follows source p acts q)
    (plainly : Act.nextPastBreaks ∉ acts) (thinned : Thinned source p)
    (whole : p.taken = List.range p.passed) : q.taken = List.range q.passed := by
  induction follows with
  | nil => exact whole
  | @cons p q r a acts moves _ ih =>
    rw [List.mem_cons, not_or] at plainly
    refine ih plainly.2 (moves.thinned thinned) ?_
    cases moves with
    | next =>
      change p.taken ++ [p.passed] = List.range (p.passed + 1)
      rw [whole, List.range_succ]
    | nextPastBreaks => exact absurd rfl plainly.1
    | peek => exact whole
    | unget fresh =>
      obtain ⟨front, n, taken, passed⟩ := thinned.fresh fresh
      change p.taken.dropLast = List.range (p.passed - 1)
      rw [whole, passed, List.range_succ, List.dropLast_concat, Nat.add_sub_cancel]
    | takeErrors => exact whole

end Place

/-- A stream that has scanned `seen` tokens, the last of them given back or not. The problems in
`told` were handed out. -/
structure Stands (source : String) (told : List Diagnostic) (s : TokenStream) (passed seen : Nat) :
    Prop where
  pushed : s.pushed = none ∧ seen = passed ∨ s.pushed = some (plain source passed) ∧
    seen = passed + 1
  rest : s.rest = (plainAfter source seen).rest
  line : s.line = (plainAfter source seen).line
  errors : told ++ s.errors.toList = plainErrors source seen

variable {source : String} {told : List Diagnostic} {s : TokenStream} {passed seen : Nat}
  {r r' : Reader} {p : Place}

theorem ofSource_stands (source : String) : Stands source [] (ofSource source) 0 0 :=
  ⟨Or.inl ⟨rfl, rfl⟩, rfl, rfl, rfl⟩

theorem Stands.next (stands : Stands source told s passed seen) : s.next.1 = plain source passed ∧
      Stands source told s.next.2 (passed + 1) (max seen (passed + 1)) ∧
      s.next.2.pushed = none := by
  unfold TokenStream.next
  rcases stands.pushed with ⟨free, rfl⟩ | ⟨pushed, rfl⟩
  · rw [free, Nat.max_eq_right (Nat.le_succ _)]
    have scanned : s.scan.1 = plain source seen := by
      simp only [TokenStream.scan, plain, stands.rest, stands.line]
    refine ⟨scanned, ⟨Or.inl ⟨rfl, rfl⟩, ?_, ?_, ?_⟩, rfl⟩
    · simp only [TokenStream.scan, plainAfter, stands.rest, stands.line]
    · simp only [TokenStream.scan, plainAfter, stands.rest, stands.line]
    · rw [plainErrors_succ, ← stands.errors, ← stands.rest, ← stands.line]
      simp [TokenStream.scan]
  · rw [pushed, Nat.max_self]
    exact ⟨rfl, { stands with pushed := Or.inl ⟨rfl, rfl⟩ }, rfl⟩

theorem Stands.unget (stands : Stands source told s (passed + 1) seen) (free : s.pushed = none) :
    Stands source told (s.unget (plain source passed)) passed seen := by
  rcases stands.pushed with ⟨-, rfl⟩ | ⟨pushed, -⟩
  · exact { stands with pushed := Or.inr ⟨rfl, rfl⟩ }
  · rw [free] at pushed
    cases pushed

theorem Stands.peek (stands : Stands source told s passed seen) : s.peek.1 = plain source passed ∧
      Stands source told s.peek.2 passed (max seen (passed + 1)) := by
  obtain ⟨token, further, free⟩ := stands.next
  have back := further.unget free
  rw [← token] at back
  exact ⟨token, back⟩

theorem Stands.nextPastBreaks (stands : Stands source told s passed seen) :
    ∃ n, passed ≤ n ∧ (∀ i, passed ≤ i → i < n → (plain source i).kind = .endOfLine) ∧
      (plain source n).kind ≠ .endOfLine ∧ s.nextPastBreaks.1 = plain source n ∧
      Stands source told s.nextPastBreaks.2 (n + 1) (max seen (n + 1)) ∧
      s.nextPastBreaks.2.pushed = none := by
  fun_induction TokenStream.nextPastBreaks s generalizing passed seen with
  | case1 s read lineBreak shorter =>
    rename_i ih
    obtain ⟨token, further, -⟩ := stands.next
    obtain ⟨n, after, breaks, solid, found, at_, free⟩ := ih further
    have first : (plain source passed).kind = .endOfLine := token ▸ lineBreak
    refine ⟨n, Nat.le_of_succ_le after, fun i from_ below => ?_, solid, found, ?_, free⟩
    · rcases Nat.eq_or_lt_of_le from_ with rfl | later
      · exact first
      · exact breaks i later below
    · have same : max (max seen (passed + 1)) (n + 1) = max seen (n + 1) := by omega
      rwa [same] at at_
  | case2 s read =>
    rename_i other
    obtain ⟨token, further, free⟩ := stands.next
    exact ⟨passed, Nat.le_refl _, by omega, token ▸ other, token, further, free⟩

theorem Stands.takeErrors (stands : Stands source told s passed seen) :
    told ++ s.takeErrors.1.toList = plainErrors source seen ∧
      Stands source (told ++ s.takeErrors.1.toList) s.takeErrors.2 passed seen := by
  refine ⟨stands.errors, { stands with errors := ?_ }⟩
  simpa [TokenStream.takeErrors] using stands.errors

structure Tracks (source : String) (r : Reader) (p : Place) : Prop where
  stands : Stands source r.drained r.stream p.passed p.seen
  taken : r.taken = p.taken.map (plain source)
  fresh : r.fresh = p.fresh
  free : p.fresh = true → r.stream.pushed = none
  drained : r.drained = plainErrors source p.told

theorem start_tracks (source : String) : Tracks source (.start source) .start :=
  ⟨ofSource_stands source, rfl, rfl, by simp [Place.start], rfl⟩

theorem Tracks.take (tracks : Tracks source r p) {n : Nat}
    (stands : Stands source r.drained s (n + 1) (max p.seen (n + 1))) (free : s.pushed = none) :
    Tracks source { r with stream := s, taken := r.taken ++ [plain source n], fresh := true }
      (p.take n) := by
  refine ⟨stands, ?_, rfl, fun _ => free, tracks.drained⟩
  rw [tracks.taken]
  simp [Place.take]

theorem Tracks.act {a : Act} (tracks : Tracks source r p)
    (thinned : p.Thinned source) (done : r.act a = some r') :
    ∃ p', p.Moves source a p' ∧ Tracks source r' p' := by
  cases a with
  | next =>
    obtain ⟨token, stands, free⟩ := tracks.stands.next
    cases done
    refine ⟨_, .next, ?_⟩
    rw [token]
    exact tracks.take stands free
  | nextPastBreaks =>
    obtain ⟨n, after, breaks, solid, token, stands, free⟩ := tracks.stands.nextPastBreaks
    cases done
    refine ⟨_, .nextPastBreaks after breaks solid, ?_⟩
    rw [token]
    exact tracks.take stands free
  | peek =>
    cases done
    exact ⟨_, .peek, tracks.stands.peek.2, tracks.taken, rfl, by simp, tracks.drained⟩
  | unget =>
    rw [Reader.act] at done
    split at done
    · rename_i fresh
      have fresh : p.fresh = true := tracks.fresh ▸ fresh
      obtain ⟨front, n, taken, passed⟩ := thinned.fresh fresh
      obtain ⟨t, last, rfl⟩ := Option.map_eq_some_iff.mp done
      have token : plain source n = t := by
        rw [tracks.taken, taken] at last
        simpa using last
      have stands := tracks.stands
      rw [passed] at stands
      refine ⟨_, .unget fresh, ?_, ?_, rfl, by simp, tracks.drained⟩
      · simp only [passed, Nat.add_sub_cancel, ← token]
        exact stands.unget (tracks.free fresh)
      · simp [tracks.taken, List.map_dropLast]
    · cases done
  | takeErrors =>
    obtain ⟨all, stands⟩ := tracks.stands.takeErrors
    cases done
    exact ⟨_, .takeErrors, stands, tracks.taken, tracks.fresh, tracks.free, all⟩

theorem Tracks.run {acts : List Act} (tracks : Tracks source r p)
    (thinned : p.Thinned source) (ran : acts.foldlM Reader.act r = some r') :
    ∃ p', p.Follows source acts p' ∧ Tracks source r' p' := by
  induction acts generalizing r p with
  | nil =>
    cases ran
    exact ⟨p, .nil, tracks⟩
  | cons a acts ih =>
    obtain ⟨middle, first, rest⟩ := Option.bind_eq_some_iff.mp ran
    obtain ⟨q, moves, tracks⟩ := tracks.act thinned first
    obtain ⟨p', follows, tracks⟩ := ih tracks (moves.thinned thinned) rest
    exact ⟨p', .cons moves follows, tracks⟩

/-- Pushback is transparent. Whatever acts a reader does, giving back only the token it took last,
it is at a place in the plain sequence of tokens that the acts alone tell. The tokens it has are
those in front of the place in their order, line breaks left out where it read past them and nothing
else, and all of them if it never did. What it looks at is the token that it would read next, the
one at the place. The problems it was told are those of the tokens seen when it last asked, each
once and in order, and those it would be told now are of the tokens seen since. -/
theorem pushback_transparent {source : String} {acts : List Act} {r : Reader}
    (ran : acts.foldlM Reader.act (.start source) = some r) :
    ∃ p, Place.start.Follows source acts p ∧
      r.taken = p.taken.map (plain source) ∧ p.taken.Sublist (List.range p.passed) ∧
      (∀ i < p.passed, i ∉ p.taken → (plain source i).kind = .endOfLine) ∧
      (Act.nextPastBreaks ∉ acts → r.taken = (List.range p.passed).map (plain source)) ∧
      r.stream.next.1 = plain source p.passed ∧ r.stream.peek.1 = plain source p.passed ∧
      r.stream.peek.2.next.1 = plain source p.passed ∧
      (p.seen = p.passed ∨ p.seen = p.passed + 1) ∧ r.drained = plainErrors source p.told ∧
      r.drained ++ r.stream.errors.toList = plainErrors source p.seen := by
  have thinned := Place.start_thinned source
  obtain ⟨p, follows, tracks⟩ := (start_tracks source).run thinned ran
  have after := follows.thinned thinned
  refine ⟨p, follows, tracks.taken, after.order, after.all, fun plainly => ?_, tracks.stands.next.1,
    tracks.stands.peek.1, tracks.stands.peek.2.next.1, ?_, tracks.drained, tracks.stands.errors⟩
  · rw [tracks.taken, follows.whole plainly thinned rfl]
  · exact tracks.stands.pushed.imp And.right And.right

theorem pushback_transparent_back :
    let source := "x\n\n y # z"
    let acts := [.peek, .next, .unget, .next, .nextPastBreaks, .unget, .takeErrors, .next, .peek,
      .takeErrors]
    ∃ r p, acts.foldlM Reader.act (.start source) = some r ∧ r.taken.map (·.lexeme) = ["x", "y"] ∧
      r.drained.length = 1 ∧ Place.start.Follows source acts p ∧
      r.taken = p.taken.map (plain source) ∧ r.stream.next.1 = plain source p.passed ∧
      r.drained = plainErrors source p.told := by
  intro source acts
  have ends : ((acts.foldlM Reader.act (.start source)).map fun r =>
      (r.taken.map (·.lexeme), r.drained.length)) = some (["x", "y"], 1) := by decide +kernel
  obtain ⟨r, ran, both⟩ := Option.map_eq_some_iff.mp ends
  obtain ⟨p, follows, taken, -, -, -, next, -, -, -, drained, -⟩ := pushback_transparent ran
  exact ⟨r, p, ran, congrArg Prod.fst both, congrArg Prod.snd both, follows, taken, next, drained⟩

end Scriptlet.TokenStream
