import Scriptlet.Proofs.Format.RoundTrip

/-!
Files that end too early. A reader takes some bytes off the front, whatever follows them, and of
fewer bytes it says that they end too early: the checks between the fields look only at what has
been read, so none of them fires on a shorter file that did not fire on the whole one. This is a
property of each field and passes from the fields to their sequence.
-/
namespace Scriptlet.Format

variable {α β : Type} {bytes : List UInt8} {read item : Decode α} {next : α → Decode β}
  {front : List UInt8}

def Fault.IsCut (e : Fault) : Prop := e = .cutNumber ∨ e = .cutText

/-- The reader runs out of bytes. -/
def Starves (read : Decode α) (bytes : List UInt8) : Prop :=
  ∃ e : Fault, read bytes = .error e ∧ e.IsCut

/-- The reader takes exactly the bytes of `front`, and starves on all that is less. -/
structure Takes (read : Decode α) (front : List UInt8) (x : α) : Prop where
  whole : ∀ rest, read (front ++ rest) = .ok (x, rest)
  short : ∀ bytes, bytes <+: front → bytes ≠ front → Starves read bytes

/-- Whatever the reader accepts, it takes. -/
def Steady (read : Decode α) : Prop :=
  ∀ bytes x rest, read bytes = .ok (x, rest) → ∃ front, bytes = front ++ rest ∧ Takes read front x

theorem decode_bind_error {e : Fault} (h : read bytes = .error e) :
    (read >>= next) bytes = .error e := by
  change (read bytes >>= fun p => next p.1 p.2) = _
  rw [h]
  rfl

theorem Starves.bind (starves : Starves read bytes) (next : α → Decode β) :
    Starves (read >>= next) bytes := by
  obtain ⟨e, failed, cut⟩ := starves
  exact ⟨e, decode_bind_error failed, cut⟩

theorem Takes.pure (x : α) : Takes (pure x) [] x := by
  refine ⟨fun rest => rfl, fun bytes short differ => ?_⟩
  exact absurd (List.prefix_nil.mp short) differ

theorem Takes.bind {back : List UInt8} {x : α} {y : β}
    (first : Takes read front x) (second : Takes (next x) back y) :
    Takes (read >>= next) (front ++ back) y := by
  constructor
  · intro rest
    rw [List.append_assoc, decode_bind (first.whole _)]
    exact second.whole rest
  · intro bytes short differ
    obtain ⟨rest, whole⟩ := short
    rcases List.append_eq_append_iff.mp whole with ⟨more, rfl, -⟩ | ⟨more, rfl, rfl⟩
    · by_cases all : more = []
      · subst all
        have missing : back ≠ [] := by
          rintro rfl
          simp at differ
        obtain ⟨e, failed, cut⟩ := second.short [] List.nil_prefix missing.symm
        have whole := first.whole []
        rw [List.append_nil, List.append_nil] at whole
        exact ⟨e, (decode_bind whole).trans failed, cut⟩
      · exact (first.short bytes (List.prefix_append _ _) (by simpa using all)).bind next
    · obtain ⟨e, failed, cut⟩ := second.short more (List.prefix_append _ _)
        (fun all => differ (congrArg (front ++ ·) all))
      exact ⟨e, (decode_bind (first.whole more)).trans failed, cut⟩

namespace Steady

theorem pure (x : α) : Steady (Pure.pure x) := by
  intro bytes y rest read
  obtain ⟨rfl, rfl⟩ := decode_pure_ok read
  exact ⟨[], rfl, Takes.pure x⟩

theorem throw (e : Fault) : Steady (MonadExcept.throw e : Decode α) := by
  intro bytes x rest read
  cases read

theorem bind {read : Decode α} {next : α → Decode β} (first : Steady read)
    (rest : ∀ x, Steady (next x)) : Steady (read >>= next) := by
  intro bytes y tail ok
  obtain ⟨x, middle, accepted, later⟩ := decode_bind_ok ok
  obtain ⟨front, rfl, took⟩ := first bytes x middle accepted
  obtain ⟨back, rfl, further⟩ := rest x middle y tail later
  exact ⟨front ++ back, (List.append_assoc ..).symm, took.bind further⟩

theorem ite {c : Prop} [Decidable c] {yes no : Decode α} (left : Steady yes) (right : Steady no) :
    Steady (if c then yes else no) := by
  split
  · exact left
  · exact right

theorem guard {c : Prop} [Decidable c] {e : Fault} {next : PUnit → Decode α}
    (rest : Steady (next ⟨⟩)) :
    Steady (if c then (MonadExcept.throw e : Decode PUnit) >>= next else next ⟨⟩) :=
  ite (bind (throw e) fun _ => rest) rest

theorem prefix_free {read : Decode α} (steady : Steady read) {a b : List UInt8} {x y : α}
    (first : read a = .ok (x, [])) (second : read b = .ok (y, [])) (along : a <+: b) : a = b := by
  obtain ⟨front, same, took⟩ := steady b y [] second
  rw [List.append_nil] at same
  subst same
  by_contra differ
  obtain ⟨e, failed, -⟩ := took.short a along differ
  rw [failed] at first
  cases first

end Steady

theorem decodeWord_short (few : bytes.length < 4) : Starves decodeWord bytes := by
  refine ⟨.cutNumber, ?_, Or.inl rfl⟩
  rcases bytes with _ | ⟨a, _ | ⟨b, _ | ⟨c, _ | ⟨d, rest⟩⟩⟩⟩
  · rfl
  · rfl
  · rfl
  · rfl
  · simp only [List.length_cons] at few
    omega

theorem length_lt_of_short (short : bytes <+: front) (differ : bytes ≠ front) :
    bytes.length < front.length :=
  Nat.lt_of_le_of_ne short.length_le fun same => differ (short.eq_of_length same)

theorem word_takes (w : UInt32) : Takes decodeWord (encodeWord w) w :=
  ⟨decodeWord_encodeWord w, fun _ short differ =>
    decodeWord_short (length_lt_of_short short differ)⟩

theorem word_steady : Steady decodeWord := fun _ w _ read =>
  ⟨encodeWord w, decodeWord_ok read, word_takes w⟩

theorem double_steady : Steady decodeDouble := by
  intro bytes w rest read
  refine ⟨encodeDouble w, decodeDouble_ok read, decodeDouble_encodeDouble w,
    fun bytes short differ => ?_⟩
  have few : bytes.length < 8 := length_lt_of_short short differ
  refine ⟨.cutNumber, ?_, Or.inl rfl⟩
  unfold decodeDouble
  rw [decode_get_bind]
  simp only [few, ↓reduceIte]
  rfl

def decodeContent (length : Nat) : Decode String := do
  let bytes := (← get).take length
  if bytes.length < length then throw .cutText
  modify (·.drop length)
  match String.fromUTF8? ⟨bytes.toArray⟩ with
  | some s => return s
  | none => throw .invalidText

theorem decodeText_eq : decodeText = decodeWord >>= fun length => decodeContent length.toNat := rfl

theorem decodeContent_short {length : Nat} (few : bytes.length < length) :
    Starves (decodeContent length) bytes := by
  refine ⟨.cutText, ?_, Or.inr rfl⟩
  have missing : (bytes.take length).length < length :=
    Nat.lt_of_le_of_lt (List.length_take_le' length bytes) few
  unfold decodeContent
  rw [decode_get_bind]
  simp only [missing, ↓reduceIte]
  rfl

theorem decodeContent_enough (front rest : List UInt8) :
    decodeContent front.length (front ++ rest) =
      match String.fromUTF8? ⟨front.toArray⟩ with
      | some s => .ok (s, rest)
      | none => .error .invalidText := by
  unfold decodeContent
  rw [decode_get_bind]
  simp only [List.take_left, Nat.lt_irrefl, ↓reduceIte]
  rw [decode_modify_bind, List.drop_left]
  cases String.fromUTF8? ⟨front.toArray⟩ <;> rfl

/-- All bytes of a text are needed before their meaning matters, be the file cut inside a character
or not. -/
theorem content_steady (length : Nat) : Steady (decodeContent length) := by
  intro bytes s rest read
  by_cases few : bytes.length < length
  · obtain ⟨e, failed, -⟩ := decodeContent_short few
    rw [failed] at read
    cases read
  obtain ⟨front, more, rfl, rfl⟩ : ∃ front more, bytes = front ++ more ∧ length = front.length :=
    ⟨bytes.take length, bytes.drop length, (List.take_append_drop _ _).symm,
      (List.length_take_of_le (Nat.not_lt.mp few)).symm⟩
  rw [decodeContent_enough] at read
  cases text : String.fromUTF8? ⟨front.toArray⟩ with
  | none =>
    rw [text] at read
    cases read
  | some found =>
    rw [text] at read
    cases read
    refine ⟨front, rfl, fun rest => ?_, fun bytes short differ => ?_⟩
    · rw [decodeContent_enough, text]
    · exact decodeContent_short (length_lt_of_short short differ)

theorem text_steady : Steady decodeText :=
  decodeText_eq ▸ word_steady.bind fun _ => content_steady _

theorem items_steady (each : Steady item) (n : Nat) (done : Array α) :
    Steady (decodeItems item n done) := by
  induction n generalizing done with
  | zero => exact .pure done
  | succ n ih => exact each.bind fun x => ih (done.push x)

theorem table_steady (each : Steady item) : Steady (decodeTable item) :=
  word_steady.bind fun _ => items_steady each _ _

theorem value_steady_step (levels : Nat) (below : ∀ n, levels = n + 1 → Steady (decodeValue n)) :
    Steady (decodeValue levels) := by
  rw [decodeValue.eq_def]
  refine word_steady.bind fun tag => ?_
  cases Value.Kind.ofTag? tag.toNat with
  | none => exact .throw _
  | some kind =>
    cases kind with
    | integer => exact word_steady.bind fun _ => .pure _
    | float => exact double_steady.bind fun _ => .pure _
    | text => exact text_steady.bind fun _ => .pure _
    | list =>
      cases levels with
      | zero => exact .throw _
      | succ n => exact (table_steady (below n rfl)).bind fun _ => .pure _

theorem value_steady (levels : Nat) : Steady (decodeValue levels) := by
  induction levels with
  | zero => exact value_steady_step 0 (by simp)
  | succ levels ih =>
    apply value_steady_step
    intro n same
    cases same
    exact ih

theorem function_steady (registry : Registry) (words : Nat) :
    Steady (decodeFunction registry words) := by
  refine text_steady.bind fun name => word_steady.bind fun kind => ?_
  rcases kind.toNat with _ | _ | _ | n
  · refine word_steady.bind fun ip => word_steady.bind fun locals => word_steady.bind
      fun parameters => ?_
    exact .guard (.guard (.pure _))
  · exact .pure _
  · exact .pure _
  · exact .throw _

theorem lines_steady (words : Nat) : Steady (decodeLines words) :=
  word_steady.bind fun _ => .guard (items_steady word_steady _ _)

theorem map_some_steady (steady : Steady read) : Steady (some <$> read) := by
  rw [map_eq_pure_bind]
  exact steady.bind fun _ => .pure _

theorem program_steady (registry : Registry) : Steady (decodeProgram registry) := by
  refine word_steady.bind fun word => .guard (word_steady.bind fun found => .guard ?_)
  refine word_steady.bind fun flags => (table_steady word_steady).bind fun words => ?_
  refine (table_steady (function_steady registry _)).bind fun functions => ?_
  refine (table_steady (value_steady _)).bind fun globals => ?_
  refine (table_steady (value_steady _)).bind fun literals => ?_
  exact .ite ((map_some_steady (lines_steady _)).bind fun lines => .guard (.pure _))
    ((Steady.pure none).bind fun lines => .guard (.pure _))

/-- Truncation is always detected. A file that is accepted has a front that is read and a rest that
is not looked at. Whatever prefix of the file is shorter than the front, reading it fails because
the bytes end too early. So of two encodings that are accepted, neither goes on where the other
ends. -/
theorem truncation_detected {registry : Registry} {bytes rest : List UInt8} {p : Program}
    (read : decodeProgram registry bytes = .ok (p, rest)) :
    ∃ front, bytes = front ++ rest ∧ decodeProgram registry front = .ok (p, []) ∧
      (∀ short, short <+: bytes → short.length < front.length →
        ∃ e : Fault, Program.decode registry short = .error e ∧ e.IsCut) ∧
      ∀ other q, decodeProgram registry other = .ok (q, []) → other <+: front ∨ front <+: other →
        other = front := by
  obtain ⟨front, rfl, took⟩ := program_steady registry bytes p rest read
  have alone : decodeProgram registry front = .ok (p, []) := by
    have whole := took.whole []
    rwa [List.append_nil] at whole
  refine ⟨front, rfl, alone, fun short cut less => ?_, fun other q accepted along => ?_⟩
  · have inside : short <+: front :=
      List.prefix_of_prefix_length_le cut (List.prefix_append front rest) (Nat.le_of_lt less)
    obtain ⟨e, failed, early⟩ := took.short short inside (by rintro rfl; exact Nat.lt_irrefl _ less)
    refine ⟨e, ?_, early⟩
    change (Prod.fst <$> decodeProgram registry short) = _
    rw [failed]
    rfl
  · have free := @Steady.prefix_free _ _ (program_steady registry)
    rcases along with inside | further
    · exact free accepted alone inside
    · exact (free alone accepted further).symm

theorem truncation_detected_mixed : ∃ tables, writeTables mixedProgram = .ok tables ∧
    decodeProgram printRegistry (header 7 ++ tables ++ [9]) = .ok (mixedProgram, [9]) ∧
    ∀ n < (header 7 ++ tables).length, ∃ e : Fault,
      Program.decode printRegistry ((header 7 ++ tables ++ [9]).take n) = .error e ∧ e.IsCut := by
  have read (tables) (written : writeTables mixedProgram = .ok tables) :
      decodeProgram printRegistry (header 7 ++ tables ++ [9]) = .ok (mixedProgram, [9]) :=
    tables_read_back rfl (by simp [LinesMatch, mixedProgram]) written mixedProgram_loadable
      (by decide) [9]
  refine ⟨_, rfl, read _ rfl, fun n inside => ?_⟩
  obtain ⟨front, whole, -, cut, -⟩ := truncation_detected (read _ rfl)
  have same := List.append_cancel_right whole
  refine cut _ (List.take_prefix n _) ?_
  rw [← same]
  exact Nat.lt_of_le_of_lt (List.length_take_le n _) inside

end Scriptlet.Format
