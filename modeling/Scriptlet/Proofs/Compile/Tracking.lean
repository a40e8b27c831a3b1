import Scriptlet.Compile.Statement
import Scriptlet.Proofs.Code.Rows
import Scriptlet.Proofs.Compile.Expressions
import Scriptlet.Proofs.Registries

/-!
The code of a function while it is written. Behind what stood there before, the words are those
of a row of statements. For every target that is still open, the operands in the row that need
it are just those that the compiler has noted for it. Writing a statement extends the row, and
reaching a target resolves it.
-/
namespace Scriptlet

namespace NameTable

variable {α : Type}

theorem find?_insert (table : NameTable α) (name other : String) (entry : α) :
    (table.insert name entry).find? other = if name = other then some entry
      else table.find? other := by
  induction table with
  | nil => by_cases same : name = other <;> simp [insert, find?, same]
  | cons head rest ih =>
    obtain ⟨key, old⟩ := head
    by_cases here : key = name
    · subst here
      by_cases same : key = other <;> simp [insert, find?, same]
    · by_cases same : key = other
      · subst same
        simp [insert, find?, here, Ne.symm here]
      · simp [insert, find?, here, same, ih]

end NameTable

namespace Compile

open Actions Code

variable {s s' : Session} {ws : List UInt32} {k : Nat}

def Session.marks (s : Session) : NameTable Label × List Loop :=
  (s.scope.map fun x => (x.labels, x.loops)).getD ([], [])

def labelOf (labels : NameTable Label) (name : String) : Label :=
  (labels.find? name).getD ⟨none, [], 0⟩

/-- The operands noted for a target. Those in `pending` wait by themselves. -/
def waiting (marks : NameTable Label × List Loop) (pending : List Nat) : Target → List Nat
  | .ip _ => []
  | .label name => (labelOf marks.1 name).waiting
  | .exit level => ((marks.2.reverse[level]?).map (·.breaks)).getD []
  | .again level => ((marks.2.reverse[level]?).map (·.continues)).getD []
  | .later operand => if operand ∈ pending then [operand] else []

theorem loop_at (l : Loop) (rest : List Loop) (level : Nat) :
    (l :: rest).reverse[level]? = if level = rest.length then some l else rest.reverse[level]? := by
  rw [List.reverse_cons, List.getElem?_append, List.length_reverse]
  by_cases inner : level = rest.length
  · simp [inner]
  · by_cases outer : level < rest.length
    · simp [inner, outer]
    · rw [if_neg outer, if_neg inner, List.getElem?_eq_none (by simp; omega),
        List.getElem?_eq_none (by simp; omega)]

theorem waiting_cons (labels : NameTable Label) (l : Loop) (rest : List Loop) (pending : List Nat)
    (t : Target) :
    waiting (labels, l :: rest) pending t = if t = .exit rest.length then l.breaks
      else if t = .again rest.length then l.continues else waiting (labels, rest) pending t := by
  cases t with
  | exit level | again level =>
    simp only [waiting, loop_at, Target.exit.injEq, Target.again.injEq, reduceCtorEq, ↓reduceIte]
    split <;> rfl
  | _ => rfl

theorem waiting_opened (labels : NameTable Label) (rest : List Loop) (pending : List Nat) {l : Loop}
    (breaks : l.breaks = []) (continues : l.continues = []) (t : Target) :
    waiting (labels, l :: rest) pending t = waiting (labels, rest) pending t := by
  rw [waiting_cons, breaks, continues]
  split
  · simp_all [waiting]
  · split <;> simp_all [waiting]

def Session.rounds (s : Session) : List (Nat × Nat) := s.marks.2.map fun l => (l.start, l.resume)

structure Tracks (base : List UInt32) (pending : List Nat) (s : Session) (row : List Statement) :
    Prop where
  words : s.words = base ++ rowWords Target.word row
  holes : ∀ t, t.isOpen = true → Code.holes t base.length row = waiting s.marks pending t
  targets : ∀ x ∈ row, ∀ a, x.target? = some (.ip a) → a ∈ bounds base.length row
  labels : ∀ name a, (labelOf s.marks.1 name).ip = some a →
    a ∈ bounds base.length row ∧ (labelOf s.marks.1 name).waiting = []
  rounds : ∀ r ∈ s.rounds, r.1 ∈ bounds base.length row ∧ r.2 ∈ bounds base.length row
  valid : ∀ x ∈ row, x.Valid s.references

namespace Tracks

variable {base : List UInt32} {pending pending' : List Nat} {s s' : Session} {row : List Statement}
  {more : List Statement}

variable (tracks : Tracks base pending s row)
include tracks

theorem ip_eq : s.writer.ip = base.length + rowSize row := by
  rw [← words_length, tracks.words, List.length_append, rowWords_length]

theorem ip_mem : s.writer.ip ∈ bounds base.length row := by
  rw [tracks.ip_eq]
  exact end_mem_bounds _ _

theorem extend (words : s'.words = s.words ++ rowWords Target.word more)
    (within : s.references.Within s'.references) (valid : ∀ x ∈ more, x.Valid s'.references)
    (notes : ∀ t, t.isOpen = true → waiting s'.marks pending' t =
      waiting s.marks pending t ++ Code.holes t s.writer.ip more)
    (targets : ∀ x ∈ more, ∀ a, x.target? = some (.ip a) → a ∈ bounds base.length row)
    (labels : ∀ name a, (labelOf s'.marks.1 name).ip = some a →
      (labelOf s.marks.1 name).ip = some a ∧
        (labelOf s'.marks.1 name).waiting = (labelOf s.marks.1 name).waiting)
    (rounds : s'.rounds = s.rounds) : Tracks base pending' s' (row ++ more) := by
  have wider : ∀ a ∈ bounds base.length row, a ∈ bounds base.length (row ++ more) :=
    fun a at_ => mem_bounds_append.mpr (Or.inl at_)
  refine ⟨?_, ?_, ?_, ?_, ?_, ?_⟩
  · rw [words, tracks.words, rowWords_append, List.append_assoc]
  · intro t open_
    rw [holes_append, tracks.holes t open_, notes t open_, tracks.ip_eq]
  · intro x member a aims
    exact wider a ((List.mem_append.mp member).elim (tracks.targets x · a aims)
      (targets x · a aims))
  · intro name a bound
    obtain ⟨before, same⟩ := labels name a bound
    rw [same]
    exact ⟨wider a (tracks.labels name a before).1, (tracks.labels name a before).2⟩
  · intro r member
    rw [rounds] at member
    exact ⟨wider _ (tracks.rounds r member).1, wider _ (tracks.rounds r member).2⟩
  · exact List.forall_mem_append.mpr ⟨fun x old => (tracks.valid x old).mono within, valid⟩

theorem resolve {t : Target} (open_ : t.isOpen = true) {a : Nat} (at_ : a ∈ bounds base.length row)
    (words : s'.words = patchAll (.ofNat a) (waiting s.marks pending t) s.words)
    (within : s.references.Within s'.references) (done : waiting s'.marks pending' t = [])
    (others : ∀ u, u.isOpen = true → u ≠ t → waiting s'.marks pending' u =
      waiting s.marks pending u)
    (labels : ∀ name b, (labelOf s'.marks.1 name).ip = some b →
      b ∈ bounds base.length row ∧ (labelOf s'.marks.1 name).waiting = [])
    (rounds : ∀ r ∈ s'.rounds, r ∈ s.rounds) : Tracks base pending' s' (resolveRow t a row) := by
  have same : bounds base.length (resolveRow t a row) = bounds base.length row :=
    bounds_retarget _ _ _
  refine ⟨?_, ?_, ?_, ?_, ?_, ?_⟩
  · rw [resolveRow_words, words, tracks.words, tracks.holes t open_]
  · intro u unresolved
    by_cases equal : u = t
    · rw [equal, holes_resolve_self open_, done]
    · rw [holes_resolve_of_ne unresolved equal, tracks.holes u unresolved,
        others u unresolved equal]
  · intro x member b aims
    rw [same]
    obtain ⟨y, old, rfl⟩ := List.mem_map.mp member
    rw [Statement.retarget_target?, Option.map_eq_some_iff] at aims
    obtain ⟨u, aimed, resolved⟩ := aims
    by_cases equal : u = t
    · rw [equal, Target.resolve_self, Target.ip.injEq] at resolved
      exact resolved ▸ at_
    · rw [Target.resolve_of_ne a equal] at resolved
      exact tracks.targets y old b (resolved ▸ aimed)
  · intro name b bound
    rw [same]
    exact labels name b bound
  · intro r member
    rw [same]
    exact tracks.rounds r (rounds r member)
  · intro x member
    obtain ⟨y, old, rfl⟩ := List.mem_map.mp member
    exact ((tracks.valid y old).mono within).retarget _

theorem remark (words : s'.words = s.words)
    (within : s.references.Within s'.references) (labels : s'.marks.1 = s.marks.1)
    (notes : ∀ t, waiting s'.marks pending' t = waiting s.marks pending t)
    (rounds : ∀ r ∈ s'.rounds, r.1 ∈ bounds base.length row ∧ r.2 ∈ bounds base.length row) :
    Tracks base pending' s' row :=
  ⟨words ▸ tracks.words, fun t open_ => (tracks.holes t open_).trans (notes t).symm, tracks.targets,
    labels ▸ tracks.labels, rounds, fun x member => (tracks.valid x member).mono within⟩

theorem of_grows (words : s'.words = s.words)
    (marks : s'.marks = s.marks) (within : s.references.Within s'.references) :
    Tracks base pending s' row := by
  refine tracks.remark words within (congrArg _ marks) (fun t => by rw [marks]) ?_
  rw [Session.rounds, marks]
  exact tracks.rounds

end Tracks

theorem Emits.marks (emits : Emits s s' ws k) : s'.marks = s.marks := by
  have quiet := emits.quiet
  simp only [Session.quiet, Prod.mk.injEq] at quiet
  rw [Session.marks, Session.marks, quiet.2.2.2.2.2.2]

theorem Emits.errors (emits : Emits s s' ws k) : s'.errors = s.errors := by
  have quiet := emits.quiet
  simp only [Session.quiet, Prod.mk.injEq] at quiet
  exact quiet.1

end Compile

end Scriptlet
