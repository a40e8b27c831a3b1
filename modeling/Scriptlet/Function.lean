import Scriptlet.Value.Operator

/-!
Functions that a program can call: those it defines, those that its host answers while
the program runs, and native ones that are plain functions of their arguments.
-/
namespace Scriptlet

structure Arity where
  min : Option Nat
  max : Option Nat
  deriving DecidableEq, Repr

namespace Arity

def any : Arity := ⟨none, none⟩

def exactly (n : Nat) : Arity := ⟨some n, some n⟩

def atLeast (n : Nat) : Arity := ⟨some n, none⟩

def between (min max : Nat) : Arity := ⟨some min, some max⟩

inductive Violation where
  | exactly (n : Nat)
  | atLeast (n : Nat)
  | atMost (n : Nat)
  deriving DecidableEq, Repr

def Violation.message (name : String) : Violation → String
  | .exactly n => s!"Function \"{name}\" requires {n} argument(s)"
  | .atLeast n => s!"Function \"{name}\" requires at least {n} argument(s)"
  | .atMost n => s!"Function \"{name}\" doesn't allow more than {n} argument(s)"

def admits (a : Arity) (count : Nat) : Bool :=
  a.min.all (fun n => decide (n ≤ count)) && a.max.all fun n => decide (count ≤ n)

/-- Two equal limits make an exact number, which is reported as such; otherwise the lower
limit is checked first. -/
def violation? (a : Arity) (count : Nat) : Option Violation :=
  match a.min, a.max with
  | some n, some m =>
    if n = m then (if count = n then none else some (.exactly n))
    else if count < n then some (.atLeast n)
    else if m < count then some (.atMost m)
    else none
  | some n, none => if count < n then some (.atLeast n) else none
  | none, some m => if m < count then some (.atMost m) else none
  | none, none => none

theorem violation?_eq_none_iff (a : Arity) (count : Nat) :
    a.violation? count = none ↔ a.admits count = true := by
  unfold violation? admits
  split <;> simp_all
  split
  · split <;> simp_all
    omega
  · split
    · simp; omega
    · split <;> simp <;> omega

@[simp] theorem exactly_admits_iff {n count : Nat} :
    (exactly n).admits count = true ↔ count = n := by
  simp [exactly, admits]
  omega

end Arity

structure UserFunction where
  name : String
  ip : UInt32
  locals : UInt32
  parameters : UInt32
  deriving DecidableEq, Repr

/-- A function that the host answers at once. What it returns depends on its arguments
only: it has no state of its own, does not see the machine that calls it, and cannot
fail. A host with more to say is asked by a `Function.host`, where the machine stops
and waits for the answer. -/
structure NativeFunction where
  name : String
  arity : Arity
  apply : List Value → Value

namespace NativeFunction

def disabled (name : String) : NativeFunction := ⟨name, .any, fun _ => .zero⟩

end NativeFunction

inductive Function where
  | user (f : UserFunction)
  | host (name : String) (arity : Arity)
  | native (f : NativeFunction)

namespace Function

def name : Function → String
  | .user f => f.name
  | .host name _ => name
  | .native f => f.name

/-- The functions of a program have no arity of their own here: it is their number of
parameters, known once they are compiled. -/
def arity? : Function → Option Arity
  | .user _ => none
  | .host _ arity => some arity
  | .native f => some f.arity

def same : Function → Function → Bool
  | .user f, .user g => f == g
  | .host n a, .host m b => n == m && a == b
  | .native f, .native g => f.name == g.name && f.arity == g.arity
  | _, _ => false

end Function

end Scriptlet
