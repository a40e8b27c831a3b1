import Scriptlet.Code.Address
import Scriptlet.NameTable

/-!
What is known of the function whose body is being compiled: its parameters and locals,
numbered in the order of their first appearance, its labels, and the loops around the
current statement.

A jump whose target is not known yet leaves the address of its operand behind, and the
operand is patched when the target comes.
-/
namespace Scriptlet.Compile

structure Label where
  ip : Option Nat
  waiting : List Nat
  firstUse : UInt32
  deriving DecidableEq, Repr

structure Loop where
  start : Nat
  resume : Nat
  breaks : List Nat
  continues : List Nat
  deriving DecidableEq, Repr

/-- Tells a loop from those around it, which have lower numbers. -/
structure LoopId where
  index : Nat
  deriving DecidableEq, Repr

structure Scope where
  name : String
  /-- The place in the function table. A second definition of a name has none; it is
  compiled for its errors only. -/
  place : Option Nat
  ip : Nat
  parameters : List String
  locals : List String
  labels : NameTable Label
  loops : List Loop
  deriving DecidableEq, Repr

namespace Scope

def start (name : String) (place : Option Nat) (ip : Nat) : Scope :=
  ⟨name, place, ip, [], [], [], []⟩

def declares (s : Scope) (name : String) : Bool :=
  s.parameters.contains name || s.locals.contains name

def slot (scope : VariableScope) (place : Nat) : Address := ⟨scope, UInt32.ofNat place⟩

/-- Parameters hide locals, which cannot have the same name anyway. -/
def resolve? (s : Scope) (name : String) : Option Address :=
  match s.parameters.idxOf? name with
  | some i => some (slot .parameters i)
  | none => (s.locals.idxOf? name).map (slot .locals)

def nextParameter (s : Scope) : Address := slot .parameters s.parameters.length

def nextLocal (s : Scope) : Address := slot .locals s.locals.length

def addParameter (s : Scope) (name : String) : Option (Address × Scope) :=
  if s.declares name then none
  else some (s.nextParameter, { s with parameters := s.parameters ++ [name] })

def addLocal (s : Scope) (name : String) : Option (Address × Scope) :=
  if s.declares name then none
  else some (s.nextLocal, { s with locals := s.locals ++ [name] })

def label (s : Scope) (name : String) : Label := (s.labels.find? name).getD ⟨none, [], 0⟩

def bindLabel (s : Scope) (name : String) (ip : Nat) : Scope :=
  { s with labels := s.labels.insert name { s.label name with ip := some ip, waiting := [] } }

def useLabel (s : Scope) (name : String) (operand : Nat) (line : UInt32) : Scope :=
  match s.labels.find? name with
  | none => { s with labels := s.labels.insert name ⟨none, [operand], line⟩ }
  | some l =>
    if l.ip.isSome then s
    else { s with labels := s.labels.insert name { l with waiting := l.waiting ++ [operand] } }

def unboundLabels (s : Scope) : List (String × UInt32) :=
  (s.labels.filter (·.2.ip.isNone)).map fun (name, l) => (name, l.firstUse)

def openLoop (s : Scope) (ip : Nat) : LoopId × Scope :=
  (⟨s.loops.length⟩, { s with loops := ⟨ip, ip, [], []⟩ :: s.loops })

def modifyLoop (s : Scope) (f : Loop → Loop) : Scope :=
  match s.loops with
  | [] => s
  | l :: rest => { s with loops := f l :: rest }

/-- Only the innermost loop can be closed. -/
def closeLoop (s : Scope) (id : LoopId) : Option (Loop × Scope) :=
  match s.loops with
  | [] => none
  | l :: rest => if id.index + 1 = s.loops.length then some (l, { s with loops := rest }) else none

end Scope

end Scriptlet.Compile
