import Scriptlet.Builtin
import Scriptlet.NameTable

/-!
What a host offers to programs: functions and read-only variables, in the order of
registration. A program is compiled and loaded against a registry.
-/
namespace Scriptlet

structure Registry where
  functions : NameTable Function
  constants : NameTable Value

namespace Registry

def empty : Registry := ⟨[], []⟩

def addHost (r : Registry) (name : String) (arity : Arity) : Registry :=
  { r with functions := r.functions.insert name (.host name arity) }

def addNative (r : Registry) (f : NativeFunction) : Registry :=
  { r with functions := r.functions.insert f.name (.native f) }

def addConstant (r : Registry) (name : String) (value : Value) : Registry :=
  { r with constants := r.constants.insert name value }

def addNewConstants (r : Registry) (constants : NameTable Value) : Registry :=
  { r with constants := constants.foldl (fun t (name, value) =>
    t.insertNew name value) r.constants }

def addBuiltins (r : Registry) : Registry :=
  let add (t : NameTable Function) (f : NativeFunction) := t.insertNew f.name (.native f)
  addNewConstants { r with functions := Builtin.functions.foldl add r.functions } Builtin.constants

def native (r : Registry) (name : String) : NativeFunction :=
  match r.functions.find? name with
  | some (.native f) => f
  | _ => .disabled name

def arity (r : Registry) (name : String) : Arity :=
  ((r.functions.find? name).bind Function.arity?).getD .any

end Registry

end Scriptlet
