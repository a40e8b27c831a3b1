import Scriptlet.Registry

/-!
Settings of a compilation, and the registry that they make of what a host offers.
-/
namespace Scriptlet

structure Options where
  maxErrors : Nat
  lineNumbers : Bool
  builtins : Bool
  constants : NameTable Value

namespace Options

def default : Options := ⟨45, true, true, []⟩

def registry (o : Options) (host : Registry) : Registry :=
  let r := host.addNewConstants o.constants
  if o.builtins then r.addBuiltins else r

end Options

end Scriptlet
