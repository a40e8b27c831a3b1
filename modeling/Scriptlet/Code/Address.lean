/-!
Addresses of variables. One word holds the scope, as one of three bits of the highest
four, and the slot in the other 28.
-/
namespace Scriptlet

inductive VariableScope where
  | globals
  | locals
  | parameters
  deriving DecidableEq, Repr

namespace VariableScope

def flag : VariableScope → UInt32
  | .globals => 0x10000000
  | .locals => 0x20000000
  | .parameters => 0x40000000

def name : VariableScope → String
  | .globals => "Global"
  | .locals => "Local"
  | .parameters => "Parameter"

def letter : VariableScope → String
  | .globals => "G"
  | .locals => "L"
  | .parameters => "P"

end VariableScope

structure Address where
  scope : VariableScope
  index : UInt32
  deriving DecidableEq, Repr

namespace Address

def indexMask : UInt32 := 0x0FFFFFFF

def pack (a : Address) : UInt32 := a.scope.flag ||| (a.index &&& 0x8FFFFFFF)

/-- Only words with exactly one flag are addresses. -/
def unpack? (word : UInt32) : Option Address :=
  let flags := word &&& 0xF0000000
  let index := word &&& indexMask
  if flags = VariableScope.globals.flag then some ⟨.globals, index⟩
  else if flags = VariableScope.locals.flag then some ⟨.locals, index⟩
  else if flags = VariableScope.parameters.flag then some ⟨.parameters, index⟩
  else none

end Address

end Scriptlet
