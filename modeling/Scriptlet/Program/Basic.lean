import Scriptlet.Function

/-!
Compiled programs: the words of the code and the tables that the words refer to.
-/
namespace Scriptlet

structure Program where
  words : Array UInt32
  functions : Array Function
  globals : Array Value
  literals : Array Value
  lines : Option (Array UInt32)

namespace Program

def line? (p : Program) (ip : Nat) : Option UInt32 := p.lines.bind (·[ip]?)

def same (p q : Program) : Bool :=
  p.words == q.words && p.lines == q.lines
    && p.functions.size == q.functions.size
    && (p.functions.zip q.functions).all (fun (f, g) => f.same g)
    && Value.sameAll p.globals.toList q.globals.toList
    && Value.sameAll p.literals.toList q.literals.toList

end Program

end Scriptlet
