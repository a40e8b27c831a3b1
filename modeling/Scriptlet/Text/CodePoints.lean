/-!
Sets of code points, written as the ascending list of the points where
membership changes: the first bound opens the set, the second closes it again,
and so on. The point after a closed range opens nothing until the next bound.
-/
namespace Scriptlet.Text

abbrev CodePoints := List Nat

namespace CodePoints

/-- Every bound at or below `c` flips the answer. -/
def contains : CodePoints → Nat → Bool
  | [], _ => false
  | bound :: rest, c => if c < bound then false else !contains rest c

end CodePoints

end Scriptlet.Text
