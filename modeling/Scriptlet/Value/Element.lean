import Scriptlet.Value.Basic

/-!
Elements of nested lists. A path of indexes leads into a value; reading past the end
of a list gives zero, and writing there grows the list with zeros.
-/
namespace Scriptlet.Value

def get (v : Value) (i : Int) : Value :=
  if i < 0 then zero else v.elements.getD i.toNat zero

def getPath (v : Value) (path : List Int) : Value := path.foldl get v

def padTo (items : List Value) (n : Nat) : List Value :=
  items ++ List.replicate (n - items.length) zero

/-- Replaces the element at the end of the path. An atom on the way becomes a list that
starts with it, and from a negative index on nothing is changed. -/
def setPath (v : Value) (path : List Int) (x : Value) : Value :=
  match path with
  | [] => x
  | i :: rest =>
    if i < 0 then v
    else
      let items := padTo v.elements (i.toNat + 1)
      .list (items.set i.toNat ((items.getD i.toNat zero).setPath rest x))

end Scriptlet.Value
