/-!
Tables from names to entries that keep the order in which the names first came. The
place of a name is what programs refer to, so a later entry for a known name takes over
its place.
-/
namespace Scriptlet

abbrev NameTable (α : Type) := List (String × α)

namespace NameTable

variable {α : Type}

def find? (table : NameTable α) (name : String) : Option α :=
  match table with
  | [] => none
  | (key, entry) :: rest => if key == name then some entry else find? rest name

def place? (table : NameTable α) (name : String) : Option Nat :=
  table.findIdx? (·.1 == name)

def contains (table : NameTable α) (name : String) : Bool := (table.find? name).isSome

def insert (table : NameTable α) (name : String) (entry : α) : NameTable α :=
  match table with
  | [] => [(name, entry)]
  | (key, old) :: rest =>
    if key == name then (key, entry) :: rest else (key, old) :: insert rest name entry

def insertNew (table : NameTable α) (name : String) (entry : α) : NameTable α :=
  if table.contains name then table else table ++ [(name, entry)]

def modifyAt (table : NameTable α) (place : Nat) (f : α → α) : NameTable α :=
  table.modify place fun (key, entry) => (key, f entry)

def entries (table : NameTable α) : List α := table.map (·.2)

end NameTable

end Scriptlet
