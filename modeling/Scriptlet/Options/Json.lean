import Scriptlet.Json.Skipping
import Scriptlet.Options.Basic
import Scriptlet.Value.Json

/-!
Options as JSON: an object whose fields may come in any order, or an array that gives them
by position. Missing fields have their defaults, and fields of other names are passed over.
Problems are reported in the order of reading, so a value of the wrong type comes before a
later mistake in the text.
-/
namespace Scriptlet

open Json.Reading

namespace Options

structure Draft where
  maxErrors : Option Nat
  lineNumbers : Option Bool
  builtins : Option Bool
  constants : Option (NameTable Value)

namespace Draft

def empty : Draft := ⟨none, none, none, none⟩

def options (d : Draft) : Options where
  maxErrors := d.maxErrors.getD default.maxErrors
  lineNumbers := d.lineNumbers.getD default.lineNumbers
  builtins := d.builtins.getD default.builtins
  constants := d.constants.getD default.constants

end Draft

/-- Fails at a value of another type. A simple value is read first, so that a mistake in its
text counts. -/
def otherType {α : Type} : Json.Reading α := do
  match ← peek .cutValue with
  | '[' | '{' => fail .unsuitable
  | _ =>
    discard (value 1)
    fail .unsuitable

def natural : Json.Reading Nat := do
  let c ← peek .cutValue
  if c = '-' then
    skip
    discard (number true)
    fail .unsuitable
  if !Reading.isDigit c then otherType
  match ← number false with
  | .integer n => return n.toNat
  | .float _ => fail .unsuitable

def flag : Json.Reading Bool := do
  match ← peek .cutValue with
  | 't' =>
    skip
    word ['r', 'u', 'e']
    return true
  | 'f' =>
    skip
    word ['a', 'l', 's', 'e']
    return false
  | _ => otherType

/-- A table of constants. A name given again keeps its place and takes the later value. -/
def constantTable (levels : Nat) : Json.Reading (NameTable Value) := do
  if (← peek .cutValue) ≠ '{' then otherType
  let fuel ← openAt levels
  let found ← members (Value.reading levels) fuel []
  return found.foldl (fun table (name, v) => table.insert name v) []

def once {α : Type} (old : Option α) (reading : Json.Reading α) : Json.Reading (Option α) := do
  if old.isSome then fail .unsuitable
  colon
  return some (← reading)

def field (levels : Nat) (d : Draft) (key : String) : Json.Reading Draft := do
  if key = "max_errors" then return { d with maxErrors := ← once d.maxErrors natural }
  else if key = "line_numbers" then return { d with lineNumbers := ← once d.lineNumbers flag }
  else if key = "internal_functions" then return { d with builtins := ← once d.builtins flag }
  else if key = "variables" then
    return { d with constants := ← once d.constants (constantTable levels) }
  else
    colon
    skipValue
    return d

def fields (levels : Nat) : Nat → Bool → Draft → Json.Reading Draft
  | 0, _, _ => fail .cutObject
  | n + 1, first, d => do
    match ← nextKey first with
    | some key => fields levels n false (← field levels d key)
    | none =>
      skip
      return d

def item {α : Type} (first : Bool) (reading : Json.Reading α) : Json.Reading (Option α) := do
  if ← moreItems first then return some (← reading) else return none

def positional (levels : Nat) : Json.Reading Draft := do
  let maxErrors ← item true natural
  let lineNumbers ← item false flag
  let builtins ← item false flag
  let constants ← item false (constantTable levels)
  endList
  return { maxErrors, lineNumbers, builtins, constants }

def reading : Json.Reading Options := do
  let levels := maxDepth - 1
  match ← peek .cutValue with
  | '[' =>
    discard (openAt levels)
    return (← positional (levels - 1)).options
  | '{' =>
    let fuel ← openAt levels
    return (← fields (levels - 1) fuel true .empty).options
  | _ => otherType

def ofJsonText (source : String) : Except Json.Failure Options := reading.run source

def json (o : Options) : String :=
  Json.writeObject
    [("max_errors", toString o.maxErrors),
      ("line_numbers", toString o.lineNumbers),
      ("internal_functions", toString o.builtins),
      ("variables", Json.writeObject (o.constants.map fun (name, v) => (name, v.json)))]

end Options

end Scriptlet
