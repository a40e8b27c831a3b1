import Scriptlet.Text.CaseTable

/-!
Upper and lower case of whole texts. The only mapping that looks at its neighbours is
that of the capital sigma: at the end of a word its small form is the final one.
-/
namespace Scriptlet.Text

def mapCase (sequences : List (Nat × List Nat)) (runs : List CaseRun) (c : Char) : List Char :=
  match sequences.lookup c.toNat with
  | some points => points.map Char.ofNat
  | none =>
    match runs.findSome? (·.image? c.toNat) with
    | some point => [Char.ofNat point]
    | none => [c]

def upperChar (c : Char) : List Char := mapCase upperSequences upperRuns c

def lowerChar (c : Char) : List Char := mapCase lowerSequences lowerRuns c

def casedAhead (cs : List Char) : Bool :=
  match cs.dropWhile (caseIgnorable.contains ·.toNat) with
  | [] => false
  | c :: _ => cased.contains c.toNat

def capitalSigma : Char := Char.ofNat 0x3A3

/-- A capital sigma ends a word if a cased letter comes before it and none after it. -/
def lowerSigma (before after : List Char) : Char :=
  if casedAhead before && !casedAhead after then Char.ofNat 0x3C2 else Char.ofNat 0x3C3

/-- `before` holds the characters already passed, the nearest first. -/
def lowerFrom (before : List Char) : List Char → List Char
  | [] => []
  | c :: rest =>
    (if c = capitalSigma then [lowerSigma before rest] else lowerChar c) ++
      lowerFrom (c :: before) rest

def upper (s : String) : String := String.ofList (s.toList.flatMap upperChar)

def lower (s : String) : String := String.ofList (lowerFrom [] s.toList)

end Scriptlet.Text
