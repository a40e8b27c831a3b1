/-!
Where bytes stop being UTF-8. A character is a first byte and the bytes that it asks for,
each in a range; the ranges leave out surrogates, overlong forms and numbers too large.
-/
namespace Scriptlet.Utf8

def followers (b : UInt8) : Option (List (UInt8 × UInt8)) :=
  let tail := (0x80, 0xBF)
  if b < 0x80 then some []
  else if b < 0xC2 then none
  else if b < 0xE0 then some [tail]
  else if b = 0xE0 then some [(0xA0, 0xBF), tail]
  else if b = 0xED then some [(0x80, 0x9F), tail]
  else if b < 0xF0 then some [tail, tail]
  else if b = 0xF0 then some [(0x90, 0xBF), tail, tail]
  else if b < 0xF4 then some [tail, tail, tail]
  else if b = 0xF4 then some [(0x80, 0x8F), tail, tail]
  else none

/-- The first bytes that are no text: where they start, and how many they are unless the end
came too early. -/
structure Fault where
  index : Nat
  length : Option Nat
  deriving DecidableEq, Repr

def Fault.message (f : Fault) : String :=
  match f.length with
  | some n => s!"invalid utf-8 sequence of {n} bytes from index {f.index}"
  | none => s!"incomplete utf-8 byte sequence from index {f.index}"

def fault? (index n : Nat) : List (UInt8 × UInt8) → List UInt8 → Option Fault
  | [], _ => none
  | _ :: _, [] => some ⟨index, none⟩
  | (low, high) :: ranges, b :: bytes =>
    if low ≤ b ∧ b ≤ high then fault? index (n + 1) ranges bytes else some ⟨index, some n⟩

def checkFrom (index : Nat) (bytes : List UInt8) : Option Fault :=
  match bytes with
  | [] => none
  | b :: rest =>
    match followers b with
    | none => some ⟨index, some 1⟩
    | some ranges =>
      match fault? index 1 ranges rest with
      | some f => some f
      | none => checkFrom (index + 1 + ranges.length) (rest.drop ranges.length)
termination_by bytes.length

def decode (bytes : List UInt8) : Except Fault String :=
  match checkFrom 0 bytes, String.fromUTF8? ⟨bytes.toArray⟩ with
  | none, some s => .ok s
  | some f, _ => .error f
  | none, none => .error ⟨0, none⟩

end Scriptlet.Utf8
