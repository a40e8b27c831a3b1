import Scriptlet.Program.Format

/-!
Writing a program as bytes. Only a program with code is written, and its lines, if it has
them, must match the code word for word.
-/
namespace Scriptlet

namespace Format

abbrev Encoded := Except Fault (List UInt8)

def encodeDouble (w : UInt64) : List UInt8 :=
  encodeWord w.toUInt32 ++ encodeWord (w >>> 32).toUInt32

def encodeLength (n : Nat) : Encoded :=
  if n < 0x100000000 then .ok (encodeWord (UInt32.ofNat n)) else .error .tableTooLarge

def encodeText (s : String) : Encoded := do
  let bytes := s.toUTF8.data.toList
  return (← encodeLength bytes.length) ++ bytes

def encodeItems {α : Type} (item : α → Encoded) : List α → Encoded
  | [] => .ok []
  | x :: rest => do
    let head ← item x
    return head ++ (← encodeItems item rest)

def encodeTable {α : Type} (item : α → Encoded) (xs : List α) : Encoded := do
  let length ← encodeLength xs.length
  return length ++ (← encodeItems item xs)

mutual

def encodeValue : Value → Encoded
  | .atom (.integer n) => .ok (encodeWord 0 ++ encodeWord n.toUInt32)
  | .atom (.float x) => .ok (encodeWord 1 ++ encodeDouble x.bits)
  | .atom (.text s) => do return encodeWord 2 ++ (← encodeText s)
  | .list items => do
    let length ← encodeLength items.length
    return encodeWord 3 ++ length ++ (← encodeValues items)

def encodeValues : List Value → Encoded
  | [] => .ok []
  | v :: rest => do
    let head ← encodeValue v
    return head ++ (← encodeValues rest)

end

def encodeFunction (f : Function) : Encoded := do
  let head := (← encodeText f.name) ++ encodeWord (functionKind f)
  match f with
  | .user f => return head ++ encodeWord f.ip ++ encodeWord f.locals ++ encodeWord f.parameters
  | _ => return head

end Format

namespace Program

open Format

def encode (p : Program) : Encoded := do
  if p.words.isEmpty then throw .empty
  if let some lines := p.lines then
    if lines.size ≠ p.words.size then throw (.lineMapMismatch lines.size p.words.size)
  let flags := if p.lines.isSome then linesFlag else 0
  let head := encodeWord magic ++ encodeWord version ++ encodeWord flags
  let word (w : UInt32) : Encoded := .ok (encodeWord w)
  let words ← encodeTable word p.words.toList
  let functions ← encodeTable encodeFunction p.functions.toList
  let globals ← encodeTable encodeValue p.globals.toList
  let literals ← encodeTable encodeValue p.literals.toList
  let lines ← match p.lines with
    | some lines => encodeTable word lines.toList
    | none => .ok []
  return head ++ words ++ functions ++ globals ++ literals ++ lines

end Program

end Scriptlet
