import Scriptlet.Program.Format
import Scriptlet.Registry

/-!
Reading a program from bytes. Fields are read strictly in order, and the first problem met
is the answer. Bytes after the last field are left alone. Host functions and native
functions are looked up by name in the registry that the program is loaded against.
-/
namespace Scriptlet

namespace Format

abbrev Decode := StateT (List UInt8) (Except Fault)

def decodeWord : Decode UInt32 := do
  match ← get with
  | a :: b :: c :: d :: rest =>
    set rest
    return a.toUInt32 ||| b.toUInt32 <<< 8 ||| c.toUInt32 <<< 16 ||| d.toUInt32 <<< 24
  | _ => throw .cutNumber

/-- Eight bytes are needed at once, so that fewer are one problem. -/
def decodeDouble : Decode UInt64 := do
  if (← get).length < 8 then throw .cutNumber
  let low ← decodeWord
  let high ← decodeWord
  return low.toUInt64 ||| high.toUInt64 <<< 32

/-- The bytes must all be there before their meaning matters. -/
def decodeText : Decode String := do
  let length := (← decodeWord).toNat
  let bytes := (← get).take length
  if bytes.length < length then throw .cutText
  modify (·.drop length)
  match String.fromUTF8? ⟨bytes.toArray⟩ with
  | some s => return s
  | none => throw .invalidText

def decodeItems {α : Type} (item : Decode α) : Nat → Array α → Decode (Array α)
  | 0, done => return done
  | n + 1, done => do
    let x ← item
    decodeItems item n (done.push x)

def decodeTable {α : Type} (item : Decode α) : Decode (Array α) := do
  let length ← decodeWord
  decodeItems item length.toNat #[]

def decodeValue (levels : Nat) : Decode Value := do
  let tag ← decodeWord
  match Value.Kind.ofTag? tag.toNat with
  | some .integer => return .integer (← decodeWord).toInt32
  | some .float => return .float ⟨← decodeDouble⟩
  | some .text => return .text (← decodeText)
  | some .list =>
    match levels with
    | 0 => throw .nestingTooDeep
    | levels + 1 => return .list (← decodeTable (decodeValue levels)).toList
  | none => throw (.unknownTag tag)

def decodeFunction (registry : Registry) (words : Nat) : Decode Function := do
  let name ← decodeText
  let kind ← decodeWord
  match kind.toNat with
  | 0 =>
    let ip ← decodeWord
    let locals ← decodeWord
    let parameters ← decodeWord
    if words ≤ ip.toNat then throw (.entryOutOfRange name ip.toNat words)
    let slots := locals.toNat + parameters.toNat
    if maxSlots < slots then throw (.tooManySlots name slots)
    return .user ⟨name, ip, locals, parameters⟩
  | 1 => return .host name (registry.arity name)
  | 2 => return .native (registry.native name)
  | _ => throw (.unknownFunctionKind kind)

def decodeLines (words : Nat) : Decode (Array UInt32) := do
  let length ← decodeWord
  if length.toNat ≠ words then throw (.lineMapMismatch length.toNat words)
  decodeItems decodeWord length.toNat #[]

def decodeProgram (registry : Registry) : Decode Program := do
  let word ← decodeWord
  if word ≠ magic then throw (.badMagic word)
  let found ← decodeWord
  if found ≠ version then throw (.unsupportedVersion found)
  let flags ← decodeWord
  let words ← decodeTable decodeWord
  let functions ← decodeTable (decodeFunction registry words.size)
  let globals ← decodeTable (decodeValue maxNesting)
  let literals ← decodeTable (decodeValue maxNesting)
  let lines ← if flags &&& linesFlag ≠ 0 then some <$> decodeLines words.size else pure none
  if words.isEmpty then throw .empty
  return ⟨words, functions, globals, literals, lines⟩

end Format

namespace Program

def decode (registry : Registry) (bytes : List UInt8) : Except Format.Fault Program :=
  (Format.decodeProgram registry).run' bytes

end Program

end Scriptlet
