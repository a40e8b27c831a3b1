import Scriptlet.Code.Address
import Scriptlet.Code.Opcode

/-!
Reading code. A cursor is a position in the words and a stack of saved positions. A
failed read leaves the cursor at the word it could not interpret, or behind it if
there was a word.
-/
namespace Scriptlet

inductive DecodeError where
  | endOfStream (ip : Nat)
  | invalidOpcode (word : UInt32) (ip : Nat)
  | jumpOutOfRange (target length : Nat)
  | nothingSaved
  | invalidVariable (word : UInt32) (ip : Nat)
  deriving DecidableEq, Repr

namespace DecodeError

def hex (w : UInt32) : String :=
  let digits := Nat.toDigits 16 w.toNat
  "0x" ++ String.ofList (List.replicate (8 - digits.length) '0' ++ digits)

def message : DecodeError → String
  | .endOfStream ip => s!"read past end of byte code at {ip}"
  | .invalidOpcode word ip => s!"invalid opcode {word} at {ip}"
  | .jumpOutOfRange target length =>
    s!"jump target {target} is outside the program ({length} words)"
  | .nothingSaved => "return with an empty instruction pointer stack"
  | .invalidVariable word ip => s!"invalid variable reference {hex word} at {ip}"

end DecodeError

structure Cursor where
  ip : Nat
  saved : List Nat
  deriving DecidableEq, Repr

namespace Cursor

def start : Cursor := ⟨0, []⟩

abbrev Read (α : Type) := Except DecodeError α × Cursor

def atEnd (words : Array UInt32) (c : Cursor) : Bool := decide (words.size ≤ c.ip)

def word (words : Array UInt32) (c : Cursor) : Read UInt32 :=
  match words[c.ip]? with
  | some w => (.ok w, { c with ip := c.ip + 1 })
  | none => (.error (.endOfStream c.ip), c)

def opcode (words : Array UInt32) (c : Cursor) : Read Opcode :=
  match c.word words with
  | (.ok w, next) =>
    match Opcode.ofWord? w with
    | some op => (.ok op, next)
    | none => (.error (.invalidOpcode w c.ip), next)
  | (.error e, next) => (.error e, next)

def address (words : Array UInt32) (c : Cursor) : Read Address :=
  match c.word words with
  | (.ok w, next) =>
    match Address.unpack? w with
    | some a => (.ok a, next)
    | none => (.error (.invalidVariable w c.ip), next)
  | (.error e, next) => (.error e, next)

/-- The end of the words is a valid target. -/
def jump (words : Array UInt32) (target : Nat) (c : Cursor) : Read Unit :=
  if words.size < target then (.error (.jumpOutOfRange target words.size), c)
  else (.ok (), { c with ip := target })

def save (c : Cursor) : Cursor := { c with saved := c.ip :: c.saved }

def restore (c : Cursor) : Read Unit :=
  match c.saved with
  | ip :: rest => (.ok (), ⟨ip, rest⟩)
  | [] => (.error .nothingSaved, c)

end Cursor

end Scriptlet
