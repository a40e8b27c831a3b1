import Scriptlet.Code.Opcode

/-!
Writing code. Words are appended, and a word whose value is known only later is
patched in place. An opcode can only be patched by an opcode and an operand by an operand;
the writer notes the addresses where that went wrong. Beside the words it counts the opcodes
of each open scope, because an expression starts with the number of opcodes at its own level.
-/
namespace Scriptlet

structure CodeEntry where
  word : UInt32
  isOpcode : Bool
  line : UInt32
  deriving DecidableEq, Repr

/-- `count` belongs to the innermost scope, `outer` to those around it. -/
structure CodeWriter where
  entries : Array CodeEntry
  count : Nat
  outer : List Nat
  line : UInt32
  /-- Addresses that were patched and have no word of the kind. -/
  missed : List Nat
  deriving DecidableEq, Repr

namespace CodeWriter

def empty : CodeWriter := ⟨#[], 0, [], 1, []⟩

def ip (w : CodeWriter) : Nat := w.entries.size

def setLine (line : UInt32) (w : CodeWriter) : CodeWriter := { w with line }

def opcode (op : Opcode) (w : CodeWriter) : CodeWriter :=
  { w with entries := w.entries.push ⟨op.word, true, w.line⟩, count := w.count + 1 }

def operand (word : UInt32) (w : CodeWriter) : CodeWriter :=
  { w with entries := w.entries.push ⟨word, false, w.line⟩ }

def has (isOpcode : Bool) (address : Nat) (w : CodeWriter) : Bool :=
  w.entries[address]?.any (·.isOpcode == isOpcode)

def replace (isOpcode : Bool) (address : Nat) (word : UInt32) (w : CodeWriter) : CodeWriter :=
  { w with
    entries := w.entries.modify address fun e => { e with word }
    missed := if w.has isOpcode address then w.missed else address :: w.missed }

def patch (address : Nat) (word : UInt32) (w : CodeWriter) : CodeWriter :=
  w.replace false address word

def patchOpcode (address : Nat) (op : Opcode) (w : CodeWriter) : CodeWriter :=
  w.replace true address op.word

def last? (w : CodeWriter) : Option CodeEntry := w.entries.back?

def undo (w : CodeWriter) : CodeWriter :=
  { w with
    entries := w.entries.pop
    count := if w.last?.any (·.isOpcode) then w.count - 1 else w.count }

def openScope (w : CodeWriter) : CodeWriter := { w with count := 0, outer := w.count :: w.outer }

def closeScope (w : CodeWriter) : CodeWriter :=
  match w.outer with
  | count :: outer => { w with count, outer }
  | [] => w

def resetCount (w : CodeWriter) : CodeWriter := { w with count := 0 }

def words (w : CodeWriter) : Array UInt32 := w.entries.map (·.word)

def lines (w : CodeWriter) : Array UInt32 := w.entries.map (·.line)

end CodeWriter

end Scriptlet
