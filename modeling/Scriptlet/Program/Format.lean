import Scriptlet.Code.Cursor
import Scriptlet.Program.Basic

/-!
The byte format of saved programs. Numbers are little-endian. A program is written as

* the magic word, the version and the flags;
* the words of the code;
* the functions: a name, a kind, and for functions of the program three words more;
* the values of the variables, then the literals;
* the line of every word, if the flags say so.

Tables and texts start with their length. This module holds what writer and reader agree on.
-/
namespace Scriptlet.Format

def magic : UInt32 := 0x4B4C4953

def version : UInt32 := 0

def linesFlag : UInt32 := 1

def maxNesting : Nat := 64

def maxSlots : Nat := 65536

inductive Fault where
  | cutNumber
  | cutText
  | tableTooLarge
  | badMagic (word : UInt32)
  | unsupportedVersion (version : UInt32)
  | unknownFunctionKind (kind : UInt32)
  | unknownTag (tag : UInt32)
  | invalidText
  | lineMapMismatch (lines words : Nat)
  | empty
  | nestingTooDeep
  | entryOutOfRange (name : String) (ip words : Nat)
  | tooManySlots (name : String) (slots : Nat)
  deriving DecidableEq, Repr

def Fault.message : Fault → String
  | .cutNumber => "failed to fill whole buffer"
  | .cutText => "unexpected end of file"
  | .tableTooLarge => "table too large"
  | .badMagic word => s!"not a compiled Silk program (magic {DecodeError.hex word})"
  | .unsupportedVersion version => s!"unsupported program format version {version}"
  | .unknownFunctionKind kind => s!"unknown function kind {kind}"
  | .unknownTag tag => s!"unknown value tag {tag}"
  | .invalidText => "program text is not valid UTF-8"
  | .lineMapMismatch lines words =>
    s!"line map has {lines} entries for {words} instruction words"
  | .empty => "program has no instructions"
  | .nestingTooDeep => s!"list values nest deeper than {maxNesting}"
  | .entryOutOfRange name ip words =>
    s!"function {name} starts at {ip}, outside {words} instruction words"
  | .tooManySlots name slots => s!"function {name} declares {slots} slots (limit {maxSlots})"

def encodeWord (w : UInt32) : List UInt8 :=
  [w.toUInt8, (w >>> 8).toUInt8, (w >>> 16).toUInt8, (w >>> 24).toUInt8]

def functionKind : Function → UInt32
  | .user _ => 0
  | .host _ _ => 1
  | .native _ => 2

def isSaved (bytes : List UInt8) : Bool := (encodeWord magic).isPrefixOf bytes

end Scriptlet.Format
