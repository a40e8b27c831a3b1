import Scriptlet.Code.Instruction
import Scriptlet.Program.Basic

/-!
Listings of compiled code: a walk through the words of a program, statement by statement,
that notes every instruction and every token of the expressions below it. The walk follows
the words as they stand and takes no jumps.
-/
namespace Scriptlet

namespace Listing

structure Entry where
  ip : Nat
  depth : Nat
  op : Opcode
  detail : String
  deriving DecidableEq, Repr

structure Walk where
  cursor : Cursor
  entries : Array Entry

abbrev Walking := EStateM DecodeError Walk

def read {α : Type} (reading : Cursor.Reading α) : Walking α := fun w =>
  match reading w.cursor with
  | .ok a cursor => .ok a { w with cursor }
  | .error e cursor => .error e { w with cursor }

def note (e : Entry) : Walking Unit := modify fun w => { w with entries := w.entries.push e }

def times (act : Walking Unit) : Nat → Walking Unit
  | 0 => pure ()
  | n + 1 => do
    act
    times act n

def addressText (a : Address) : String := a.scope.letter ++ toString a.index

def padded (n : Nat) : String :=
  let digits := toString n
  String.ofList (List.replicate (5 - digits.length) '0') ++ digits

variable (program : Program)

def call (expression : Walking Unit) (ip depth : Nat) (op : Opcode) : Walking Unit := do
  let place ← read (Cursor.number program.words)
  let arguments ← read (Cursor.number program.words)
  let name := (program.functions[place]?.map Function.name).getD "<missing>"
  note ⟨ip, depth, op, s!"{name} ({arguments} args)"⟩
  times expression arguments

def token (expression : Walking Unit) (depth : Nat) : Walking Unit := do
  let ip := (← get).cursor.ip
  let op ← read (.of (Cursor.opcode program.words))
  match op with
  | .literal =>
    let place ← read (Cursor.number program.words)
    let shown := (program.literals[place]?.map Value.describe).getD "<missing>"
    note ⟨ip, depth, op, s!"#{place} {shown}"⟩
  | .load =>
    let a ← read (.of (Cursor.address program.words))
    note ⟨ip, depth, op, addressText a⟩
  | .createList =>
    note ⟨ip, depth, op, ""⟩
    expression
  | .initializeList =>
    let n ← read (Cursor.number program.words)
    note ⟨ip, depth, op, s!"[{n}]"⟩
    times expression n
  | .element =>
    let a ← read (.of (Cursor.address program.words))
    note ⟨ip, depth, op, addressText a⟩
    expression
  | .elementPath =>
    let a ← read (.of (Cursor.address program.words))
    let n ← read (Cursor.number program.words)
    note ⟨ip, depth, op, addressText a ++ s!" [{n}]"⟩
    times expression n
  | .call => call program expression ip depth op
  | .binary _ | .unary _ => note ⟨ip, depth, op, ""⟩
  | _ => throw (.invalidOpcode op.word ip)

/-- An expression, with at most `levels` expressions inside each other. Each of them takes a
word for its count, so there are never more levels than words. -/
def expression : Nat → Nat → Walking Unit
  | 0, _ => do throw (.endOfStream (← get).cursor.ip)
  | levels + 1, depth => do
    let count ← read (Cursor.number program.words)
    times (token program (expression levels (depth + 1)) depth) count

def statement : Walking Unit := do
  let ip := (← get).cursor.ip
  let op ← read (.of (Cursor.opcode program.words))
  let expression := expression program (program.words.size + 1) 1
  match op with
  | .nop => note ⟨ip, 0, op, ""⟩
  | .callStatement => call program expression ip 0 op
  | .returnValue =>
    note ⟨ip, 0, op, ""⟩
    expression
  | .jump =>
    let target ← read (Cursor.number program.words)
    note ⟨ip, 0, op, "-> " ++ padded target⟩
  | .jumpIfFalse =>
    let target ← read (Cursor.number program.words)
    note ⟨ip, 0, op, "-> " ++ padded target⟩
    expression
  | .assign =>
    let a ← read (.of (Cursor.address program.words))
    note ⟨ip, 0, op, addressText a⟩
    expression
  | .assignElement =>
    let a ← read (.of (Cursor.address program.words))
    note ⟨ip, 0, op, addressText a⟩
    expression
    expression
  | .assignPath =>
    let a ← read (.of (Cursor.address program.words))
    let n ← read (Cursor.number program.words)
    note ⟨ip, 0, op, addressText a ++ s!" [{n}]"⟩
    times expression n
    expression
  | _ => throw (.invalidOpcode op.word ip)

def statements : Nat → Walking Unit
  | 0 => pure ()
  | n + 1 => do
    if !(← get).cursor.atEnd program.words then
      statement program
      statements n

end Listing

namespace Program

open Listing

def entries (p : Program) : Except DecodeError (Array Entry) :=
  match statements p p.words.size ⟨.start, #[]⟩ with
  | .ok _ w => .ok w.entries
  | .error e _ => .error e

def headings (p : Program) (ip : Nat) : List String :=
  p.functions.toList.filterMap fun
    | .user f =>
      if f.ip.toNat = ip then
        some s!"\n{f.name}: ({f.parameters} params, {f.locals} locals)\n"
      else none
    | _ => none

def entryText (p : Program) (e : Entry) : String :=
  let headings := if e.depth = 0 then String.join (p.headings e.ip) else ""
  let source := match if e.depth = 0 then p.line? e.ip else none with
    | some n =>
      let digits := toString n
      String.ofList (List.replicate (4 - digits.length) ' ') ++ digits ++ " "
    | none => "     "
  let indent := String.ofList (List.replicate (2 * e.depth) ' ')
  headings ++ padded e.ip ++ " " ++ source ++ indent ++ e.op.name ++ " " ++ e.detail ++ "\n"

def listing (p : Program) : Except DecodeError String := do
  return String.join ((← p.entries).toList.map p.entryText)

end Program

end Scriptlet
