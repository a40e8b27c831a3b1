/-!
Arguments of the command line. Switches and settings that concern every command may stand
before the command or behind it; given in both places, the later one counts. In one place
each may stand once.
-/
namespace Scriptlet.CommandLine

inductive Command where
  | compile (source : String) (output : Option String)
  | run (file : String) (showResult : Bool)
  | dump (file : String)
  deriving DecidableEq, Repr

structure Flags where
  json : Bool
  noColor : Bool
  noLineNumbers : Bool
  noBuiltins : Bool
  config : Option String
  maxErrors : Option Nat
  deriving DecidableEq, Repr

inductive Request where
  | version
  | perform (flags : Flags) (command : Command)
  deriving DecidableEq, Repr

inductive Item where
  | switch (name : String)
  | setting (name value : String)
  | word (text : String)
  deriving DecidableEq, Repr

structure Names where
  switches : List String
  settings : List String
  letters : List (Char × String)

namespace Names

def shared : Names where
  switches := ["json", "no-color", "no-line-numbers", "no-internals"]
  settings := ["config", "max-errors"]
  letters := []

def front : Names :=
  { shared with switches := "version" :: shared.switches, letters := [('V', "version")] }

def compile : Names :=
  { shared with settings := "output" :: shared.settings, letters := [('o', "output")] }

def run : Names := { shared with switches := "result" :: shared.switches }

def isValue (s : String) : Bool := s == "-" || s.toList.head? != some '-'

def splitValue (cs : List Char) : String × Option String :=
  match cs.dropWhile (· != '=') with
  | [] => (String.ofList cs, none)
  | _ :: value => (String.ofList (cs.takeWhile (· != '=')), some (String.ofList value))

def setting? (name : String) (value : Option String) (rest : List String) :
    Option (Item × List String) :=
  match value, rest with
  | some v, _ => some (.setting name v, rest)
  | none, v :: rest => if isValue v then some (.setting name v, rest) else none
  | none, [] => none

def long? (names : Names) (text : List Char) (rest : List String) : Option (Item × List String) :=
  let (name, value) := splitValue text
  if names.settings.contains name then setting? name value rest
  else if names.switches.contains name && value.isNone then some (.switch name, rest)
  else none

/-- A letter and the value that follows it, perhaps behind an equals sign. The one letter that is
a switch asks for the version, and then nothing behind it counts. -/
def short? (names : Names) (letter : Char) (text : List Char) (rest : List String) :
    Option (Item × List String) := do
  let name ← names.letters.lookup letter
  if names.switches.contains name then some (.switch name, rest)
  else
    match text with
    | [] => setting? name none rest
    | '=' :: value => setting? name (some (String.ofList value)) rest
    | value => setting? name (some (String.ofList value)) rest

def item? (names : Names) (argument : String) (rest : List String) : Option (Item × List String) :=
  match argument.toList with
  | '-' :: '-' :: text => names.long? text rest
  | ['-'] => some (.word argument, rest)
  | '-' :: letter :: text => names.short? letter text rest
  | _ => some (.word argument, rest)

/-- The parts of the arguments, at most one for each. Behind `--` all are words. -/
def itemsWithin (names : Names) : Nat → List String → Option (List Item)
  | 0, _ => some []
  | _, [] => some []
  | n + 1, argument :: rest =>
    if argument = "--" then some (rest.map .word)
    else do
      let (item, rest) ← names.item? argument rest
      return item :: (← names.itemsWithin n rest)

def items (names : Names) (arguments : List String) : Option (List Item) :=
  names.itemsWithin arguments.length arguments

/-- The parts before the first word, and the arguments from that word on. The question for
the version needs no word. -/
def itemsToWord (names : Names) : Nat → List String → Option (List Item × List String)
  | 0, _ => none
  | _, [] => none
  | n + 1, argument :: rest => do
    match ← names.item? argument rest with
    | (.word text, rest) => return ([], text :: rest)
    | (.switch "version", _) => return ([.switch "version"], [])
    | (item, rest) =>
      let (items, rest) ← names.itemsToWord n rest
      return (item :: items, rest)

end Names

namespace Item

def words (items : List Item) : List String :=
  items.filterMap fun
    | .word text => some text
    | _ => none

def names (items : List Item) : List String :=
  items.filterMap fun
    | .switch name => some name
    | .setting name _ => some name
    | .word _ => none

def value? (items : List Item) (name : String) : Option String :=
  items.findSome? fun
    | .setting key value => if key == name then some value else none
    | _ => none

def natural? (s : String) : Option Nat :=
  let cs := match s.toList with
    | '+' :: cs => cs
    | cs => cs
  if cs.isEmpty || !cs.all Char.isDigit then none
  else
    let n := cs.foldl (fun n c => 10 * n + (c.toNat - '0'.toNat)) 0
    if n < UInt64.size then some n else none

def flags? (items : List Item) : Option Flags := do
  let names := Item.names items
  if names.eraseDups.length ≠ names.length then none
  let maxErrors ← match value? items "max-errors" with
    | some s => some <$> natural? s
    | none => some none
  let config := value? items "config"
  if config == some "" then none
  return {
    json := names.contains "json"
    noColor := names.contains "no-color"
    noLineNumbers := names.contains "no-line-numbers"
    noBuiltins := names.contains "no-internals"
    config, maxErrors }

end Item

/-- The flags of two places; the second one's values count. -/
def Flags.or (a b : Flags) : Flags where
  json := a.json || b.json
  noColor := a.noColor || b.noColor
  noLineNumbers := a.noLineNumbers || b.noLineNumbers
  noBuiltins := a.noBuiltins || b.noBuiltins
  config := b.config.or a.config
  maxErrors := b.maxErrors.or a.maxErrors

def file? (items : List Item) : Option String :=
  match Item.words items with
  | [text] => if text.isEmpty then none else some text
  | _ => none

def command? (name : String) (arguments : List String) : Option (List Item × Command) :=
  if name = "compile" then do
    let items ← Names.compile.items arguments
    let output := Item.value? items "output"
    if output == some "" then none
    return (items, .compile (← file? items) output)
  else if name = "run" then do
    let items ← Names.run.items arguments
    return (items, .run (← file? items) ((Item.names items).contains "result"))
  else if name = "dump" then do
    let items ← Names.shared.items arguments
    return (items, .dump (← file? items))
  else none

def parse (arguments : List String) : Option Request := do
  let (before, rest) ← Names.front.itemsToWord arguments.length arguments
  let flags ← Item.flags? before
  match rest with
  | [] => return .version
  | name :: rest =>
    let (behind, command) ← command? name rest
    return .perform (flags.or (← Item.flags? behind)) command

end Scriptlet.CommandLine
