import Scriptlet.CommandLine.Arguments
import Scriptlet.CommandLine.Folder
import Scriptlet.Compile.Basic
import Scriptlet.Diagnostic.Report
import Scriptlet.Machine.Step
import Scriptlet.Options.Json
import Scriptlet.Program.Decode
import Scriptlet.Program.Encode
import Scriptlet.Program.Listing
import Scriptlet.Text.Utf8

/-!
The commands: compiling a file, running one, and listing the code of one. Programs print
through two functions of the host.
-/
namespace Scriptlet.CommandLine

structure Outcome where
  status : Nat
  out : String
  err : String
  deriving DecidableEq, Repr

namespace Outcome

def success (out : String) : Outcome := ⟨0, out, ""⟩

def failure (err : String) : Outcome := ⟨1, "", err ++ "\n"⟩

def rejected : Outcome := ⟨2, "", ""⟩

end Outcome

def console : Host String where
  onStart := id
  onEnd := id
  call name arguments printed :=
    let text := String.join (arguments.map Value.display)
    if name = "Print" then (.ok .zero, printed ++ text)
    else if name = "PrintLine" then (.ok .zero, printed ++ text ++ "\n")
    else (.error s!"no handler for {name}", printed)

def offered : Registry := (Registry.empty.addHost "Print" .any).addHost "PrintLine" .any

def stepLimit : Nat := 0x4000000000000000

variable {m : Type → Type} [Monad m] (disk : Disk m)

abbrev Job (m : Type → Type) := ExceptT Outcome m

def Job.of {α : Type} (x : Except Outcome α) : Job m α := ExceptT.mk (pure x)

def readOptions (path : String) : Job m Options := do
  match ← disk.read path with
  | .error e => throw (.failure (s!"cannot read {path}: " ++ e.message))
  | .ok bytes =>
    match Utf8.decode bytes with
    | .error _ => throw (.failure s!"cannot read {path}: stream did not contain valid UTF-8")
    | .ok text =>
      match Options.ofJsonText text with
      | .ok options => return options
      | .error f => throw (.failure (s!"invalid configuration in {path}: " ++ f.message text))

def chooseOptions (flags : Flags) : Job m Options := do
  let options ← match flags.config with
    | some path => readOptions disk path
    | none => pure .default
  return { options with
    maxErrors := flags.maxErrors.getD options.maxErrors
    lineNumbers := options.lineNumbers && !flags.noLineNumbers
    builtins := options.builtins && !flags.noBuiltins }

def readFile (path : String) : Job m (List UInt8) := do
  match ← disk.read path with
  | .ok bytes => return bytes
  | .error e => throw (.failure (s!"Error reading {path}: " ++ e.message))

def report (flags : Flags) (color : Bool) (path source : String) (ds : List Diagnostic) : Outcome :=
  if flags.json then ⟨1, Diagnostic.jsonAll ds ++ "\n", ""⟩
  else
    let color := color && !flags.noColor
    let blocks := ds.map (·.terminal color (some path) (some source))
    .failure (String.join blocks ++ s!"{ds.length} error(s) in {path}")

def compileBytes (flags : Flags) (color : Bool) (options : Options) (path : String)
    (bytes : List UInt8) : Except Outcome Program :=
  match Utf8.decode bytes with
  | .error f => .error (.failure (s!"{path} is not UTF-8 text: " ++ f.message))
  | .ok source =>
    match Compile.compile offered options source with
    | .ok program => .ok program
    | .error ds => .error (report flags color path source ds)

/-- Loads a saved program; anything else is taken for source text. -/
def loadOrCompile (flags : Flags) (color : Bool) (options : Options) (path : String)
    (bytes : List UInt8) : Except Outcome Program :=
  if Format.isSaved bytes then
    match Program.decode (options.registry offered) bytes with
    | .ok program => .ok program
    | .error e => .error (.failure (s!"Error loading {path}: " ++ e.message))
  else compileBytes flags color options path bytes

def runProgram (program : Program) (showResult : Bool) : Outcome :=
  match Machine.runFor console program stepLimit (Machine.init program "") with
  | .ok value m =>
    let result := if showResult then (value.getD m.result).display ++ "\n" else ""
    .success (m.world ++ result)
  | .error e m => ⟨1, m.world, "Runtime error: " ++ e.message ++ "\n"⟩

def perform (color : Bool) (flags : Flags) (command : Command) : Job m Outcome := do
  let options ← chooseOptions disk flags
  match command with
  | .compile source output =>
    let program ← .of (compileBytes flags color options source (← readFile disk source))
    let output := output.getD (replaceExtension source "silkc")
    match program.encode with
    | .error e => throw (.failure (s!"Error writing {output}: " ++ e.message))
    | .ok bytes =>
      match ← disk.write output bytes with
      | .ok _ => return .success ""
      | .error e => throw (.failure (s!"Error writing {output}: " ++ e.message))
  | .run file showResult =>
    let program ← .of (loadOrCompile flags color options file (← readFile disk file))
    return runProgram program showResult
  | .dump file =>
    let program ← .of (loadOrCompile flags color options file (← readFile disk file))
    match program.listing with
    | .ok text => return .success text
    | .error e => throw (.failure (s!"Error decoding {file}: " ++ e.message))

def run (color : Bool) (arguments : List String) : m Outcome := do
  match parse arguments with
  | none => return .rejected
  | some .version => return .success "silk 0.1.0\n"
  | some (.perform flags command) =>
    match ← perform disk color flags command with
    | .ok outcome | .error outcome => return outcome

end Scriptlet.CommandLine
