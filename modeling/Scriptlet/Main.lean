import Scriptlet.CommandLine.Run

/-!
The command line on the real files and streams.
-/
namespace Scriptlet.CommandLine

def ofErrorNumber (code : UInt32) (details : String) : FileError :=
  let number := min code.toNat (0x100000000 - code.toNat)
  if number = 20 then .notDirectory
  else if number = 21 then .isDirectory
  else if number = 36 then .nameTooLong
  else .other s!"{details} (os error {number})"

def fileError : IO.Error → FileError
  | .noFileOrDirectory .. => .missing
  | .inappropriateType _ code details => ofErrorNumber code details
  | .invalidArgument _ code details => ofErrorNumber code details
  | .permissionDenied _ code details => ofErrorNumber code details
  | e => .other (toString e)

def realDisk : Disk IO where
  read path := do
    try return .ok (← IO.FS.readBinFile path).data.toList
    catch e => return .error (fileError e)
  write path bytes := do
    try
      IO.FS.writeBinFile path ⟨bytes.toArray⟩
      return .ok ()
    catch e => return .error (fileError e)

end Scriptlet.CommandLine

open Scriptlet.CommandLine in
def main (arguments : List String) : IO UInt32 := do
  let out ← IO.getStdout
  let err ← IO.getStderr
  let outcome ← run realDisk (← err.isTty) arguments
  out.putStr outcome.out
  out.flush
  err.putStr outcome.err
  return UInt32.ofNat outcome.status
