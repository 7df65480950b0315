/-
The command line.

Arguments name a schema file and the files to write.  What is done is decided by
`Asdl.CommandLine.Plan.of`; here files are read and written.
-/
import Asdl.CommandLine.Plan

namespace Asdl

namespace CommandLine

/-- The number of a system error; some calls give it with the other sign. -/
def errorNumber (code : UInt32) : UInt32 := if code < 0x80000000 then code else 0 - code

/-- The fault behind an error of the system. -/
def faultOf : IO.Error → FileFault
  | .noFileOrDirectory .. => .missing
  | .inappropriateType _ code details =>
    if errorNumber code = 20 then .notDirectory
    else if errorNumber code = 21 then .isDirectory
    else .other details
  | .invalidArgument _ code details =>
    if errorNumber code = 36 then .nameTooLong else .other details
  | .permissionDenied .. => .other "Permission denied (os error 13)"
  | e => .other (toString e)

/-- The bytes of a file. -/
def readBytes (path : String) : IO (Except FileFault ByteArray) := do
  try
    return .ok (← IO.FS.readBinFile path)
  catch e => return .error (faultOf e)

/-- Says lines on the error channel. -/
def sayLines (lines : List String) : IO Unit := lines.forM IO.eprintln

/-- Writes files in order, up to the first one that cannot be written. -/
def writeAll (shown : Filter) (files : List (String × String)) : IO UInt32 := do
  for (path, text) in files do
    try
      IO.FS.writeBinFile path text.toUTF8
      if shown.shows (.wrote path) then IO.eprintln (Event.wrote path).line
    catch e =>
      sayLines (Failure.writing path (faultOf e)).lines
      return 1
  return 0

/-- A run with the files of the system. -/
def runSystem (a : Arguments) (shown : Filter) : IO UInt32 := do
  let config ← match a.config with
    | some path => readBytes path
    | none => pure (.error .missing)
  let schema ← readBytes a.schema
  let planned := Plan.of a ⟨config, schema⟩
  sayLines ((planned.events.filter shown.shows).map Event.line)
  match planned.result with
  | .error failure =>
    sayLines failure.lines
    return 1
  | .ok plan =>
    IO.print plan.printed
    writeAll shown plan.files

end CommandLine

end Asdl

open Asdl CommandLine in
/-- Generates a header as the arguments say. -/
def main (args : List String) : IO UInt32 := do
  let shown := Filter.ofSetting (← IO.getEnv "RUST_LOG")
  match Arguments.parse? args with
  | some a => runSystem a shown
  | none =>
    IO.eprintln "usage: asdlgen [OPTIONS] <SCHEMA>"
    return usageCode.toUInt32
