import RightLinear.Command.Run

/-! # The command line program

Reads the grammar file that the command names and a seed from the system, carries the command out and
prints what comes of it: output to standard output, errors to standard error. -/

namespace RightLinear

/-- Why the system did not read a file. -/
def faultOf : IO.Error → Storage.Fault
  | .noFileOrDirectory _ _ _ => .missing
  | .inappropriateType _ code _ => if code = 21 then .isDirectory else .notDirectory
  | e => .other (toString e)

/-- The contents of a file on disk. -/
def readContents (path : String) : IO Storage.Contents := do
  try return .ok (← IO.FS.readBinFile path)
  catch e => return .error (faultOf e)

/-- A seed from the system's random bytes. -/
def systemSeed : IO UInt64 := do
  let bytes ← IO.getRandomBytes 8
  return bytes.foldl (fun n b => n * 256 + b.toUInt64) 0

/-- Carries out the command that the arguments ask for. -/
def runArguments (arguments : List String) : IO UInt8 := do
  match Command.ofArguments arguments with
  | .error stop =>
    IO.print stop.output
    if stop = .refused then IO.eprintln "error: invalid arguments; try --help"
    return stop.code
  | .ok command =>
    let contents ← match command.file? with
      | some path => readContents path
      | none => pure (.error .missing)
    let report := command.report contents (← systemSeed)
    IO.print (String.ofList report.output)
    if let some e := report.error then IO.eprintln ("Error: " ++ e.message)
    return report.code

end RightLinear

def main (arguments : List String) : IO UInt32 :=
  return (← RightLinear.runArguments arguments).toUInt32
