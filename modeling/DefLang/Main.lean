import DefLang.Command

namespace DefLang

/-- The system's own description and number of an error. Two errors do not come from the system. -/
def readErrorOf : IO.Error → ReadError
  | .alreadyExists _ code details | .interrupted _ code details | .noFileOrDirectory _ code details
  | .invalidArgument _ code details | .permissionDenied _ code details
  | .resourceExhausted _ code details | .inappropriateType _ code details
  | .noSuchThing _ code details | .otherError code details | .resourceBusy code details
  | .resourceVanished code details | .unsupportedOperation code details
  | .hardwareFault code details | .unsatisfiedConstraints code details
  | .illegalOperation code details | .protocolError code details | .timeExpired code details =>
    { description := details, code := some code.toNat }
  | .unexpectedEof => { description := "unexpected end of file", code := none }
  | .userError message => { description := message, code := none }

def attempt (action : IO ByteArray) : IO (Except ReadError ByteArray) := do
  try
    return .ok (← action)
  catch e =>
    return .error (readErrorOf e)

def readFile (path : String) : IO (Except ReadError ByteArray) :=
  attempt do (← IO.FS.Handle.mk path .read).readBinToEnd

def readStandardInput : IO (Except ReadError ByteArray) :=
  attempt do (← IO.getStdin).readBinToEnd

end DefLang

open DefLang in
/-- Exit code 101 stands for a run without an outcome. -/
def main (args : List String) : IO UInt32 := do
  match ← Command.runWith (args.map String.toUTF8) readFile readStandardInput with
  | some outcome =>
    IO.print outcome.output
    IO.eprint outcome.errors
    return outcome.code
  | none => return 101
