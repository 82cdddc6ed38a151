import DefLang.Diagnostic
import DefLang.Directory

namespace DefLang

/-- What a run leaves behind: its two outputs and its exit code. -/
structure Outcome where
  output : String
  errors : String
  code : UInt32
  deriving DecidableEq, Repr

/-- What the arguments ask for. -/
inductive Request where
  | usage
  | standardInput
  | file (path : String)
  deriving DecidableEq, Repr

def Request.ofArgs : List String → Request
  | [] => file "test.src"
  | [path] => if path = "-" then standardInput else file path
  | _ :: _ :: _ => usage

namespace Outcome

def failed (errors : String) : Outcome :=
  { output := "", errors, code := 1 }

def unreadable (name reason : String) : Outcome :=
  failed ("error: could not read `" ++ name ++ "`: " ++ reason ++ "\n")

/-- Compiles what was read from `name`. There is no outcome if a failure cannot be drawn. -/
def ofContents? (name : String) : Except ReadError ByteArray → Option Outcome
  | .error e => some (unreadable name e.message)
  | .ok bytes =>
    match String.fromUTF8? bytes with
    | none => some (unreadable name ReadError.notText.message)
    | some source =>
      match compile source with
      | .ok script => some { output := script ++ "\n", errors := "", code := 0 }
      | .error failure => do
        let diagnostic ← Diagnostic.ofFailure? failure source
        let drawing ← diagnostic.draw? source
        return failed drawing

end Outcome

namespace Command

def usage : String := "Usage: compiler [PATH | -]\n"

/-- Runs the command in any setting that can read files and standard input. At most one of them is
read, and once. There is no outcome if one of the arguments is not valid UTF-8. -/
def runWith {m : Type → Type} [Monad m] (args : List ByteArray)
    (read : String → m (Except ReadError ByteArray)) (input : m (Except ReadError ByteArray)) :
    m (Option Outcome) :=
  match args.mapM String.fromUTF8? with
  | none => return none
  | some texts =>
    match Request.ofArgs texts with
    | .usage => return some (Outcome.failed usage)
    | .standardInput => return Outcome.ofContents? "-" (← input)
    | .file path => return Outcome.ofContents? path (← read path)

/-- Runs the command on given files and a given standard input. -/
def runBytes? (args : List ByteArray) (read : String → Except ReadError ByteArray)
    (input : ByteArray) : Option Outcome :=
  Id.run (runWith args (fun path => pure (read path)) (pure (.ok input)))

def run? (args : List String) (read : String → Except ReadError ByteArray) (input : ByteArray) :
    Option Outcome :=
  runBytes? (args.map String.toUTF8) read input

end Command

end DefLang
