import DefLang.Script
import DefLang.Token.Scanner
import DefLang.Tree.Reading

namespace DefLang

/-- Why a source has no script. -/
inductive Failure where
  | scan (e : ScanError)
  | grammar (e : GrammarError)
  | script (e : ScriptError)
  deriving DecidableEq, Repr

namespace Failure

def message : Failure → String
  | scan e => "lex error: " ++ e.message
  | grammar e => "syntax error: " ++ e.message
  | script e => "codegen error: " ++ e.message

/-- The part of the source at fault. A tree may not come from any source, so a fault found in it has
no place there. -/
def span? : Failure → Option Span
  | scan e => some e.span
  | grammar e => some e.span
  | script _ => none

end Failure

def compile (source : String) : Except Failure String := do
  let tokens ← (Token.scan source.toList).mapError .scan
  let definition ← (Definition.read tokens).mapError .grammar
  definition.script.mapError .script

end DefLang
