import DefLang.Tree

namespace DefLang

inductive ScriptError where
  | unexpectedNode (kind expected : String)
  | tooDeep (limit : Nat)
  deriving DecidableEq, Repr

def ScriptError.message : ScriptError → String
  | unexpectedNode kind expected =>
    "unrecognized node kind `" ++ kind ++ "`, expected " ++ expected
  | tooDeep limit => "expressions nested deeper than " ++ toString limit ++ " levels"

mutual

/-- The text of an expression that may take up `levels` levels of nesting. Too many levels are
reported before a misplaced definition, and the leftmost fault wins. -/
def Node.expression : Nat → Node → Except ScriptError String
  | 0, _ => .error (.tooDeep nestingLimit)
  | _ + 1, .integer digits => .ok digits
  | _ + 1, .reference name => .ok name
  | levels + 1, .call name args => do
    let texts ← Node.expressions levels args
    return name ++ "(" ++ ",".intercalate texts ++ ")"
  | _ + 1, .definition name params body =>
    .error (.unexpectedNode (Node.definition name params body).kindName "an expression")
termination_by structural _ node => node

def Node.expressions : Nat → List Node → Except ScriptError (List String)
  | _, [] => .ok []
  | levels, node :: nodes => do
    let text ← Node.expression levels node
    let texts ← Node.expressions levels nodes
    return text :: texts
termination_by structural _ nodes => nodes

end

/-- The definition as a JavaScript function. -/
def Definition.script (d : Definition) : Except ScriptError String := do
  let body ← d.body.expression nestingLimit
  return "function " ++ d.name ++ "(" ++ ",".intercalate d.params ++ ") \x7breturn " ++ body ++
    "\x7d;"

/-- Only a definition is a script of its own. -/
def Node.script : Node → Except ScriptError String
  | .definition name params body => Definition.script { name, params, body }
  | node => .error (.unexpectedNode node.kindName "def")

end DefLang
