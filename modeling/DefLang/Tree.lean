namespace DefLang

/-- The deepest nesting of calls: a leaf or a call without arguments is one level, any other call
is one more than its deepest argument. -/
def nestingLimit : Nat := 128

/-- Names and digits are kept as they are written. Only a definition's body holds an expression;
a definition inside an expression has no script. -/
inductive Node where
  | definition (name : String) (params : List String) (body : Node)
  | integer (digits : String)
  | call (name : String) (args : List Node)
  | reference (name : String)
  deriving Repr

/-- The name of a node's kind in messages. -/
def Node.kindName : Node → String
  | definition .. => "def"
  | integer _ => "integer"
  | call .. => "call"
  | reference _ => "var_ref"

structure Definition where
  name : String
  params : List String
  body : Node
  deriving Repr

def Definition.toNode (d : Definition) : Node :=
  .definition d.name d.params d.body

end DefLang
