import DefLang.Token
import DefLang.Tree

namespace DefLang

/-- A numeral without leading zeros; nothing but zeros leaves one zero. -/
def Text.dropZeros (digits : List Char) : List Char :=
  match digits.dropWhile (· == '0') with
  | [] => ['0']
  | kept => kept

theorem Text.dropZeros_ne_nil (digits : List Char) : dropZeros digits ≠ [] := by
  unfold dropZeros
  split
  · simp
  · assumption

inductive GrammarError where
  | expected (kind found : Token.Kind) (span : Span)
  | expectedOneOf (kinds : List Token.Kind) (found : Token.Kind) (span : Span)
  | expectedExpression (found : Token.Kind) (span : Span)
  | tooDeep (span : Span)
  | leftover (found : Token.Kind) (span : Span)
  deriving DecidableEq, Repr

namespace GrammarError

def message : GrammarError → String
  | expected kind found _ => "expected " ++ kind.name ++ ", found " ++ found.name
  | expectedOneOf kinds found _ =>
    "expected " ++ " or ".intercalate (kinds.map Token.Kind.name) ++ ", found " ++ found.name
  | expectedExpression found _ => "expected an expression, found " ++ found.name
  | tooDeep _ => "expressions nested deeper than " ++ toString nestingLimit ++ " levels"
  | leftover found _ => "unexpected trailing input, found " ++ found.name

def span : GrammarError → Span
  | expected _ _ span => span
  | expectedOneOf _ _ span => span
  | expectedExpression _ span => span
  | tooDeep span => span
  | leftover _ span => span

end GrammarError

namespace Reading

/-- A call whose closing parenthesis is still to come, with its arguments newest first. -/
structure OpenCall where
  name : String
  args : List Node
  deriving Repr

/-- Where the reader stands in the innermost expression. -/
inductive Place where
  | due
  | named (name : String)
  | opened (name : String)
  | done (node : Node)
  deriving Repr

/-- A partly read expression, with the calls around `place` innermost first. A name may yet turn
out to be a call, and a call that has just been opened is not among `calls`. -/
structure Body where
  calls : List OpenCall
  place : Place
  deriving Repr

namespace Body

def empty : Body :=
  { calls := [], place := .due }

/-- The first token of an expression inside `calls`. -/
def enter? (limit : Option Nat) (calls : List OpenCall) (t : Token) : Option Body :=
  if limit = some calls.length then none
  else
    match t.kind with
    | .integer =>
      some { calls, place := .done (.integer (String.ofList (Text.dropZeros t.value.toList))) }
    | .identifier => some { calls, place := .named t.value }
    | _ => none

/-- The token after the complete expression `node` inside `calls`. -/
def leave? : List OpenCall → Node → Token → Option Body
  | [], _, _ => none
  | call :: calls, node, t =>
    match t.kind with
    | .comma => some { calls := { call with args := node :: call.args } :: calls, place := .due }
    | .closeParen => some { calls, place := .done (.call call.name (node :: call.args).reverse) }
    | _ => none

/-- Reads one token. The token's place in the source plays no part. -/
def step? (limit : Option Nat) (b : Body) (t : Token) : Option Body :=
  match b.place with
  | .due => enter? limit b.calls t
  | .named name =>
    if t.kind = .openParen then some { b with place := .opened name }
    else leave? b.calls (.reference name) t
  | .opened name =>
    if t.kind = .closeParen then some { b with place := .done (.call name []) }
    else enter? limit ({ name, args := [] } :: b.calls) t
  | .done node => leave? b.calls node t

/-- Why no expression may start inside `depth` calls with a token of kind `found`. -/
def noEntry (limit : Option Nat) (depth : Nat) (found : Token.Kind) (span : Span) : GrammarError :=
  if limit = some depth then .tooDeep span else .expectedExpression found span

/-- Why no token may follow an expression inside `calls`. -/
def noExit (calls : List OpenCall) (found : Token.Kind) (span : Span) : GrammarError :=
  match calls with
  | [] => .leftover found span
  | _ :: _ => .expected .closeParen found span

/-- The error for a token that cannot be read here. -/
def refusal (limit : Option Nat) (b : Body) (found : Token.Kind) (span : Span) : GrammarError :=
  match b.place with
  | .due => noEntry limit b.calls.length found span
  | .named _ => noExit b.calls found span
  | .opened _ => noEntry limit (b.calls.length + 1) found span
  | .done _ => noExit b.calls found span

/-- The whole expression, if the input may end here. -/
def result? (b : Body) : Option Node :=
  match b.calls, b.place with
  | [], .named name => some (.reference name)
  | [], .done node => some node
  | _, _ => none

end Body

/-- A partly read definition. Parameters are kept newest first until the list is closed. -/
inductive State where
  | start
  | keyword
  | named (name : String)
  | paramsOpen (name : String)
  | paramRead (name : String) (params : List String)
  | paramDue (name : String) (params : List String)
  | paramsClosed (name : String) (params : List String)
  | body (name : String) (params : List String) (b : Body)
  deriving Repr

namespace State

/-- Reads one token, from its kind and value alone. -/
def step? (limit : Option Nat) (s : State) (t : Token) : Option State :=
  match s, t.kind with
  | start, .defKeyword => some keyword
  | keyword, .identifier => some (named t.value)
  | named name, .openParen => some (paramsOpen name)
  | paramsOpen name, .identifier => some (paramRead name [t.value])
  | paramsOpen name, .closeParen => some (paramsClosed name [])
  | paramRead name params, .comma => some (paramDue name params)
  | paramRead name params, .closeParen => some (paramsClosed name params.reverse)
  | paramDue name params, .identifier => some (paramRead name (t.value :: params))
  | paramsClosed name params, .colon => some (body name params Body.empty)
  | body name params b, _ => (b.step? limit t).map (body name params)
  | _, _ => none

/-- The error for a token that cannot be read here. -/
def refusal (limit : Option Nat) (s : State) (found : Token.Kind) (span : Span) : GrammarError :=
  match s with
  | start => .expected .defKeyword found span
  | keyword => .expected .identifier found span
  | named _ => .expected .openParen found span
  | paramsOpen _ => .expectedOneOf [.identifier, .closeParen] found span
  | paramRead .. => .expected .closeParen found span
  | paramDue .. => .expected .identifier found span
  | paramsClosed .. => .expected .colon found span
  | body _ _ b => b.refusal limit found span

/-- The whole definition, if the input may end here. -/
def result? : State → Option Definition
  | body name params b => b.result?.map fun body => { name, params, body }
  | _ => none

def feed (limit : Option Nat) (s : State) (t : Token) : Except GrammarError State :=
  match s.step? limit t with
  | some next => .ok next
  | none => .error (s.refusal limit t.kind t.span)

def finish (limit : Option Nat) (s : State) (span : Span) : Except GrammarError Definition :=
  match s.result? with
  | some d => .ok d
  | none => .error (s.refusal limit .endOfInput span)

end State

/-- Where the input ends: right after its last token. -/
def endSpan (tokens : List Token) : Span :=
  match tokens.getLast? with
  | none => { offset := 0, length := 0 }
  | some t => t.span.stop

end Reading

/-- Reads one definition and nothing after it. With `limit := some n` an expression may stand inside
fewer than `n` calls; `none` sets no limit. -/
def Definition.readWithin (limit : Option Nat) (tokens : List Token) :
    Except GrammarError Definition := do
  let s ← tokens.foldlM (Reading.State.feed limit) .start
  s.finish limit (Reading.endSpan tokens)

def Definition.read (tokens : List Token) : Except GrammarError Definition :=
  Definition.readWithin (some nestingLimit) tokens

end DefLang
