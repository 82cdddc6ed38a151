import DefLang.Span

namespace DefLang

inductive Token.Kind where
  | defKeyword
  | identifier
  | integer
  | colon
  | openParen
  | closeParen
  | comma
  | endOfInput
  deriving DecidableEq, Repr

structure Token where
  kind : Token.Kind
  value : String
  span : Span
  deriving DecidableEq, Repr

/-- The name of a kind in messages. -/
def Token.Kind.name : Token.Kind → String
  | defKeyword => "def"
  | identifier => "identifier"
  | integer => "integer"
  | colon => "colon"
  | openParen => "open_paren"
  | closeParen => "close_paren"
  | comma => "comma"
  | endOfInput => "end of input"

end DefLang
