import DefLang.Compile

namespace DefLang
open Text

/-- A message about `width` characters of a source. Line 0 stands for no place in particular. -/
structure Diagnostic where
  line : UInt32
  column : UInt32
  width : UInt32
  message : String
  deriving DecidableEq, Repr

namespace Diagnostic

/-- There is no diagnostic for a span that the source does not have. At least one character is
marked, also at the end of the source. -/
def ofFailure? (failure : Failure) (source : String) : Option Diagnostic :=
  match failure.span? with
  | none => some { line := 0, column := 0, width := 0, message := failure.message }
  | some span => do
    let position ← span.position? source.toList
    let text ← span.text? source.toList
    return {
      line := position.line
      column := position.column
      width := UInt32.ofNat (max text.length 1)
      message := failure.message }

def repeated (c : Char) (n : Nat) : String :=
  String.ofList (List.replicate n c)

/-- The message, and under it the source line with the marked characters underlined. A line has no
column 0 to draw. -/
def draw? (d : Diagnostic) (source : String) : Option String :=
  let heading := "error: " ++ d.message ++ "\n"
  if d.line = 0 then some heading
  else if d.column = 0 then none
  else
    let number := toString d.line.toNat
    let gutter := repeated ' ' number.length
    let shown := String.ofList (shownLine source.toList (d.line.toNat - 1))
    some (heading ++
      gutter ++ "--> " ++ number ++ ":" ++ toString d.column.toNat ++ "\n" ++
      gutter ++ " |\n" ++
      number ++ " | " ++ shown ++ "\n" ++
      gutter ++ " | " ++ repeated ' ' (d.column.toNat - 1) ++ repeated '^' d.width.toNat ++ "\n")

end Diagnostic

end DefLang
