import DefLang.Text.Piece
import DefLang.Token

namespace DefLang
open Text

/-- The longest source, in bytes: offsets are 32-bit numbers. -/
def maxSourceSize : Nat := 4294967295

inductive ScanError where
  | unknownCharacter (found : Char) (span : Span)
  | sourceTooLarge (size : Nat)
  deriving DecidableEq, Repr

namespace ScanError

def message : ScanError → String
  | unknownCharacter found span =>
    "no token recognized at offset " ++ toString span.offset.toNat ++
      " (found `" ++ String.singleton found ++ "`)"
  | sourceTooLarge size =>
    "source is " ++ toString size ++ " bytes, the limit is " ++ toString maxSourceSize

def span : ScanError → Span
  | unknownCharacter _ span => span
  | sourceTooLarge _ => { offset := 0, length := 0 }

end ScanError

/-- A word is the keyword, all letters or all digits; other words are not tokens. -/
def Token.Kind.ofWord? (cs : List Char) : Option Token.Kind :=
  if cs = ['d', 'e', 'f'] then some defKeyword
  else if cs.all Char.isAlpha then some identifier
  else if cs.all Char.isDigit then some integer
  else none

def Token.Kind.ofMark? (c : Char) : Option Token.Kind :=
  if c = ':' then some colon
  else if c = '(' then some openParen
  else if c = ')' then some closeParen
  else if c = ',' then some comma
  else none

def Text.Piece.kind? : Piece → Option Token.Kind
  | blank _ => none
  | word first rest => Token.Kind.ofWord? (first :: rest)
  | mark c => Token.Kind.ofMark? c

/-- What a piece at byte `pos` adds to the tokens: nothing for a blank. A piece that is no token is
reported at its first character. -/
def Text.Piece.read (p : Piece) (pos : Nat) : Except ScanError (Option Token) :=
  match p, p.kind? with
  | .blank _, _ => .ok none
  | _, some kind =>
    .ok (some {
      kind
      value := String.ofList p.chars
      span := { offset := UInt32.ofNat pos, length := UInt32.ofNat p.size } })
  | _, none =>
    .error (.unknownCharacter p.first
      { offset := UInt32.ofNat pos, length := UInt32.ofNat p.first.utf8Size })

/-- What has been read up to byte `pos`, the newest token first. -/
structure Scanned where
  pos : Nat
  tokens : List Token
  deriving DecidableEq, Repr

def Scanned.add (s : Scanned) (p : Piece) : Except ScanError Scanned := do
  let found ← p.read s.pos
  return { pos := s.pos + p.size, tokens := found.toList ++ s.tokens }

/-- The tokens of pieces that start at byte `pos`. -/
def Token.scanFrom (pos : Nat) (ps : List Piece) : Except ScanError (List Token) := do
  let scanned ← ps.foldlM Scanned.add { pos, tokens := [] }
  return scanned.tokens.reverse

theorem Scanned.foldlM_add (ps : List Piece) (pos : Nat) (before : List Token) :
    ps.foldlM Scanned.add { pos, tokens := before } =
      (ps.foldlM Scanned.add { pos, tokens := [] }).map
        fun s => { s with tokens := s.tokens ++ before } := by
  induction ps generalizing pos before with
  | nil => rfl
  | cons p ps ih =>
    simp only [List.foldlM_cons, Scanned.add]
    cases p.read pos with
    | error e => rfl
    | ok found =>
      have h := ih (pos + p.size) (found.toList ++ before)
      have h0 := ih (pos + p.size) (found.toList ++ [])
      simp only [bind, Except.bind, pure, Except.pure] at h h0 ⊢
      rw [h, h0]
      cases ps.foldlM Scanned.add { pos := pos + p.size, tokens := [] } with
      | error e => rfl
      | ok s => simp [Except.map]

@[simp] theorem Token.scanFrom_nil (pos : Nat) : Token.scanFrom pos [] = .ok [] := rfl

theorem Token.scanFrom_cons (pos : Nat) (p : Piece) (ps : List Piece) :
    Token.scanFrom pos (p :: ps) = do
      let found ← p.read pos
      let tokens ← Token.scanFrom (pos + p.size) ps
      return found.toList ++ tokens := by
  simp only [Token.scanFrom, List.foldlM_cons, Scanned.add]
  cases p.read pos with
  | error e => rfl
  | ok found =>
    have h := Scanned.foldlM_add ps (pos + p.size) (found.toList ++ [])
    simp only [bind, Except.bind, pure, Except.pure] at h ⊢
    rw [h]
    cases ps.foldlM Scanned.add { pos := pos + p.size, tokens := [] } with
    | error e => rfl
    | ok s => cases found <;> simp [Except.map]

/-- A cursor in a source of `size` bytes: `rest` is still to be read, and starts at byte `pos`. -/
structure Scanner where
  size : Nat
  pos : Nat
  rest : List Piece
  deriving DecidableEq, Repr

namespace Scanner

def ofText (cs : List Char) : Scanner :=
  { size := byteSize cs, pos := 0, rest := pieces cs }

/-- The first token of pieces that start at byte `pos`, and where reading stopped. Blanks before it
are skipped, also when there is no token after them. -/
def nextFrom : Nat → List Piece → Except ScanError (Option Token) × Nat × List Piece
  | pos, [] => (.ok none, pos, [])
  | pos, p :: rest =>
    match p.read pos with
    | .ok none => nextFrom (pos + p.size) rest
    | .ok (some token) => (.ok (some token), pos + p.size, rest)
    | .error e => (.error e, pos, p :: rest)
termination_by structural _ ps => ps

/-- Reads one token, or nothing at the end. -/
def next (s : Scanner) : Except ScanError (Option Token) × Scanner :=
  if maxSourceSize < s.size then (.error (.sourceTooLarge s.size), s)
  else
    let (result, pos, rest) := nextFrom s.pos s.rest
    (result, { s with pos, rest })

/-- All tokens that are left. -/
def remaining (s : Scanner) : Except ScanError (List Token) :=
  if maxSourceSize < s.size then .error (.sourceTooLarge s.size)
  else Token.scanFrom s.pos s.rest

/-- Reading one token and then all others is reading all of them. -/
theorem remaining_eq_next (s : Scanner) :
    s.remaining =
      match s.next with
      | (.ok none, _) => .ok []
      | (.ok (some token), after) => (token :: ·) <$> after.remaining
      | (.error e, _) => .error e := by
  unfold next
  by_cases h : maxSourceSize < s.size
  · simp [remaining, h]
  · simp only [remaining, h, if_false]
    generalize s.rest = ps
    generalize s.pos = pos
    induction ps generalizing pos with
    | nil => rfl
    | cons p ps ih =>
      rw [Token.scanFrom_cons, nextFrom]
      cases p.read pos with
      | error e => rfl
      | ok found =>
        cases found with
        | none =>
          have hi := ih (pos + p.size)
          simp only [bind, Except.bind, pure, Except.pure, Option.toList, List.nil_append]
          rw [← hi]
          cases Token.scanFrom (pos + p.size) ps <;> rfl
        | some token =>
          simp only [bind, Except.bind, pure, Except.pure, Option.toList, List.cons_append,
            List.nil_append, h, if_false]
          cases Token.scanFrom (pos + p.size) ps <;> rfl

end Scanner

/-- The tokens of a text. -/
def Token.scan (cs : List Char) : Except ScanError (List Token) :=
  (Scanner.ofText cs).remaining

end DefLang
