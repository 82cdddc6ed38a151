import DefLang.Proofs.Attempt
import DefLang.Proofs.Cursor
import DefLang.Proofs.Matching
import Mathlib.Data.List.DropRight

namespace DefLang.Lexing
open Text

/-- A source and a place in it, counted in bytes. -/
structure Lexer where
  source : List Char
  pos : Nat
  deriving DecidableEq, Repr

/-- A lexer gets stuck where a text would be cut inside a character or past its end. -/
abbrev Run (α : Type) := Attempt ScanError Lexer α

def cut (n : Nat) (cs : List Char) : Run (List Char × List Char) :=
  match cut? n cs with
  | none => Attempt.stuck
  | some parts => return parts

/-- What is still to be read. -/
def rest : Run (List Char) := do
  let l ← get
  return (← cut l.pos l.source).2

def checkSize : Run Unit := do
  let size := byteSize (← get).source
  if maxSourceSize < size then throw (.sourceTooLarge size) else return ()

/-- Moves to where only what comes after the blanks is left. -/
def skipBlanks : Run Unit := do
  let left := (← rest).dropWhile isBlank
  modify fun l => { l with pos := byteSize l.source - byteSize left }

/-- The token that starts here, or nothing at the end. -/
def token : Run (Option Token) := do
  match ← rest with
  | [] => return none
  | found :: after =>
    let pos := (← get).pos
    match firstMatch? (bytes (found :: after)) with
    | none =>
      throw (.unknownCharacter found
        { offset := UInt32.ofNat pos, length := UInt32.ofNat found.utf8Size })
    | some (kind, size) =>
      let value := (← cut size (found :: after)).1
      modify fun l => { l with pos := pos + size }
      return some {
        kind
        value := String.ofList value
        span := { offset := UInt32.ofNat pos, length := UInt32.ofNat size } }

def next : Run (Option Token) := do
  checkSize
  skipBlanks
  token

/-- All tokens after `tokens`, with one call of `next` for each. -/
def all : Nat → List Token → Run (List Token)
  | 0, _ => Attempt.stuck
  | fuel + 1, tokens => do
    match ← next with
    | none => return tokens
    | some token => all fuel (tokens ++ [token])

/-- The lexer in the source `before ++ rest`, in front of `rest`. -/
def between (before rest : List Char) : Lexer :=
  { source := before ++ rest, pos := byteSize before }

section
variable {before w v cs tail : List Char}

theorem between_append (before v tail : List Char) :
    between (before ++ v) tail =
      { source := before ++ (v ++ tail), pos := byteSize before + byteSize v } := by
  rw [between, List.append_assoc, byteSize_append]

theorem ends_cut {n : Nat} (hn : byteSize v = n) (l : Lexer) :
    (cut n (v ++ tail)).Ends l (.ok (v, tail)) l := by
  have hcut : cut? n (v ++ tail) = some (v, tail) := (cut?_eq_some_iff ..).mpr ⟨rfl, hn⟩
  rw [cut, hcut]
  rfl

theorem ends_rest (before cs : List Char) :
    rest.Ends (between before cs) (.ok cs) (between before cs) :=
  .bind_ok (a := between before cs) rfl (.bind_ok (ends_cut rfl _) rfl)

theorem ends_skipBlanks (hw : ∀ c ∈ w, isBlank c = true) (hcs : cs.dropWhile isBlank = cs) :
    skipBlanks.Ends (between before (w ++ cs)) (.ok ()) (between (before ++ w) cs) := by
  have hpos : byteSize before + byteSize w = byteSize (before ++ (w ++ cs)) - byteSize cs := by
    simp only [byteSize_append]
    omega
  refine .bind_ok (ends_rest ..) ?_
  rw [List.dropWhile_append_of_pos hw, hcs, between_append, hpos]
  rfl

theorem ends_checkSize {l : Lexer} (h : byteSize l.source ≤ maxSourceSize) :
    checkSize.Ends l (.ok ()) l := by
  refine .bind_ok (a := l) rfl ?_
  rw [if_neg (Nat.not_lt.mpr h)]
  rfl

theorem ends_checkSize_error {l : Lexer} (h : maxSourceSize < byteSize l.source) :
    checkSize.Ends l (.error (.sourceTooLarge (byteSize l.source))) l := by
  refine .bind_ok (a := l) rfl ?_
  rw [if_pos h]
  rfl

end

/-- A lexer and a scanner at the same place of the same source. -/
inductive Agrees : Lexer → Scanner → Prop where
  | between (before rest : List Char) : Agrees (between before rest) (.between before rest)

theorem Agrees.pos_eq {l : Lexer} {s : Scanner} (h : Agrees l s) : l.pos = s.pos := by
  cases h
  rfl

/-- Started at `l`, `x` answers what the next call of `s` answers, and leaves `l` where that call
leaves `s`. -/
def Follows (x : Run (Option Token)) (l : Lexer) (s : Scanner) : Prop :=
  ∃ l', x.Ends l s.next.1 l' ∧ Agrees l' s.next.2

section
variable {before cs tail : List Char}

/-- A piece that is not blank is matched as a whole or not at all. -/
theorem follows_piece {p : Piece} (hp : ∀ c, p ≠ .blank c)
    (hpieces : pieces (p.chars ++ tail) = p :: pieces tail)
    (hmatch : firstMatch? (bytes (p.chars ++ tail)) = p.kind?.map (·, byteSize p.chars))
    (hsize : byteSize (before ++ (p.chars ++ tail)) ≤ maxSourceSize) :
    Follows token (between before (p.chars ++ tail)) (.between before (p.chars ++ tail)) := by
  obtain ⟨more, hchars⟩ := p.exists_chars_eq
  have hcons : p.chars ++ tail = p.first :: (more ++ tail) := by rw [hchars, List.cons_append]
  rw [Follows, Scanner.next_between_piece hp hpieces hsize]
  rw [hcons] at hmatch ⊢
  cases hk : p.kind? with
  | none =>
    rw [hk] at hmatch
    refine ⟨_, .bind_ok (ends_rest ..) (.bind_ok (a := between before _) rfl ?_), .between ..⟩
    simp only [hmatch, Option.map_none]
    rfl
  | some k =>
    rw [hk] at hmatch
    refine ⟨_, .bind_ok (ends_rest ..) (.bind_ok (a := between before _) rfl ?_), .between ..⟩
    simp only [hmatch, Option.map_some]
    rw [← hcons, between_append]
    exact .bind_ok (ends_cut rfl _) (.bind_ok (a := ()) rfl rfl)

theorem follows_token (hcs : cs.dropWhile isBlank = cs)
    (hsize : byteSize (before ++ cs) ≤ maxSourceSize) :
    Follows token (between before cs) (.between before cs) := by
  cases cs using pieces_induction with
  | nil =>
    rw [Follows, Scanner.next_eq hsize]
    exact ⟨_, .bind_ok (ends_rest ..) rfl, .between before []⟩
  | blank c cs hc =>
    rw [List.dropWhile_cons_of_pos hc] at hcs
    have hle := List.length_dropWhile_le isBlank cs
    rw [hcs, List.length_cons] at hle
    omega
  | word first cs tail hw hb =>
    have hmatch := firstMatch?_word (List.cons_ne_nil first cs) hw hb
    exact follows_piece (p := .word first cs) (by simp) (pieces_word_append hw hb) hmatch hsize
  | mark c tail hw hb =>
    have hmatch := firstMatch?_mark hw tail
    exact follows_piece (p := .mark c) (by simp) (pieces_mark_cons hw hb tail) hmatch hsize

/-- One call of the lexer is one call of the scanner. -/
theorem Agrees.next {l : Lexer} {s : Scanner} (h : Agrees l s) : Follows next l s := by
  obtain ⟨before, rest⟩ := h
  cases Nat.lt_or_ge maxSourceSize (byteSize (before ++ rest)) with
  | inl hlarge =>
    have hnext : (Scanner.between before rest).next =
        (.error (.sourceTooLarge (byteSize (before ++ rest))), .between before rest) :=
      if_pos hlarge
    rw [Follows, hnext]
    exact ⟨_, .bind_error (ends_checkSize_error hlarge), .between before rest⟩
  | inr hsize =>
    obtain ⟨w, cs, hrest, hw, hcs⟩ : ∃ w cs, rest = w ++ cs ∧ (∀ c ∈ w, isBlank c = true) ∧
        cs.dropWhile isBlank = cs :=
      ⟨_, _, List.takeWhile_append_dropWhile.symm, fun _ => List.mem_takeWhile_imp,
        List.dropWhile_idempotent ..⟩
    subst hrest
    have hsize' : byteSize (before ++ w ++ cs) ≤ maxSourceSize := by simpa using hsize
    obtain ⟨l', htoken, hl'⟩ := follows_token hcs hsize'
    rw [Follows, Scanner.next_between_blanks hw hsize]
    exact ⟨l', .bind_ok (ends_checkSize hsize) (.bind_ok (ends_skipBlanks hw hcs) htoken), hl'⟩

end

/-- The lexer after `n` calls of `next`, whatever they answered. -/
def Lexer.after? (l : Lexer) : Nat → Option Lexer
  | 0 => some l
  | n + 1 => (next.run.run l).bind fun r => r.2.after? n

theorem Agrees.after {l : Lexer} {s : Scanner} (h : Agrees l s) (n : Nat) :
    ∃ l', l.after? n = some l' ∧ Agrees l' (s.after n) := by
  induction n generalizing l s with
  | zero => exact ⟨l, rfl, h⟩
  | succ n ih =>
    obtain ⟨l', hends, hl'⟩ := h.next
    obtain ⟨l'', hafter, hl''⟩ := ih hl'
    refine ⟨l'', ?_, hl''⟩
    rw [Lexer.after?, hends]
    exact hafter

/-- However often the lexer is called, it stands at the scanner's byte and answers as the scanner
does. -/
theorem exists_ends_next_after (source : List Char) (n : Nat) :
    ∃ l l', (between [] source).after? n = some l ∧
      l.pos = ((Scanner.ofText source).after n).pos ∧
      next.Ends l ((Scanner.ofText source).after n).next.1 l' := by
  obtain ⟨l, hafter, hl⟩ := (Agrees.between [] source).after n
  obtain ⟨l', hends, _⟩ := hl.next
  exact ⟨l, l', hafter, hl.pos_eq, hends⟩

theorem Agrees.all {l : Lexer} {s : Scanner} (h : Agrees l s) {fuel : Nat}
    (hfuel : s.rest.length < fuel) (tokens : List Token) :
    ∃ l', (all fuel tokens).Ends l ((tokens ++ ·) <$> s.remaining) l' := by
  induction fuel generalizing l s tokens with
  | zero => cases hfuel
  | succ fuel ih =>
    obtain ⟨l', hends, hl'⟩ := h.next
    rw [Scanner.remaining_eq_next]
    generalize hnext : s.next = r at hends hl'
    obtain ⟨answer, s'⟩ := r
    cases answer with
    | error e => exact ⟨l', .bind_error hends⟩
    | ok found =>
      cases found with
      | none =>
        refine ⟨l', .bind_ok hends ?_⟩
        simp only [Except.map_ok, List.append_nil]
        rfl
      | some token =>
        have hfuel' : s'.rest.length < fuel :=
          Nat.lt_of_lt_of_le (Scanner.next_length_lt hnext) (Nat.le_of_lt_succ hfuel)
        obtain ⟨l'', hall⟩ := ih hl' hfuel' (tokens ++ [token])
        refine ⟨l'', .bind_ok hends ?_⟩
        simpa only [Functor.map_map, List.append_assoc, List.singleton_append] using hall

/-- The loop collects the tokens of the source. A call for each piece, and one for the end, are
enough. -/
theorem ends_all (source : List Char) {fuel : Nat} (hfuel : (pieces source).length < fuel) :
    ∃ l, (all fuel []).Ends (between [] source) (Token.scan source) l := by
  obtain ⟨l, hall⟩ := (Agrees.between [] source).all hfuel []
  have hsame : ([] ++ ·) <$> Token.scan source = Token.scan source := id_map _
  exact ⟨l, hsame ▸ hall⟩

end DefLang.Lexing
