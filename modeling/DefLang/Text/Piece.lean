import DefLang.Text.Bytes

namespace DefLang.Text

/-- First and last code points of the runs that make up Unicode's White_Space. -/
def blankRanges : List (Nat × Nat) :=
  [(0x09, 0x0D), (0x20, 0x20), (0x85, 0x85), (0xA0, 0xA0), (0x1680, 0x1680), (0x2000, 0x200A),
    (0x2028, 0x2029), (0x202F, 0x202F), (0x205F, 0x205F), (0x3000, 0x3000)]

/-- The zero-width characters (U+200B, U+FEFF) are not blank. -/
def isBlank (c : Char) : Bool :=
  blankRanges.any fun (first, last) => decide (first ≤ c.toNat) && decide (c.toNat ≤ last)

theorem isBlank_iff (c : Char) :
    isBlank c = true ↔ ∃ r ∈ blankRanges, r.1 ≤ c.toNat ∧ c.toNat ≤ r.2 := by
  simp [isBlank, List.any_eq_true]

/-- An ASCII letter, an ASCII digit or the underscore. -/
def isWordChar (c : Char) : Bool :=
  c.isAlphanum || c == '_'

theorem isAlpha_iff_toNat (c : Char) :
    c.isAlpha = true ↔ 65 ≤ c.toNat ∧ c.toNat ≤ 90 ∨ 97 ≤ c.toNat ∧ c.toNat ≤ 122 := by
  have h : c.isAlpha = (decide (c.val ≥ 65 ∧ c.val ≤ 90) ||
      (decide (c.val ≥ 97) && decide (c.val ≤ 122))) := rfl
  simp only [h, Bool.or_eq_true, Bool.and_eq_true, decide_eq_true_eq, ge_iff_le,
    UInt32.le_iff_toNat_le]
  rfl

theorem isWordChar_iff_toNat (c : Char) :
    isWordChar c = true ↔ (65 ≤ c.toNat ∧ c.toNat ≤ 90 ∨ 97 ≤ c.toNat ∧ c.toNat ≤ 122) ∨
      (48 ≤ c.toNat ∧ c.toNat ≤ 57) ∨ c.toNat = 95 := by
  have h : isWordChar c = (c.isAlpha || c.isDigit || c == '_') := rfl
  simp only [h, Bool.or_eq_true, isAlpha_iff_toNat, Char.isDigit_iff_toNat, beq_iff_eq,
    ← Char.toNat_inj, or_assoc]
  rfl

theorem isBlank_of_isWordChar (c : Char) (h : isWordChar c = true) : isBlank c = false := by
  have hw := (isWordChar_iff_toNat c).mp h
  apply Bool.eq_false_iff.mpr
  intro hb
  obtain ⟨r, hm, hlo, hhi⟩ := (isBlank_iff c).mp hb
  simp only [blankRanges, List.mem_cons, List.not_mem_nil, or_false] at hm
  rcases hm with rfl | rfl | rfl | rfl | rfl | rfl | rfl | rfl | rfl | rfl <;>
    dsimp only at hlo hhi <;> omega

/-- What a text is made of: blanks, words that cannot be made longer, and single other marks. -/
inductive Piece where
  | blank (c : Char)
  | word (first : Char) (rest : List Char)
  | mark (c : Char)
  deriving DecidableEq, Repr

namespace Piece

def chars : Piece → List Char
  | blank c => [c]
  | word first rest => first :: rest
  | mark c => [c]

def first : Piece → Char
  | blank c => c
  | word c _ => c
  | mark c => c

def size (p : Piece) : Nat :=
  byteSize p.chars

def ofChar (c : Char) : Piece :=
  if isWordChar c then word c [] else if isBlank c then blank c else mark c

/-- The pieces of `c :: cs`, from those of `cs`. -/
def attach (c : Char) : List Piece → List Piece
  | word first rest :: ps =>
    if isWordChar c then word c (first :: rest) :: ps else ofChar c :: word first rest :: ps
  | ps => ofChar c :: ps

@[simp] theorem chars_ofChar (c : Char) : (ofChar c).chars = [c] := by
  unfold ofChar
  split
  · rfl
  · split <;> rfl

theorem chars_attach (c : Char) (ps : List Piece) :
    (attach c ps).flatMap chars = c :: ps.flatMap chars := by
  unfold attach
  split
  · split
    · simp [chars]
    · simp
  · simp

end Piece

/-- The only way to cut a text into pieces. -/
def pieces (cs : List Char) : List Piece :=
  cs.foldr Piece.attach []

@[simp] theorem pieces_nil : pieces [] = [] := rfl

theorem pieces_cons (c : Char) (cs : List Char) :
    pieces (c :: cs) = Piece.attach c (pieces cs) := rfl

theorem chars_pieces (cs : List Char) : (pieces cs).flatMap Piece.chars = cs := by
  induction cs with
  | nil => rfl
  | cons c cs ih => rw [pieces_cons, Piece.chars_attach, ih]

end DefLang.Text
