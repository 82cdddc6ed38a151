import DefLang.Proofs.Pieces
import DefLang.Token.Scanner

namespace DefLang
open Text

namespace Text

/-- The bytes of a text in UTF-8. -/
def bytes (cs : List Char) : List UInt8 :=
  cs.flatMap String.utf8EncodeChar

theorem bytes_cons (c : Char) (cs : List Char) :
    bytes (c :: cs) = String.utf8EncodeChar c ++ bytes cs := rfl

theorem bytes_append (as bs : List Char) : bytes (as ++ bs) = bytes as ++ bytes bs :=
  List.flatMap_append

theorem length_bytes (cs : List Char) : (bytes cs).length = byteSize cs := by
  induction cs with
  | nil => rfl
  | cons c cs ih =>
    rw [bytes_cons, List.length_append, ih, String.length_utf8EncodeChar, byteSize_cons]

theorem toNat_ofNat_byte {n : Nat} (h : n < 256) : (UInt8.ofNat n).toNat = n :=
  UInt8.toNat_ofNat_of_lt' h

/-- A character below 128 is one byte of the same number, and any other character starts with a
byte from 128 on. -/
theorem exists_first_byte (c : Char) :
    ∃ b bs, String.utf8EncodeChar c = b :: bs ∧
      (b.toNat = c.toNat ∧ bs = [] ∨ 128 ≤ c.toNat ∧ 128 ≤ b.toNat) := by
  have hlead : ∀ n, 128 ≤ n → n < 256 → 128 ≤ (UInt8.ofNat n).toNat := by
    intro n hle hlt
    rw [toNat_ofNat_byte hlt]
    exact hle
  unfold String.utf8EncodeChar
  simp only
  split
  next h => exact ⟨_, _, rfl, .inl ⟨toNat_ofNat_byte (by omega), rfl⟩⟩
  next h =>
    have hc : 128 ≤ c.toNat := Nat.lt_of_not_le h
    split
    next => exact ⟨_, _, rfl, .inr ⟨hc, hlead _ (by omega) (by omega)⟩⟩
    next =>
      split
      next => exact ⟨_, _, rfl, .inr ⟨hc, hlead _ (by omega) (by omega)⟩⟩
      next => exact ⟨_, _, rfl, .inr ⟨hc, hlead _ (by omega) (by omega)⟩⟩

end Text

namespace Lexing

def isLetter (b : UInt8) : Bool :=
  65 ≤ b && b ≤ 90 || 97 ≤ b && b ≤ 122

def isDigit (b : UInt8) : Bool :=
  48 ≤ b && b ≤ 57

def isWordByte (b : UInt8) : Bool :=
  isLetter b || isDigit b || b == 95

/-- A matcher tells how many bytes it takes off the front of a text, and 0 if it takes none. -/
abbrev Matcher := List UInt8 → Nat

/-- A match of `size` bytes, unless a word goes on after it. -/
def ended (size : Nat) : Matcher := fun bytes =>
  match bytes[size]? with
  | some next => if isWordByte next then 0 else size
  | none => size

def matchWord (p : UInt8 → Bool) : Matcher := fun bytes =>
  ended (bytes.takeWhile p).length bytes

/-- `def`. -/
def keyword : List UInt8 :=
  ['d', 'e', 'f'].map Char.toUInt8

def matchKeyword : Matcher := fun bytes =>
  if keyword.isPrefixOf bytes then ended keyword.length bytes else 0

def matchMark (c : Char) : Matcher := fun bytes =>
  if bytes.head? = some c.toUInt8 then 1 else 0

/-- The keyword comes before the identifiers, of which it would be one. -/
def patterns : List (Token.Kind × Matcher) :=
  [(.defKeyword, matchKeyword), (.identifier, matchWord isLetter), (.integer, matchWord isDigit),
    (.colon, matchMark ':'), (.openParen, matchMark '('), (.closeParen, matchMark ')'),
    (.comma, matchMark ',')]

/-- The first pattern that matches wins. -/
def firstMatch? (bytes : List UInt8) : Option (Token.Kind × Nat) :=
  patterns.findSome? fun pattern =>
    let size := pattern.2 bytes
    if size = 0 then none else some (pattern.1, size)

/-- `p` says of the first byte of a character what `q` says of the character, and `q` holds of no
character that has more than one byte. -/
def SameClass (p : UInt8 → Bool) (q : Char → Bool) : Prop :=
  ∀ c, ∃ b bs, String.utf8EncodeChar c = b :: bs ∧ p b = q c ∧ (q c = true → bs = [])

section
variable {p : UInt8 → Bool} {q : Char → Bool}

theorem SameClass.of_numbers {P : Nat → Prop} (hp : ∀ b, p b = true ↔ P b.toNat)
    (hq : ∀ c, q c = true ↔ P c.toNat) (hP : ∀ n, P n → n < 128) : SameClass p q := by
  intro c
  obtain ⟨b, bs, hbytes, ⟨hb, hbs⟩ | ⟨hc, hb⟩⟩ := exists_first_byte c
  · refine ⟨b, bs, hbytes, ?_, fun _ => hbs⟩
    rw [Bool.eq_iff_iff, hp, hq, hb]
  · have hnc : q c ≠ true := fun h => Nat.not_le.mpr (hP _ ((hq c).mp h)) hc
    have hnb : p b ≠ true := fun h => Nat.not_le.mpr (hP _ ((hp b).mp h)) hb
    refine ⟨b, bs, hbytes, ?_, fun h => absurd h hnc⟩
    rw [Bool.eq_false_iff.mpr hnb, Bool.eq_false_iff.mpr hnc]

theorem SameClass.takeWhile (h : SameClass p q) (cs : List Char) :
    (bytes cs).takeWhile p = bytes (cs.takeWhile q) := by
  induction cs with
  | nil => rfl
  | cons c cs ih =>
    obtain ⟨b, bs, hbytes, hb, hbs⟩ := h c
    rw [bytes_cons, hbytes, List.takeWhile_cons, List.cons_append, List.takeWhile_cons, hb]
    cases hc : q c with
    | false => rfl
    | true => simp [bytes_cons, hbytes, hbs hc, ih]

theorem SameClass.any_head? (h : SameClass p q) (cs : List Char) :
    (bytes cs).head?.any p = cs.head?.any q := by
  cases cs with
  | nil => rfl
  | cons c cs =>
    obtain ⟨b, bs, hbytes, hb, _⟩ := h c
    rw [bytes_cons, hbytes]
    exact hb

end

theorem sameClass_letter : SameClass isLetter Char.isAlpha := by
  refine .of_numbers (P := fun n => 65 ≤ n ∧ n ≤ 90 ∨ 97 ≤ n ∧ n ≤ 122) (fun b => ?_)
    isAlpha_iff_toNat fun n hn => by omega
  simp [isLetter, UInt8.le_iff_toNat_le]

theorem sameClass_digit : SameClass isDigit Char.isDigit := by
  refine .of_numbers (P := fun n => 48 ≤ n ∧ n ≤ 57) (fun b => ?_)
    (fun c => Char.isDigit_iff_toNat) fun n hn => by omega
  simp [isDigit, UInt8.le_iff_toNat_le]

theorem sameClass_word : SameClass isWordByte isWordChar := by
  refine .of_numbers (P := fun n => (65 ≤ n ∧ n ≤ 90 ∨ 97 ≤ n ∧ n ≤ 122) ∨
    (48 ≤ n ∧ n ≤ 57) ∨ n = 95) (fun b => ?_) isWordChar_iff_toNat fun n hn => by omega
  simp [isWordByte, isLetter, isDigit, UInt8.le_iff_toNat_le, ← UInt8.toNat_inj, or_assoc]

theorem sameClass_beq {b : UInt8} {c : Char} (h : b.toNat = c.toNat) (hc : c.toNat < 128) :
    SameClass (b == ·) (c == ·) := by
  refine .of_numbers (P := (c.toNat = ·)) (fun d => ?_) (fun d => ?_) fun n hn => by omega
  · rw [beq_iff_eq, ← h, UInt8.toNat_inj]
  · rw [beq_iff_eq, Char.toNat_inj]

theorem isPrefixOf_bytes {w : List Char} (hw : ∀ c ∈ w, c.toNat < 128) (cs : List Char) :
    (bytes w).isPrefixOf (bytes cs) = w.isPrefixOf cs := by
  induction w generalizing cs with
  | nil => rfl
  | cons a w ih =>
    obtain ⟨ha, hw⟩ := List.forall_mem_cons.mp hw
    obtain ⟨b, bs, hbytes, ⟨hb, rfl⟩ | ⟨hlarge, _⟩⟩ := exists_first_byte a
    · cases cs with
      | nil => rw [bytes_cons, hbytes]; rfl
      | cons c cs =>
        obtain ⟨d, ds, hd, heq, hds⟩ := sameClass_beq hb ha c
        rw [bytes_cons, hbytes, bytes_cons, hd]
        simp only [List.cons_append, List.nil_append, List.isPrefixOf] at heq hds ⊢
        rw [heq]
        cases hac : a == c with
        | false => rfl
        | true => rw [hds hac, List.nil_append, ih hw]
    · omega

theorem ended_append (v tail : List Char) :
    ended (byteSize v) (bytes (v ++ tail)) =
      if tail.head?.any isWordChar then 0 else byteSize v := by
  rw [ended, bytes_append, ← length_bytes v, List.getElem?_append_right le_rfl, Nat.sub_self,
    ← List.head?_eq_getElem?, ← sameClass_word.any_head?]
  cases (bytes tail).head? <;> rfl

theorem matchWord_bytes {p : UInt8 → Bool} {q : Char → Bool} (h : SameClass p q) (cs : List Char) :
    matchWord p (bytes cs) =
      if (cs.dropWhile q).head?.any isWordChar then 0 else byteSize (cs.takeWhile q) := by
  rw [matchWord, h.takeWhile, length_bytes, ← ended_append, List.takeWhile_append_dropWhile]

theorem matchMark_bytes {c : Char} (hc : c.toNat < 128) (d : Char) (cs : List Char) :
    matchMark c (bytes (d :: cs)) = if d = c then 1 else 0 := by
  have hbyte : c.toUInt8.toNat = c.toNat := toNat_ofNat_byte (Nat.lt_trans hc (by decide))
  obtain ⟨x, xs, hbytes, hx, _⟩ := sameClass_beq hbyte hc d
  have hiff : x = c.toUInt8 ↔ d = c := by
    have hsame := Bool.eq_iff_iff.mp hx
    rw [beq_iff_eq, beq_iff_eq] at hsame
    rw [eq_comm, hsame, eq_comm]
  rw [matchMark, bytes_cons, hbytes]
  simp only [List.cons_append, List.head?_cons, Option.some.injEq, hiff]

theorem isWordChar_of_isAlpha (c : Char) (h : c.isAlpha = true) : isWordChar c = true :=
  (isWordChar_iff_toNat c).mpr (.inl ((isAlpha_iff_toNat c).mp h))

theorem isWordChar_of_isDigit (c : Char) (h : c.isDigit = true) : isWordChar c = true :=
  (isWordChar_iff_toNat c).mpr (.inr (.inl (Char.isDigit_iff_toNat.mp h)))

section
variable {v tail : List Char}

theorem any_head?_of_breaks (h : Breaks tail) : tail.head?.any isWordChar = false := by
  cases tail with
  | nil => rfl
  | cons c cs => exact (breaks_cons c cs).mp h

theorem matchWord_word {p : UInt8 → Bool} {q : Char → Bool} (h : SameClass p q)
    (hq : ∀ c, q c = true → isWordChar c = true) (hv : ∀ c ∈ v, isWordChar c = true)
    (htail : Breaks tail) :
    matchWord p (bytes (v ++ tail)) = if v.all q then byteSize v else 0 := by
  rw [matchWord_bytes h]
  have hstop : tail.takeWhile q = [] ∧ tail.dropWhile q = tail := by
    cases tail with
    | nil => exact ⟨rfl, rfl⟩
    | cons c cs =>
      have hc : q c ≠ true := fun hc => by simp [hq c hc] at htail
      simp [hc]
  by_cases hall : v.all q = true
  · have hv := List.all_eq_true.mp hall
    rw [List.takeWhile_append_of_pos hv, List.dropWhile_append_of_pos hv, hstop.1, hstop.2,
      any_head?_of_breaks htail, List.append_nil, if_pos hall]
    rfl
  · -- what is not in the class stands inside the word
    obtain ⟨c, cs, hdrop⟩ : ∃ c cs, v.dropWhile q = c :: cs := by
      apply List.exists_cons_of_ne_nil
      simpa [List.dropWhile_eq_nil_iff] using hall
    have hc : isWordChar c = true := by
      apply hv c
      apply (List.dropWhile_sublist q).subset
      rw [hdrop]
      exact List.mem_cons_self
    rw [List.dropWhile_append, hdrop]
    simp [hc, hall]

theorem matchKeyword_word (hv : ∀ c ∈ v, isWordChar c = true) (htail : Breaks tail) :
    matchKeyword (bytes (v ++ tail)) = if v = ['d', 'e', 'f'] then 3 else 0 := by
  have hkeyword : keyword = bytes ['d', 'e', 'f'] := rfl
  have hascii : ∀ c ∈ ['d', 'e', 'f'], c.toNat < 128 := by simp
  rw [matchKeyword, hkeyword, isPrefixOf_bytes hascii]
  by_cases hprefix : ['d', 'e', 'f'].isPrefixOf (v ++ tail) = true
  · rw [if_pos hprefix]
    obtain ⟨rest, hrest⟩ := List.isPrefixOf_iff_prefix.mp hprefix
    rw [← hrest, length_bytes, ended_append]
    obtain ⟨more, rfl, rfl⟩ | ⟨more, hmore, rfl⟩ := List.append_eq_append_iff.mp hrest
    · cases more with
      | nil =>
        rw [List.append_nil, List.nil_append, any_head?_of_breaks htail]
        rfl
      | cons c more =>
        have hc : isWordChar c = true := hv c (by simp)
        simp [hc]
    · cases more with
      | nil =>
        rw [List.append_nil] at hmore
        rw [List.nil_append] at htail
        rw [← hmore, if_pos rfl, any_head?_of_breaks htail]
        rfl
      | cons c more =>
        -- the keyword would go on where the word ends
        have hc : c ∈ ['d', 'e', 'f'] := by simp [hmore]
        have hword : ∀ c ∈ ['d', 'e', 'f'], isWordChar c = true := List.all_eq_true.mp rfl
        rw [List.cons_append, breaks_cons, hword c hc] at htail
        cases htail
  · have hne : v ≠ ['d', 'e', 'f'] := by
      rintro rfl
      exact hprefix (List.isPrefixOf_iff_prefix.mpr (List.prefix_append _ _))
    rw [if_neg hprefix, if_neg hne]

theorem firstMatch?_word (hne : v ≠ []) (hv : ∀ c ∈ v, isWordChar c = true)
    (htail : Breaks tail) :
    firstMatch? (bytes (v ++ tail)) = (Token.Kind.ofWord? v).map (·, byteSize v) := by
  have hkeyword := matchKeyword_word hv htail
  have hletter := matchWord_word sameClass_letter isWordChar_of_isAlpha hv htail
  have hdigit := matchWord_word sameClass_digit isWordChar_of_isDigit hv htail
  have hmark : ∀ m, m.toNat < 128 → isWordChar m = false → matchMark m (bytes (v ++ tail)) = 0 := by
    intro m hm hnot
    obtain ⟨c, cs, rfl⟩ := List.exists_cons_of_ne_nil hne
    rw [List.cons_append, matchMark_bytes hm, if_neg]
    rintro rfl
    simp [hv c (by simp)] at hnot
  have hsize : byteSize v ≠ 0 := fun h => hne (byteSize_eq_zero v h)
  simp only [firstMatch?, patterns, List.findSome?_cons, List.findSome?_nil, hkeyword, hletter,
    hdigit, hmark ':' (by decide) rfl, hmark '(' (by decide) rfl, hmark ')' (by decide) rfl,
    hmark ',' (by decide) rfl, Token.Kind.ofWord?]
  by_cases hdef : v = ['d', 'e', 'f']
  · subst hdef
    rfl
  · by_cases halpha : v.all Char.isAlpha = true
    · simp [hdef, halpha, hsize]
    · by_cases hnum : v.all Char.isDigit = true
      · simp [hdef, halpha, hnum, hsize]
      · simp [hdef, halpha, hnum]

theorem firstMatch?_mark {c : Char} (hc : isWordChar c = false) (cs : List Char) :
    firstMatch? (bytes (c :: cs)) = (Token.Kind.ofMark? c).map (·, byteSize [c]) := by
  have hbreaks : Breaks (c :: cs) := (breaks_cons c cs).mpr hc
  have hkeyword := matchKeyword_word (v := []) (by simp) hbreaks
  have hletter := matchWord_word (v := []) sameClass_letter isWordChar_of_isAlpha (by simp) hbreaks
  have hdigit := matchWord_word (v := []) sameClass_digit isWordChar_of_isDigit (by simp) hbreaks
  rw [List.nil_append] at hkeyword hletter hdigit
  have hmark := fun m hm => matchMark_bytes (c := m) hm c cs
  simp only [firstMatch?, patterns, List.findSome?_cons, List.findSome?_nil, hkeyword, hletter,
    hdigit, hmark ':' (by decide), hmark '(' (by decide), hmark ')' (by decide),
    hmark ',' (by decide), Token.Kind.ofMark?]
  by_cases hcolon : c = ':'
  · subst hcolon
    rfl
  · by_cases hopen : c = '('
    · subst hopen
      rfl
    · by_cases hclose : c = ')'
      · subst hclose
        rfl
      · by_cases hcomma : c = ','
        · subst hcomma
          rfl
        · simp [hcolon, hopen, hclose, hcomma]

end

end Lexing

end DefLang
