import DefLang.Proofs.Layout

namespace DefLang
open Text

/-- Every token's text is in the source, at the place that its span gives. -/
theorem LaidOut.exists_split {start : Nat} {gaps : Nat → List Char} {source : List Char}
    {ts : List Token} (h : LaidOut start gaps source ts) :
    ∀ t ∈ ts, ∃ a b, source = a ++ t.text ++ b ∧ t.span.offset.toNat = start + byteSize a := by
  induction ts generalizing start gaps source with
  | nil => simp
  | cons t ts ih =>
    obtain ⟨_, _, hoff, _, rest, rfl, _, hrest⟩ := (cons_iff ..).mp h
    intro u hu
    obtain rfl | hu := List.mem_cons.mp hu
    · exact ⟨gaps 0, rest, rfl, hoff⟩
    · obtain ⟨a, b, rfl, hoff⟩ := ih hrest u hu
      refine ⟨gaps 0 ++ t.text ++ a, b, by simp, ?_⟩
      rw [hoff, byteSize_append, byteSize_append]
      omega

theorem LaidOut.span_le {start : Nat} {gaps : Nat → List Char} {source : List Char}
    {ts : List Token} (h : LaidOut start gaps source ts) :
    ∀ t ∈ ts, t.span.offset.toNat + t.span.length.toNat ≤ start + byteSize source := by
  intro t ht
  obtain ⟨a, b, rfl, hoff⟩ := h.exists_split t ht
  rw [hoff, h.length_eq t ht, byteSize_append, byteSize_append]
  omega

/-- The error names a character of the source, whose first character is at byte `start`. Blanks are
always skipped. -/
def ScanError.At (start : Nat) (source : List Char) (e : ScanError) : Prop :=
  ∃ before c after, source = before ++ c :: after ∧ isBlank c = false ∧
    e = .unknownCharacter c
      { offset := UInt32.ofNat (start + byteSize before), length := UInt32.ofNat c.utf8Size }

theorem ScanError.At.append {start : Nat} {cs : List Char} {e : ScanError} (w : List Char)
    (h : e.At (start + byteSize w) cs) : e.At start (w ++ cs) := by
  obtain ⟨before, c, after, rfl, hc, rfl⟩ := h
  exact ⟨w ++ before, c, after, by simp, hc, by simp [Nat.add_assoc]⟩

theorem ScanError.At.toNat_span {start : Nat} {source : List Char} {e : ScanError}
    (h : e.At start source) (hsize : start + byteSize source ≤ maxSourceSize) :
    ∃ before c after, source = before ++ [c] ++ after ∧ isBlank c = false ∧
      e.span.offset.toNat = start + byteSize before ∧ e.span.length.toNat = byteSize [c] := by
  obtain ⟨before, c, after, rfl, hc, rfl⟩ := h
  refine ⟨before, c, after, by simp, hc, ?_⟩
  simp only [byteSize_append, byteSize_cons] at hsize
  exact ⟨Token.toNat_ofNat_of_le (by omega), Token.toNat_ofNat_of_le (by omega)⟩

namespace Token

theorem scanFrom_cons_eq_error {pos : Nat} {p : Piece} {ps : List Piece} {e : ScanError}
    (h : scanFrom pos (p :: ps) = .error e) :
    p.read pos = .error e ∨ scanFrom (pos + p.size) ps = .error e := by
  simp only [scanFrom_cons, bind_eq_error_iff] at h
  obtain h | ⟨_, _, h | ⟨_, _, h⟩⟩ := h
  · exact .inl h
  · exact .inr h
  · cases h

theorem read_eq_error {p : Piece} {pos : Nat} {e : ScanError} (h : p.read pos = .error e) :
    e = .unknownCharacter p.first
      { offset := UInt32.ofNat pos, length := UInt32.ofNat p.first.utf8Size } := by
  unfold Piece.read at h
  split at h
  next => cases h
  next => cases h
  next => exact (Except.error.inj h).symm

theorem at_of_scanFrom_eq_error {start : Nat} {source : List Char} {e : ScanError}
    (h : scanFrom start (pieces source) = .error e) : e.At start source := by
  -- the first piece is at fault, or the fault is further on
  induction source using pieces_induction generalizing start with
  | nil => cases h
  | blank c cs hc ih =>
    rw [pieces_blank_cons hc] at h
    obtain h | h := scanFrom_cons_eq_error h
    · cases h
    · exact (ih h).append [c]
  | word first rest cs hw hb ih =>
    rw [pieces_word_append hw hb] at h
    obtain h | h := scanFrom_cons_eq_error h
    · exact ⟨[], first, rest ++ cs, rfl, isBlank_of_isWordChar first (hw first (by simp)),
        read_eq_error h⟩
    · exact (ih h).append (first :: rest)
  | mark c cs hw hb ih =>
    rw [pieces_mark_cons hw hb] at h
    obtain h | h := scanFrom_cons_eq_error h
    · exact ⟨[], c, cs, rfl, hb, read_eq_error h⟩
    · exact (ih h).append [c]

end Token

namespace Text

/-- No word goes on from the end of `a` into `b`. -/
def Apart (a b : List Char) : Prop :=
  ∀ c d, a.getLast? = some c → b.head? = some d → ¬ (isWordChar c = true ∧ isWordChar d = true)

theorem Piece.attach_append (c : Char) {ps : List Piece} (h : ps ≠ []) (qs : List Piece) :
    attach c (ps ++ qs) = attach c ps ++ qs := by
  obtain ⟨p, ps, rfl⟩ := List.exists_cons_of_ne_nil h
  cases p with
  | word first rest =>
    simp only [List.cons_append, attach]
    split <;> rfl
  | blank d => rfl
  | mark d => rfl

theorem pieces_ne_nil {cs : List Char} (h : cs ≠ []) : pieces cs ≠ [] := by
  intro hp
  have hchars := chars_pieces cs
  rw [hp] at hchars
  exact h hchars.symm

theorem pieces_cons_of_apart {c : Char} {b : List Char} (h : Apart [c] b) :
    pieces (c :: b) = pieces [c] ++ pieces b := by
  by_cases hc : isWordChar c = true
  · have hb : Breaks b := by
      intro d hd
      apply Bool.eq_false_iff.mpr
      intro hw
      exact h c d rfl hd ⟨hc, hw⟩
    rw [pieces_cons, attach_pieces_of_breaks hc hb, pieces_cons,
      attach_pieces_of_breaks hc breaks_nil]
    rfl
  · have hc : isWordChar c = false := Bool.eq_false_iff.mpr hc
    rw [pieces_cons_of_not_isWordChar hc, pieces_cons_of_not_isWordChar hc]
    rfl

/-- Where no word is cut, the pieces of two texts are those of the joined text. -/
theorem pieces_append {a b : List Char} (h : Apart a b) :
    pieces (a ++ b) = pieces a ++ pieces b := by
  induction a with
  | nil => rfl
  | cons c a ih =>
    by_cases ha : a = []
    · subst ha
      exact pieces_cons_of_apart h
    · have htail : Apart a b := by
        intro c' d hc hd
        apply h c' d _ hd
        rw [List.getLast?_cons, hc]
        rfl
      rw [List.cons_append, pieces_cons, ih htail, pieces_cons,
        Piece.attach_append c (pieces_ne_nil ha)]

end Text

def Span.shift (s : Span) (n : Nat) : Span :=
  { s with offset := s.offset + UInt32.ofNat n }

theorem Span.toNat_shift_offset {s : Span} {n : Nat} (h : s.offset.toNat + n ≤ maxSourceSize) :
    (s.shift n).offset.toNat = s.offset.toNat + n := by
  rw [Span.shift, UInt32.toNat_add, Token.toNat_ofNat_of_le (Nat.le_of_add_left_le h)]
  exact Nat.mod_eq_of_lt (Nat.lt_succ_of_le h)

/-- The same token, found `n` bytes further on. -/
def Token.shift (t : Token) (n : Nat) : Token :=
  { t with span := t.span.shift n }

def ScanError.shift : ScanError → Nat → ScanError
  | unknownCharacter found span, n => unknownCharacter found (span.shift n)
  | sourceTooLarge size, _ => sourceTooLarge size

theorem ScanError.At.span_shift {start : Nat} {source : List Char} {e : ScanError}
    (h : e.At start source) (n : Nat) : (e.shift n).span = e.span.shift n := by
  obtain ⟨before, c, after, _, _, rfl⟩ := h
  rfl

namespace Token

theorem read_add (p : Piece) (pos n : Nat) :
    p.read (pos + n) =
      ((p.read pos).map fun found => found.map (·.shift n)).mapError (·.shift n) := by
  have hspan (length : UInt32) : ({ offset := UInt32.ofNat (pos + n), length } : Span) =
      Span.shift { offset := UInt32.ofNat pos, length } n := by
    rw [Span.shift, UInt32.ofNat_add]
  unfold Piece.read
  split
  next => rfl
  next =>
    rw [hspan]
    rfl
  next =>
    rw [hspan]
    rfl

/-- Where the pieces stand has no part in what they are. -/
theorem scanFrom_add (ps : List Piece) (pos n : Nat) :
    scanFrom (pos + n) ps =
      ((scanFrom pos ps).map fun ts => ts.map (·.shift n)).mapError (·.shift n) := by
  induction ps generalizing pos with
  | nil => rfl
  | cons p ps ih =>
    rw [scanFrom_cons, scanFrom_cons, read_add, Nat.add_right_comm, ih]
    cases p.read pos with
    | error e => rfl
    | ok found =>
      cases scanFrom (pos + p.size) ps with
      | error e => rfl
      | ok ts => cases found <;> rfl

theorem scanFrom_append (ps qs : List Piece) (pos : Nat) :
    scanFrom pos (ps ++ qs) = do
      let ts ← scanFrom pos ps
      let us ← scanFrom (pos + byteSize (ps.flatMap Piece.chars)) qs
      return ts ++ us := by
  induction ps generalizing pos with
  | nil =>
    simp only [List.nil_append, scanFrom_nil, List.flatMap_nil, byteSize_nil, Nat.add_zero]
    cases scanFrom pos qs <;> rfl
  | cons p ps ih =>
    simp only [List.cons_append, scanFrom_cons, ih, List.flatMap_cons, byteSize_append, Piece.size,
      Nat.add_assoc, bind_assoc, pure_bind, List.append_assoc]

theorem scan_append {a b : List Char} (hsize : byteSize a + byteSize b ≤ maxSourceSize)
    (h : Apart a b) :
    scan (a ++ b) = do
      let ts ← scan a
      let us ← ((scan b).map fun us => us.map (·.shift (byteSize a))).mapError
        (·.shift (byteSize a))
      return ts ++ us := by
  have hab : byteSize (a ++ b) ≤ maxSourceSize := by rwa [byteSize_append]
  rw [scan_eq_scanFrom hab, scan_eq_scanFrom (Nat.le_of_add_right_le hsize),
    scan_eq_scanFrom (Nat.le_of_add_left_le hsize), ← scanFrom_add, pieces_append h,
    scanFrom_append, chars_pieces]

theorem toNat_offset_shift_of_scan_error {b : List Char} {e : ScanError} {n : Nat}
    (h : scan b = .error e) (hsize : byteSize b + n ≤ maxSourceSize) :
    (e.shift n).span.offset.toNat = e.span.offset.toNat + n := by
  have hb : byteSize b ≤ maxSourceSize := Nat.le_of_add_right_le hsize
  rw [scan_eq_scanFrom hb] at h
  have hat := at_of_scanFrom_eq_error h
  obtain ⟨before, c, after, rfl, _, hoff, _⟩ := hat.toNat_span (by omega)
  rw [hat.span_shift, Span.toNat_shift_offset]
  simp only [byteSize_append] at hsize
  omega

theorem toNat_offset_shift_of_scan {b : List Char} {us : List Token} {n : Nat}
    (h : scan b = .ok us) (hsize : byteSize b + n ≤ maxSourceSize) :
    ∀ u ∈ us, (u.shift n).span.offset.toNat = u.span.offset.toNat + n := by
  intro u hu
  obtain ⟨gaps, hgaps⟩ := (scan_eq_ok_iff (Nat.le_of_add_right_le hsize) us).mp h
  have hle := hgaps.span_le u hu
  apply Span.toNat_shift_offset
  omega

/-- Texts that no word connects are scanned one after the other, and the second one's offsets only
move on. -/
theorem scan_joins_at_a_seam (a b : String) (hsize : (a ++ b).utf8ByteSize ≤ 4294967295)
    (hseam : Apart a.toList b.toList) :
    (∀ e, scan a.toList = .error e → scan (a ++ b).toList = .error e) ∧
      (∀ ts e, scan a.toList = .ok ts → scan b.toList = .error e →
        scan (a ++ b).toList = .error (e.shift a.utf8ByteSize) ∧
          (e.shift a.utf8ByteSize).span.offset.toNat = e.span.offset.toNat + a.utf8ByteSize) ∧
      ∀ ts us, scan a.toList = .ok ts → scan b.toList = .ok us →
        scan (a ++ b).toList = .ok (ts ++ us.map (·.shift a.utf8ByteSize)) ∧
          ∀ u ∈ us, (u.shift a.utf8ByteSize).span.offset.toNat =
            u.span.offset.toNat + a.utf8ByteSize := by
  have hsum : byteSize a.toList + byteSize b.toList ≤ maxSourceSize := by
    rw [byteSize_toList, byteSize_toList, ← String.utf8ByteSize_append]
    exact hsize
  have hjoin := scan_append hsum hseam
  rw [byteSize_toList a] at hjoin hsum
  rw [Nat.add_comm] at hsum
  rw [String.toList_append]
  refine ⟨fun e ha => ?_, fun ts e ha hb => ⟨?_, toNat_offset_shift_of_scan_error hb hsum⟩,
    fun ts us ha hb => ⟨?_, toNat_offset_shift_of_scan hb hsum⟩⟩
  · rw [hjoin, ha]
    rfl
  · rw [hjoin, ha, hb]
    rfl
  · rw [hjoin, ha, hb]
    rfl

theorem apart_wide_space (b : List Char) : Apart "f\u3000".toList b := by
  rintro c d hc - ⟨hw, -⟩
  obtain rfl : '\u3000' = c := Option.some.inj hc
  exact absurd hw (by decide)

theorem scan_joins_wide_space_and_bad_word :
    (("f\u3000" ++ "x 1_").utf8ByteSize ≤ 4294967295 ∧ Apart "f\u3000".toList "x 1_".toList ∧
      scan ("f\u3000" ++ "x 1_").toList = .error (.unknownCharacter '1' ⟨6, 1⟩)) ∧
    (("f\u3000" ++ "x 12").utf8ByteSize ≤ 4294967295 ∧ Apart "f\u3000".toList "x 12".toList ∧
      scan ("f\u3000" ++ "x 12").toList = .ok [⟨.identifier, "f", ⟨0, 1⟩⟩,
        ⟨.identifier, "x", ⟨4, 1⟩⟩, ⟨.integer, "12", ⟨6, 2⟩⟩]) := by
  have hbad : ("f\u3000" ++ "x 1_").utf8ByteSize ≤ 4294967295 := by decide
  have hgood : ("f\u3000" ++ "x 12").utf8ByteSize ≤ 4294967295 := by decide
  obtain ⟨_, herror, _⟩ := scan_joins_at_a_seam _ _ hbad (apart_wide_space _)
  obtain ⟨_, _, hjoin⟩ := scan_joins_at_a_seam _ _ hgood (apart_wide_space _)
  refine ⟨⟨hbad, apart_wide_space _, ?_⟩, hgood, apart_wide_space _, ?_⟩
  · exact (herror [⟨.identifier, "f", ⟨0, 1⟩⟩] (.unknownCharacter '1' ⟨2, 1⟩) rfl rfl).1
  · exact (hjoin [⟨.identifier, "f", ⟨0, 1⟩⟩]
      [⟨.identifier, "x", ⟨0, 1⟩⟩, ⟨.integer, "12", ⟨2, 2⟩⟩] rfl rfl).1

end Token

end DefLang
