import DefLang.Proofs.Scanning

namespace DefLang
open Text

namespace Text

variable {a b cs : List Char}

theorem Apart.of_append_right (h : Apart a (b ++ cs)) : Apart a b := by
  intro x y hx hy
  apply h x y hx
  rw [List.head?_append, hy]
  rfl

theorem Apart.append (h : Apart a (b ++ cs)) (h' : Apart b cs) : Apart (a ++ b) cs := by
  intro x y hx hy
  by_cases hb : b = []
  · subst hb
    rw [List.append_nil] at hx
    exact h x y hx hy
  · apply h' x y _ hy
    rwa [List.getLast?_append, List.getLast?_eq_some_getLast hb, Option.some_or,
      ← List.getLast?_eq_some_getLast hb] at hx

theorem apart_of_breaks (h : Breaks b) : Apart a b :=
  fun _ d _ hd hw => by simp [h d hd] at hw

theorem apart_of_not_isWordChar {c : Char} (h : isWordChar c = false) (b : List Char) :
    Apart [c] b := by
  intro x y hx _ hw
  obtain rfl : c = x := by simpa using hx
  simp [h] at hw

/-- No token starts with `c` in front of `after`: it is neither blank nor one of the four marks, or
the word that it starts is neither all letters nor all digits. -/
def Stray (c : Char) (after : List Char) : Prop :=
  isBlank c = false ∧
    (isWordChar c = false ∧ c ∉ [':', '(', ')', ','] ∨
      isWordChar c = true ∧ ¬ (∀ d ∈ (c :: after).takeWhile isWordChar, d.isAlpha = true) ∧
        ¬ ∀ d ∈ (c :: after).takeWhile isWordChar, d.isDigit = true)

theorem takeWhile_isWordChar_append {word : List Char} (hw : ∀ c ∈ word, isWordChar c = true)
    (hb : Breaks cs) : (word ++ cs).takeWhile isWordChar = word := by
  have hcs : cs.takeWhile isWordChar = [] := by
    cases cs with
    | nil => rfl
    | cons c cs => simp [(breaks_cons c cs).mp hb]
  rw [List.takeWhile_append_of_pos hw, hcs, List.append_nil]

end Text

namespace Token

theorem Kind.ofWord?_eq_none_iff (cs : List Char) :
    Kind.ofWord? cs = none ↔
      ¬ (∀ c ∈ cs, c.isAlpha = true) ∧ ¬ ∀ c ∈ cs, c.isDigit = true := by
  simp only [← List.all_eq_true]
  unfold Kind.ofWord?
  by_cases hd : cs = ['d', 'e', 'f']
  · subst hd
    simp
  · rw [if_neg hd]
    split
    next ha => simp only [ha, reduceCtorEq, not_true, false_and]
    next ha =>
      split
      next hn => simp only [hn, reduceCtorEq, not_true, and_false]
      next hn => exact ⟨fun _ => ⟨ha, hn⟩, fun _ => rfl⟩

theorem Kind.ofMark?_eq_none_iff (c : Char) :
    Kind.ofMark? c = none ↔ c ∉ [':', '(', ')', ','] := by
  unfold Kind.ofMark?
  by_cases hcolon : c = ':'
  · simp [hcolon]
  by_cases hopen : c = '('
  · simp [hopen]
  by_cases hclose : c = ')'
  · simp [hclose]
  by_cases hcomma : c = ','
  · simp [hcomma]
  simp [hcolon, hopen, hclose, hcomma]

theorem kind?_of_read_eq_error {p : Piece} {pos : Nat} {e : ScanError}
    (h : p.read pos = .error e) : p.kind? = none := by
  cases hk : p.kind? with
  | none => rfl
  | some k =>
    rw [read_of_kind? hk] at h
    cases h

end Token

theorem Text.stray_word_iff {first : Char} {rest cs : List Char}
    (hw : ∀ c ∈ first :: rest, isWordChar c = true) (hb : Breaks cs) :
    Stray first (rest ++ cs) ↔ Token.Kind.ofWord? (first :: rest) = none := by
  have hfirst := hw first (by simp)
  have hword := takeWhile_isWordChar_append hw hb
  rw [List.cons_append] at hword
  rw [Token.Kind.ofWord?_eq_none_iff, Stray, hword]
  simp [hfirst, isBlank_of_isWordChar first hfirst]

theorem Text.stray_mark_iff {c : Char} (hw : isWordChar c = false) (hb : isBlank c = false)
    (cs : List Char) : Stray c cs ↔ Token.Kind.ofMark? c = none := by
  rw [Token.Kind.ofMark?_eq_none_iff, Stray]
  simp [hw, hb]

theorem Token.scanFrom_cons_of_read_eq_error {pos : Nat} {p : Piece} {e : ScanError}
    (h : p.read pos = .error e) (ps : List Piece) : scanFrom pos (p :: ps) = .error e := by
  rw [scanFrom_cons, h]
  rfl

theorem Token.scanFrom_stray {c : Char} {after : List Char} (h : Stray c after) (pos : Nat) :
    scanFrom pos (pieces (c :: after)) = .error (.unknownCharacter c
      { offset := UInt32.ofNat pos, length := UInt32.ofNat c.utf8Size }) := by
  by_cases hw : isWordChar c = true
  · obtain ⟨rest, cs, rfl, hword, hb⟩ := exists_word hw after
    rw [← List.cons_append, pieces_word_append hword hb]
    apply scanFrom_cons_of_read_eq_error
    have hk : (Piece.word c rest).kind? = none := (stray_word_iff hword hb).mp h
    simp [Piece.read, hk, Piece.first]
  · have hw : isWordChar c = false := Bool.eq_false_iff.mpr hw
    rw [pieces_mark_cons hw h.1]
    apply scanFrom_cons_of_read_eq_error
    have hk : (Piece.mark c).kind? = none := (stray_mark_iff hw h.1 after).mp h
    simp [Piece.read, hk, Piece.first]

/-- The text up to `before` can be scanned, and no word connects it with the stray `c`. -/
structure FailsAt (start : Nat) (source before : List Char) (c : Char) (after : List Char) :
    Prop where
  source_eq : source = before ++ c :: after
  apart : Apart before (c :: after)
  scans : ∃ ts, Token.scanFrom start (pieces before) = .ok ts
  stray : Stray c after

namespace FailsAt

variable {start : Nat} {source before a cs after : List Char} {c : Char}

theorem start_of_stray (h : Stray c after) : FailsAt start (c :: after) [] c after where
  source_eq := rfl
  apart := by simp [Apart]
  scans := ⟨[], rfl⟩
  stray := h

theorem append (h : FailsAt (start + byteSize a) cs before c after) (ha : Apart a cs)
    (hscan : ∃ ts, Token.scanFrom start (pieces a) = .ok ts) :
    FailsAt start (a ++ cs) (a ++ before) c after where
  source_eq := by rw [h.source_eq, List.append_assoc]
  apart := by
    rw [h.source_eq] at ha
    exact ha.append h.apart
  scans := by
    rw [h.source_eq] at ha
    obtain ⟨ts, hts⟩ := hscan
    obtain ⟨us, hus⟩ := h.scans
    refine ⟨ts ++ us, ?_⟩
    rw [pieces_append ha.of_append_right, Token.scanFrom_append, chars_pieces, hts, hus]
    rfl
  stray := h.stray

/-- Scanning stops at the stray character, wherever the text that scans comes from. -/
theorem scanFrom_eq (h : FailsAt start source before c after) :
    Token.scanFrom start (pieces source) = .error (.unknownCharacter c
      { offset := UInt32.ofNat (start + byteSize before), length := UInt32.ofNat c.utf8Size }) := by
  obtain ⟨ts, hts⟩ := h.scans
  rw [h.source_eq, pieces_append h.apart, Token.scanFrom_append, chars_pieces, hts,
    Token.scanFrom_stray h.stray]
  rfl

theorem exists_append {p : Piece} {e : ScanError} (hp : pieces a = [p]) (hapart : Apart a cs)
    (hfault : ∀ e, p.read start = .error e → ∃ c after, a ++ cs = c :: after ∧ Stray c after)
    (ih : ∀ e, Token.scanFrom (start + byteSize a) (pieces cs) = .error e →
      ∃ before c after, FailsAt (start + byteSize a) cs before c after)
    (h : Token.scanFrom start (pieces (a ++ cs)) = .error e) :
    ∃ before c after, FailsAt start (a ++ cs) before c after := by
  rw [pieces_append hapart, Token.scanFrom_append, chars_pieces, bind_eq_error_iff] at h
  obtain h | ⟨ts, hts, h⟩ := h
  · rw [hp] at h
    obtain h | h := Token.scanFrom_cons_eq_error h
    · obtain ⟨c, after, hsource, hstray⟩ := hfault e h
      rw [hsource]
      exact ⟨[], c, after, .start_of_stray hstray⟩
    · cases h
  · obtain h | ⟨us, _, h⟩ := (bind_eq_error_iff ..).mp h
    · obtain ⟨before, c, after, hfails⟩ := ih e h
      exact ⟨a ++ before, c, after, hfails.append hapart ⟨ts, hts⟩⟩
    · cases h

end FailsAt

theorem exists_failsAt_of_scanFrom_eq_error {start : Nat} {source : List Char} {e : ScanError}
    (h : Token.scanFrom start (pieces source) = .error e) :
    ∃ before c after, FailsAt start source before c after := by
  -- the first piece is at fault, or it scans and joins what scans before the fault
  induction source using pieces_induction generalizing start e with
  | nil => cases h
  | blank c cs hc ih =>
    have hw := isWordChar_of_isBlank hc
    refine FailsAt.exists_append (a := [c]) (p := .blank c) (pieces_blank_cons hc []) ?_ ?_
      (fun e => ih) h
    · exact apart_of_not_isWordChar hw cs
    · intro e he
      cases he
  | word first rest cs hw hb ih =>
    refine FailsAt.exists_append (a := first :: rest) (p := .word first rest) ?_ ?_ ?_
      (fun e => ih) h
    · simpa using pieces_word_append hw breaks_nil
    · exact apart_of_breaks hb
    · intro e he
      exact ⟨first, rest ++ cs, rfl, (stray_word_iff hw hb).mpr (Token.kind?_of_read_eq_error he)⟩
  | mark c cs hw hb ih =>
    refine FailsAt.exists_append (a := [c]) (p := .mark c) (pieces_mark_cons hw hb []) ?_ ?_
      (fun e => ih) h
    · exact apart_of_not_isWordChar hw cs
    · intro e he
      exact ⟨c, cs, rfl, (stray_mark_iff hw hb cs).mpr (Token.kind?_of_read_eq_error he)⟩

namespace Token

/-- Scanning fails exactly at the first character that starts no token, and names it. -/
theorem scan_fails_exactly_at_a_stray_character (source : String)
    (hsize : source.utf8ByteSize ≤ 4294967295) (c : Char) (span : Span) :
    scan source.toList = .error (.unknownCharacter c span) ↔
      ∃ before after, source.toList = before ++ c :: after ∧
        span.offset.toNat = byteSize before ∧ span.length.toNat = c.utf8Size ∧
        isBlank c = false ∧ (∃ ts, scan before = .ok ts) ∧
        (∀ d, before.getLast? = some d → ¬ (isWordChar d = true ∧ isWordChar c = true)) ∧
        (isWordChar c = false ∧ c ∉ [':', '(', ')', ','] ∨
          isWordChar c = true ∧
            ¬ (∀ d ∈ (c :: after).takeWhile isWordChar, d.isAlpha = true) ∧
            ¬ ∀ d ∈ (c :: after).takeWhile isWordChar, d.isDigit = true) := by
  have hsize : byteSize source.toList ≤ maxSourceSize := (byteSize_toList source).trans_le hsize
  rw [scan_eq_scanFrom hsize]
  refine ⟨fun h => ?_, fun h => ?_⟩
  · obtain ⟨before, d, after, hfails⟩ := exists_failsAt_of_scanFrom_eq_error h
    have heq := h.symm.trans hfails.scanFrom_eq
    obtain ⟨rfl, rfl⟩ := ScanError.unknownCharacter.inj (Except.error.inj heq)
    rw [hfails.source_eq, byteSize_append, byteSize_cons] at hsize
    refine ⟨before, after, hfails.source_eq, ?_, ?_, hfails.stray.1, ?_, ?_, hfails.stray.2⟩
    · rw [Nat.zero_add]
      exact toNat_ofNat_of_le (by omega)
    · exact toNat_ofNat_of_le (by omega)
    · rw [scan_eq_scanFrom (by omega)]
      exact hfails.scans
    · intro d hd
      exact hfails.apart d c hd rfl
  · obtain ⟨before, after, hsource, hoff, hlen, hblank, hscan, hapart, hstray⟩ := h
    rw [hsource, byteSize_append] at hsize
    rw [scan_eq_scanFrom (by omega)] at hscan
    have hfails : FailsAt 0 source.toList before c after :=
      { source_eq := hsource
        apart := by
          intro d c' hd hc
          obtain rfl := Option.some.inj hc
          exact hapart d hd
        scans := hscan
        stray := ⟨hblank, hstray⟩ }
    rw [hfails.scanFrom_eq, Nat.zero_add, ← hoff, ← hlen]
    simp

/-- A digit that an underscore follows, behind a wide blank and a mark. -/
theorem scan_fails_at_mixed_word :
    "x\u3000(1_".utf8ByteSize ≤ 4294967295 ∧
      scan "x\u3000(1_".toList = .error (.unknownCharacter '1' ⟨5, 1⟩) := by
  have hsize : "x\u3000(1_".utf8ByteSize ≤ 4294967295 := by decide
  refine ⟨hsize, (scan_fails_exactly_at_a_stray_character _ hsize '1' ⟨5, 1⟩).mpr ?_⟩
  have hword : ['1', '_'].takeWhile isWordChar = ['1', '_'] := rfl
  refine ⟨['x', '\u3000', '('], ['_'], rfl, rfl, rfl, by decide, ⟨_, rfl⟩, ?_, .inr ⟨rfl, ?_⟩⟩
  · intro d hd
    obtain rfl : '(' = d := by simpa using hd
    decide
  · rw [hword]
    exact ⟨fun h => absurd (h '1' (by simp)) (by decide),
      fun h => absurd (h '_' (by simp)) (by decide)⟩

end Token

end DefLang
