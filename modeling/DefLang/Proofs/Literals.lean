import DefLang.Proofs.Recompilation

namespace DefLang
open Text

namespace Text

/-- The number that a numeral stands for. -/
def value (digits : List Char) : Nat :=
  Nat.ofDigitChars 10 digits 0

theorem digitChar_of_isDigit {c : Char} (h : c.isDigit = true) :
    c.toNat - '0'.toNat < 10 ∧ (c.toNat - '0'.toNat).digitChar = c := by
  have hrange : 48 ≤ c.toNat ∧ c.toNat ≤ 57 := Char.isDigit_iff_toNat.mp h
  have hzero : '0'.toNat = 48 := rfl
  have hlt : c.toNat - '0'.toNat < 10 := by omega
  refine ⟨hlt, Char.toNat_inj.mp ?_⟩
  rw [Nat.toNat_digitChar_of_lt_ten hlt]
  omega

/-- Digits after a numeral of a positive number make it longer. -/
theorem toDigits_append_digits {n : Nat} (hn : 0 < n) {digits : List Char}
    (hdigits : ∀ c ∈ digits, c.isDigit = true) :
    Nat.toDigits 10 n ++ digits = Nat.toDigits 10 (Nat.ofDigitChars 10 digits n) := by
  induction digits generalizing n with
  | nil => simp
  | cons c digits ih =>
    obtain ⟨hlt, hc⟩ := digitChar_of_isDigit (hdigits c (by simp))
    have hone := Nat.toDigits_append_toDigits (by decide) hn hlt
    rw [Nat.toDigits_of_lt_base hlt, hc] at hone
    have hrest := ih (n := 10 * n + (c.toNat - '0'.toNat)) (by omega)
      fun d hd => hdigits d (List.mem_cons_of_mem c hd)
    rw [Nat.ofDigitChars_cons, ← hrest, ← hone, List.append_assoc, List.singleton_append]

theorem toDigits_value_of_isNormal {digits : List Char} (h : IsNumeral digits)
    (hnormal : IsNormal digits) : Nat.toDigits 10 (value digits) = digits := by
  obtain rfl | ⟨hne, hhead⟩ := hnormal
  · rfl
  · obtain ⟨c, cs, rfl⟩ := List.exists_cons_of_ne_nil hne
    have hdigit := h.2 c (by simp)
    obtain ⟨hlt, hc⟩ := digitChar_of_isDigit hdigit
    have hpos : 0 < c.toNat - '0'.toNat := by
      have hle : '0'.toNat ≤ c.toNat := (Char.isDigit_iff_toNat.mp hdigit).1
      have hne : c.toNat ≠ '0'.toNat := fun he => hhead (by simp [Char.toNat_inj.mp he])
      omega
    have hlong := toDigits_append_digits hpos fun d hd => h.2 d (List.mem_cons_of_mem c hd)
    rw [Nat.toDigits_of_lt_base hlt, hc, List.singleton_append] at hlong
    rw [value, Nat.ofDigitChars_cons, Nat.mul_zero, Nat.zero_add, ← hlong]

theorem value_unpadded (digits : List Char) : value (unpadded digits) = value digits := by
  have hdrop : value (digits.dropWhile (· == '0')) = value digits := by
    induction digits with
    | nil => rfl
    | cons c digits ih =>
      by_cases hc : c = '0'
      · subst hc
        rw [List.dropWhile_cons_of_pos rfl, ih]
        rfl
      · rw [List.dropWhile_cons_of_neg (by simpa using hc)]
  unfold unpadded
  split
  next hall =>
    have hnil : digits.dropWhile (· == '0') = [] := by simpa using hall
    rw [← hdrop, hnil]
    rfl
  next => exact hdrop

/-- Taking away the zeros in front leaves the one numeral that the number itself has. -/
theorem toDigits_value {digits : List Char} (h : IsNumeral digits) :
    Nat.toDigits 10 (value digits) = unpadded digits := by
  rw [← value_unpadded]
  exact toDigits_value_of_isNormal (isNumeral_unpadded h) (isNormal_unpadded digits)

/-- The maximal runs of digits, from left to right: what other characters leave between them. -/
def digitRuns (cs : List Char) : List (List Char) :=
  (cs.splitOnP fun c => !c.isDigit).filter fun run => run ≠ []

@[simp] theorem digitRuns_nil : digitRuns [] = [] := by
  simp [digitRuns, List.splitOnP_nil]

variable {a b : List Char} {c : Char}

theorem digitRuns_append_cons (h : c.isDigit = false) (a b : List Char) :
    digitRuns (a ++ c :: b) = digitRuns a ++ digitRuns b := by
  unfold digitRuns
  rw [List.splitOnP_append_cons a b (by simp [h]), List.filter_append]

theorem digitRuns_cons (h : c.isDigit = false) (b : List Char) :
    digitRuns (c :: b) = digitRuns b := by
  simpa using digitRuns_append_cons h [] b

theorem digitRuns_append_left (h : ∀ c ∈ a, c.isDigit = false) (b : List Char) :
    digitRuns (a ++ b) = digitRuns b := by
  induction a with
  | nil => rfl
  | cons c a ih =>
    rw [List.cons_append, digitRuns_cons (h c (by simp))]
    exact ih fun d hd => h d (List.mem_cons_of_mem c hd)

theorem digitRuns_append_right (a : List Char) (h : ∀ c ∈ b, c.isDigit = false) :
    digitRuns (a ++ b) = digitRuns a := by
  cases b with
  | nil => rw [List.append_nil]
  | cons c b =>
    have hb := digitRuns_append_left (fun d hd => h d (List.mem_cons_of_mem c hd)) []
    rw [List.append_nil] at hb
    rw [digitRuns_append_cons (h c (by simp)), hb, digitRuns_nil, List.append_nil]

theorem not_isDigit_of_all (h : a.all (fun c => !c.isDigit) = true) :
    ∀ c ∈ a, c.isDigit = false := by
  simpa using h

theorem not_isDigit_of_not_isWordChar (h : isWordChar c = false) : c.isDigit = false := by
  apply Bool.eq_false_iff.mpr
  intro hd
  simp [isWordChar, Char.isAlphanum, hd] at h

theorem digitRuns_numeral_append (h : IsNumeral a) (hb : Breaks b) :
    digitRuns (a ++ b) = a :: digitRuns b := by
  have ha : digitRuns a = [a] := by
    rw [digitRuns, List.splitOnP_eq_singleton fun c hc => by simp [h.2 c hc]]
    simp [h.1]
  cases b with
  | nil => rw [List.append_nil, ha, digitRuns_nil]
  | cons c b =>
    have hc := not_isDigit_of_not_isWordChar ((breaks_cons c b).mp hb)
    rw [digitRuns_append_cons hc, ha, digitRuns_cons hc, List.singleton_append]

end Text

theorem Token.Kind.Fits.not_isDigit {k : Token.Kind} {cs : List Char} (h : k.Fits cs)
    (hk : k ≠ .integer) : ∀ c ∈ cs, c.isDigit = false := by
  intro c hc
  cases k with
  | integer => exact (hk rfl).elim
  | identifier =>
    apply Bool.eq_false_iff.mpr
    intro hd
    have ha := h.2.1 c hc
    rw [not_isAlpha_of_isDigit hd] at ha
    cases ha
  | endOfInput => exact h.elim
  | _ =>
    obtain rfl := h
    exact not_isDigit_of_all rfl c hc

/-- The runs of digits in a source are its integers: no other token holds a digit, and no two of
them touch. -/
theorem LaidOut.digitRuns_eq {start : Nat} {gaps : Nat → List Char} {source : List Char}
    {ts : List Token} (h : LaidOut start gaps source ts) :
    digitRuns source = (ts.map Token.text).filter IsNumeral := by
  have hgap (i : Nat) : ∀ c ∈ gaps i, c.isDigit = false :=
    fun c hc => not_isDigit_of_not_isWordChar (isWordChar_of_isBlank (h.blank i c hc))
  induction ts generalizing start gaps source with
  | nil =>
    have hrest := digitRuns_append_left (hgap 0) []
    rw [List.append_nil] at hrest
    rw [((nil_iff ..).mp h).2, hrest]
    rfl
  | cons t ts ih =>
    obtain ⟨_, hfits, _, _, rest, rfl, hb, hrest⟩ := (cons_iff ..).mp h
    have htail := ih hrest fun i => hgap (i + 1)
    rw [List.append_assoc, digitRuns_append_left (hgap 0), List.map_cons]
    by_cases hk : t.kind = .integer
    · rw [hk] at hfits hb
      have hn : IsNumeral t.text := hfits
      rw [digitRuns_numeral_append hn (hb trivial), htail,
        List.filter_cons_of_pos (by simpa using hn)]
    · have hn : ¬ IsNumeral t.text := by
        intro hn
        have hint : Token.Kind.integer.Fits t.text := hn
        exact hk (hfits.kind_eq hint)
      rw [digitRuns_append_left (hfits.not_isDigit hk), htail,
        List.filter_cons_of_neg (by simpa using hn)]

theorem Text.isNumeral_stripped_iff (v : List Char) : IsNumeral (stripped v) ↔ IsNumeral v := by
  unfold stripped
  split
  next h => exact ⟨fun _ => h, fun _ => isNumeral_unpadded h⟩
  next => rfl

namespace Source.Program

theorem texts_trim (p : Program) : p.trim.texts = p.texts.map stripped := by
  have hdef : stripped ['d', 'e', 'f'] = ['d', 'e', 'f'] := by decide
  have hcolon : stripped [':'] = [':'] := by decide
  simp [texts, trim, Expression.texts_trim, map_intercalate, Name.stripped_text, stripped_marks,
    hdef, hcolon, Function.comp_def]

theorem not_isDigit_of_mem_opening (p : Program) : ∀ c ∈ p.opening.toList, c.isDigit = false := by
  intro c hc
  obtain ha | rfl | rfl := p.cases_of_mem_opening hc
  · apply Bool.eq_false_iff.mpr
    intro hd
    rw [Token.not_isAlpha_of_isDigit hd] at ha
    cases ha
  · rfl
  · rfl

/-- All digits of a script are in its body. -/
theorem digitRuns_script (p : Program) :
    digitRuns p.script.toList = digitRuns p.body.script.toList := by
  have hopening := p.not_isDigit_of_mem_opening
  have hfunction : ∀ c ∈ "function ".toList, c.isDigit = false := not_isDigit_of_all rfl
  have hreturn : ∀ c ∈ ") \x7breturn ".toList, c.isDigit = false := not_isDigit_of_all rfl
  have hend : ∀ c ∈ "\x7d;".toList, c.isDigit = false := not_isDigit_of_all rfl
  rw [script_eq, String.toList_append, digitRuns_append_right _ hend]
  simp only [String.toList_append, List.append_assoc]
  rw [digitRuns_append_left hfunction, digitRuns_append_left hopening,
    digitRuns_append_left hreturn]

theorem digitRuns_canonical (p : Program) :
    digitRuns p.canonical.toList = digitRuns p.body.script.toList := by
  have hopening := p.not_isDigit_of_mem_opening
  have hdef : ∀ c ∈ "def ".toList, c.isDigit = false := not_isDigit_of_all rfl
  have hcolon : ∀ c ∈ "):".toList, c.isDigit = false := not_isDigit_of_all rfl
  rw [canonical]
  simp only [String.toList_append, List.append_assoc]
  rw [digitRuns_append_left hdef, digitRuns_append_left hopening, digitRuns_append_left hcolon]

end Source.Program

/-- Every numeral of a source is in its script, in the same order and with the same value, and is
written there as the number itself is. -/
theorem numerals_keep_their_values (source script : String) (h : compile source = .ok script) :
    digitRuns script.toList =
        (digitRuns source.toList).map (fun run => Nat.toDigits 10 (value run)) ∧
      ∀ run ∈ digitRuns script.toList, IsNormal run := by
  obtain ⟨p, ts, gaps, hscan, _, hlaid, hgap, hp, _, rfl⟩ := exists_program_of_compile h
  have hsource : source.toList = weave gaps p.texts := by rw [hlaid.source_eq, hp.1]
  have hsize : byteSize p.canonical.toList ≤ maxSourceSize := by
    have hle := Token.byteSize_le_of_scan_eq_ok hscan
    rw [hsource] at hle
    exact (p.byteSize_canonical_le hgap).trans hle
  -- the canonical source is laid out too, with the same numerals less their zeros
  rw [Source.Program.toList_canonical] at hsize
  obtain ⟨us, hus, hcanonical⟩ :=
    p.trim.exists_laidOut Source.Program.isBlank_oneSpace (List.cons_ne_nil _ _) hsize
  have hscript : digitRuns p.script.toList = (p.texts.map stripped).filter IsNumeral := by
    rw [p.digitRuns_script, ← p.digitRuns_canonical, p.toList_canonical, hcanonical.digitRuns_eq,
      hus.1, p.texts_trim]
  have hnumerals : p.texts.filter ((fun v => decide (IsNumeral v)) ∘ stripped) =
      p.texts.filter IsNumeral :=
    List.filter_congr fun v _ => decide_eq_decide.mpr (isNumeral_stripped_iff v)
  have hwritten : ∀ v ∈ p.texts.filter IsNumeral,
      stripped v = Nat.toDigits 10 (value v) ∧ IsNormal (stripped v) := by
    intro v hv
    have hn : IsNumeral v := of_decide_eq_true (List.mem_filter.mp hv).2
    rw [toDigits_value hn, stripped, if_pos hn]
    exact ⟨rfl, isNormal_unpadded v⟩
  rw [hscript, hlaid.digitRuns_eq, hp.1, List.filter_map, hnumerals]
  refine ⟨List.map_congr_left fun v hv => (hwritten v hv).1, fun run hrun => ?_⟩
  obtain ⟨v, hv, rfl⟩ := List.mem_map.mp hrun
  exact (hwritten v hv).2

theorem numerals_keep_padded_values :
    compile "def f(x): g(007, h(00,12))" = .ok "function f(x) \x7breturn g(7,h(0,12))\x7d;" ∧
      digitRuns "function f(x) \x7breturn g(7,h(0,12))\x7d;".toList =
        (digitRuns "def f(x): g(007, h(00,12))".toList).map
          (fun run => Nat.toDigits 10 (value run)) ∧
      ∀ run ∈ digitRuns "function f(x) \x7breturn g(7,h(0,12))\x7d;".toList, IsNormal run := by
  have hscript : compile "def f(x): g(007, h(00,12))" =
      .ok "function f(x) \x7breturn g(7,h(0,12))\x7d;" := by decide +kernel
  exact ⟨hscript, numerals_keep_their_values _ _ hscript⟩

end DefLang
