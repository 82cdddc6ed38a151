import DefLang.Proofs.Attempt
import DefLang.Proofs.Pieces
import DefLang.Token.Scanner

namespace DefLang
open Text

/-- A word of letters that is not the keyword. -/
def IsName (cs : List Char) : Prop :=
  cs ≠ [] ∧ (∀ c ∈ cs, c.isAlpha = true) ∧ cs ≠ ['d', 'e', 'f']

def IsNumeral (cs : List Char) : Prop :=
  cs ≠ [] ∧ ∀ c ∈ cs, c.isDigit = true

instance (cs : List Char) : Decidable (IsName cs) :=
  decidable_of_iff (cs ≠ [] ∧ cs.all Char.isAlpha = true ∧ cs ≠ ['d', 'e', 'f'])
    (by simp [IsName])

instance (cs : List Char) : Decidable (IsNumeral cs) :=
  decidable_of_iff (cs ≠ [] ∧ cs.all Char.isDigit = true) (by simp [IsNumeral])

namespace Token

def text (t : Token) : List Char :=
  t.value.toList

/-- The texts that a token of each kind may have. No text stands for the end of the input. -/
def Kind.Fits : Kind → List Char → Prop
  | defKeyword, cs => cs = ['d', 'e', 'f']
  | identifier, cs => IsName cs
  | integer, cs => IsNumeral cs
  | colon, cs => cs = [':']
  | openParen, cs => cs = ['(']
  | closeParen, cs => cs = [')']
  | comma, cs => cs = [',']
  | endOfInput, _ => False

/-- The kinds whose texts end only where no word character follows. -/
def Kind.IsWord : Kind → Prop
  | defKeyword | identifier | integer => True
  | _ => False

theorem not_isAlpha_of_isDigit {c : Char} (h : c.isDigit = true) : c.isAlpha = false := by
  have hdigit : c.toNat ≤ 57 := (Char.isDigit_iff_toNat.mp h).2
  apply Bool.eq_false_iff.mpr
  intro ha
  obtain hu | hl := Bool.or_eq_true_iff.mp ha
  · have hle : 65 ≤ c.toNat := UInt32.le_iff_toNat_le.mp (of_decide_eq_true hu).1
    omega
  · have hle : 97 ≤ c.toNat :=
      UInt32.le_iff_toNat_le.mp (of_decide_eq_true (Bool.and_eq_true_iff.mp hl).1)
    omega

theorem Kind.ofWord?_eq_some_iff {cs : List Char} (hne : cs ≠ []) (k : Kind) :
    Kind.ofWord? cs = some k ↔ k.IsWord ∧ k.Fits cs := by
  unfold Kind.ofWord?
  by_cases hd : cs = ['d', 'e', 'f']
  · subst hd
    cases k <;> simp [Kind.IsWord, Kind.Fits, IsName, IsNumeral]
  by_cases ha : ∀ c ∈ cs, c.isAlpha = true
  · have hn : ¬ ∀ c ∈ cs, c.isDigit = true := by
      intro hn
      obtain ⟨c, hc⟩ := List.exists_mem_of_ne_nil cs hne
      have hca := ha c hc
      rw [not_isAlpha_of_isDigit (hn c hc)] at hca
      cases hca
    cases k <;> simp [Kind.IsWord, Kind.Fits, IsName, IsNumeral, hd, hne, hn]
  · cases k <;> simp [Kind.IsWord, Kind.Fits, IsName, IsNumeral, hd, hne, ha]

theorem Kind.ofMark?_eq_some_iff (c : Char) (k : Kind) :
    Kind.ofMark? c = some k ↔ ¬ k.IsWord ∧ k.Fits [c] := by
  unfold Kind.ofMark?
  cases k <;> simp [Kind.IsWord, Kind.Fits] <;> grind

theorem Kind.Fits.ne_nil {k : Kind} {cs : List Char} (h : k.Fits cs) : cs ≠ [] := by
  cases k with
  | identifier => exact h.1
  | integer => exact h.1
  | endOfInput => exact h.elim
  | _ => exact h ▸ List.cons_ne_nil _ _

theorem Kind.Fits.isWordChar {k : Kind} {cs : List Char} (h : k.Fits cs) (hw : k.IsWord) :
    ∀ c ∈ cs, Text.isWordChar c = true := by
  cases k with
  | defKeyword =>
    obtain rfl := h
    exact List.all_eq_true.mp rfl
  | identifier => exact fun c hc => by simp [Text.isWordChar, Char.isAlphanum, h.2.1 c hc]
  | integer => exact fun c hc => by simp [Text.isWordChar, Char.isAlphanum, h.2 c hc]
  | _ => exact hw.elim

theorem Kind.Fits.exists_mark {k : Kind} {cs : List Char} (h : k.Fits cs) (hw : ¬ k.IsWord) :
    ∃ c, cs = [c] ∧ Text.isWordChar c = false ∧ isBlank c = false := by
  cases k with
  | colon => exact ⟨':', h, by decide, by decide⟩
  | openParen => exact ⟨'(', h, by decide, by decide⟩
  | closeParen => exact ⟨')', h, by decide, by decide⟩
  | comma => exact ⟨',', h, by decide, by decide⟩
  | endOfInput => exact h.elim
  | _ => exact (hw trivial).elim

theorem Kind.Fits.not_isBlank {k : Kind} {cs : List Char} (h : k.Fits cs) :
    ∀ c ∈ cs, isBlank c = false := by
  intro c hc
  by_cases hw : k.IsWord
  · exact isBlank_of_isWordChar c (h.isWordChar hw c hc)
  · obtain ⟨d, rfl, _, hb⟩ := h.exists_mark hw
    obtain rfl := List.mem_singleton.mp hc
    exact hb

theorem Kind.Fits.not_breaks {k : Kind} {cs : List Char} (h : k.Fits cs) (hw : k.IsWord) :
    ¬ Breaks cs := by
  obtain ⟨c, cs, rfl⟩ := List.exists_cons_of_ne_nil h.ne_nil
  simp [h.isWordChar hw c (by simp)]

/-- The text of a token determines its kind. -/
theorem Kind.Fits.kind_eq {k k' : Kind} {cs : List Char} (h : k.Fits cs) (h' : k'.Fits cs) :
    k = k' := by
  by_cases hw : k.IsWord
  · by_cases hw' : k'.IsWord
    · have hk := (Kind.ofWord?_eq_some_iff h.ne_nil k).mpr ⟨hw, h⟩
      have hk' := (Kind.ofWord?_eq_some_iff h.ne_nil k').mpr ⟨hw', h'⟩
      exact Option.some.inj (hk.symm.trans hk')
    · obtain ⟨c, rfl, hc, _⟩ := h'.exists_mark hw'
      exact (h.not_breaks hw (by simpa using hc)).elim
  · obtain ⟨c, rfl, hc, _⟩ := h.exists_mark hw
    have hw' : ¬ k'.IsWord := fun hw' => h'.not_breaks hw' (by simpa using hc)
    have hk := (Kind.ofMark?_eq_some_iff c k).mpr ⟨hw, h⟩
    have hk' := (Kind.ofMark?_eq_some_iff c k').mpr ⟨hw', h'⟩
    exact Option.some.inj (hk.symm.trans hk')

/-- A text that fits a kind is one piece of the source, unless a word goes on after it. -/
theorem Kind.Fits.exists_piece {k : Kind} {cs rest : List Char} (h : k.Fits cs)
    (hb : k.IsWord → Breaks rest) :
    ∃ p : Piece, pieces (cs ++ rest) = p :: pieces rest ∧ p.chars = cs ∧ p.kind? = some k := by
  by_cases hw : k.IsWord
  · obtain ⟨first, cs, rfl⟩ := List.exists_cons_of_ne_nil h.ne_nil
    exact ⟨.word first cs, pieces_word_append (h.isWordChar hw) (hb hw), rfl,
      (Kind.ofWord?_eq_some_iff (List.cons_ne_nil _ _) k).mpr ⟨hw, h⟩⟩
  · obtain ⟨c, rfl, hc, hblank⟩ := h.exists_mark hw
    exact ⟨.mark c, pieces_mark_cons hc hblank rest, rfl,
      (Kind.ofMark?_eq_some_iff c k).mpr ⟨hw, h⟩⟩

end Token

/-- `w₀ v₀ w₁ v₁ … vₙ₋₁ wₙ` for the gaps `w` and the texts `v`. -/
def weave (gaps : Nat → List Char) : List (List Char) → List Char
  | [] => gaps 0
  | v :: vs => gaps 0 ++ v ++ weave (fun i => gaps (i + 1)) vs

/-- The source, whose first character is at byte `start`, is the tokens' texts with blanks before,
between and after them. Each token stands where its span says, and none ends inside a word. -/
structure LaidOut (start : Nat) (gaps : Nat → List Char) (source : List Char)
    (tokens : List Token) : Prop where
  blank : ∀ i, ∀ c ∈ gaps i, isBlank c = true
  source_eq : source = weave gaps (tokens.map Token.text)
  fits : ∀ t ∈ tokens, t.kind.Fits t.text
  offset_eq : ∀ i t, tokens[i]? = some t →
    t.span.offset.toNat = start + byteSize (weave gaps ((tokens.take i).map Token.text))
  length_eq : ∀ t ∈ tokens, t.span.length.toNat = byteSize t.text
  breaks : ∀ i t, tokens[i]? = some t → t.kind.IsWord →
    Breaks (weave (fun j => gaps (j + (i + 1))) ((tokens.drop (i + 1)).map Token.text))

namespace LaidOut

theorem nil_iff (start : Nat) (gaps : Nat → List Char) (source : List Char) :
    LaidOut start gaps source [] ↔
      (∀ i, ∀ c ∈ gaps i, isBlank c = true) ∧ source = gaps 0 := by
  refine ⟨fun h => ⟨h.blank, h.source_eq⟩, fun h => ⟨h.1, h.2, ?_, ?_, ?_, ?_⟩⟩ <;> simp

/-- The first token stands after the first gap, and the others are laid out after it. -/
theorem cons_iff (start : Nat) (gaps : Nat → List Char) (source : List Char) (t : Token)
    (ts : List Token) :
    LaidOut start gaps source (t :: ts) ↔
      (∀ c ∈ gaps 0, isBlank c = true) ∧ t.kind.Fits t.text ∧
        t.span.offset.toNat = start + byteSize (gaps 0) ∧
        t.span.length.toNat = byteSize t.text ∧
        ∃ rest, source = gaps 0 ++ t.text ++ rest ∧ (t.kind.IsWord → Breaks rest) ∧
          LaidOut (start + byteSize (gaps 0) + byteSize t.text) (fun i => gaps (i + 1)) rest
            ts := by
  refine ⟨fun h => ?_, fun h => ?_⟩
  · refine ⟨h.blank 0, h.fits t (by simp), h.offset_eq 0 t rfl, h.length_eq t (by simp),
      weave (fun i => gaps (i + 1)) (ts.map Token.text), h.source_eq, h.breaks 0 t rfl, ?_⟩
    refine ⟨fun i => h.blank (i + 1), rfl, fun u hu => h.fits u (List.mem_cons_of_mem t hu),
      fun i u hu => ?_, fun u hu => h.length_eq u (List.mem_cons_of_mem t hu),
      fun i u hu => h.breaks (i + 1) u hu⟩
    rw [h.offset_eq (i + 1) u hu]
    simp [weave, Nat.add_assoc]
  · obtain ⟨hblank, hfits, hoff, hlen, rest, rfl, hbr, hrest⟩ := h
    refine ⟨?_, ?_, ?_, ?_, ?_, ?_⟩
    · intro i
      cases i with
      | zero => exact hblank
      | succ i => exact hrest.blank i
    · rw [hrest.source_eq]
      rfl
    · intro u hu
      obtain rfl | hu := List.mem_cons.mp hu
      · exact hfits
      · exact hrest.fits u hu
    · intro i u hu
      cases i with
      | zero =>
        obtain rfl := Option.some.inj hu
        exact hoff
      | succ i =>
        rw [hrest.offset_eq i u hu]
        simp [weave, Nat.add_assoc]
    · intro u hu
      obtain rfl | hu := List.mem_cons.mp hu
      · exact hlen
      · exact hrest.length_eq u hu
    · intro i u hu hw
      cases i with
      | zero =>
        obtain rfl := Option.some.inj hu
        have hb := hbr hw
        rw [hrest.source_eq] at hb
        exact hb
      | succ i => exact hrest.breaks i u hu hw

theorem cons_blank {start : Nat} {gaps : Nat → List Char} {c : Char} {cs : List Char}
    {ts : List Token} (hc : isBlank c = true) (h : LaidOut (start + c.utf8Size) gaps cs ts) :
    LaidOut start (fun | 0 => c :: gaps 0 | i + 1 => gaps (i + 1)) (c :: cs) ts := by
  have hfirst : ∀ d ∈ c :: gaps 0, isBlank d = true := by
    intro d hd
    obtain rfl | hd := List.mem_cons.mp hd
    · exact hc
    · exact h.blank 0 d hd
  cases ts with
  | nil =>
    rw [nil_iff] at h ⊢
    refine ⟨fun i => ?_, by rw [h.2]⟩
    cases i with
    | zero => exact hfirst
    | succ i => exact h.1 (i + 1)
  | cons t ts =>
    rw [cons_iff] at h ⊢
    obtain ⟨_, hfits, hoff, hlen, rest, rfl, hb, hrest⟩ := h
    refine ⟨hfirst, hfits, by rw [hoff, byteSize_cons, Nat.add_assoc], hlen, rest, rfl, hb, ?_⟩
    simpa only [byteSize_cons, Nat.add_assoc] using hrest

end LaidOut

namespace Token

theorem scanFrom_cons_eq_ok_iff (pos : Nat) (p : Piece) (ps : List Piece) (ts : List Token) :
    scanFrom pos (p :: ps) = .ok ts ↔ ∃ found rest, p.read pos = .ok found ∧
      scanFrom (pos + p.size) ps = .ok rest ∧ ts = found.toList ++ rest := by
  simp only [scanFrom_cons, bind_eq_ok_iff]
  refine ⟨fun h => ?_, fun h => ?_⟩
  · obtain ⟨found, hfound, rest, hrest, hts⟩ := h
    exact ⟨found, rest, hfound, hrest, (Except.ok.inj hts).symm⟩
  · obtain ⟨found, rest, hfound, hrest, rfl⟩ := h
    exact ⟨found, hfound, rest, hrest, rfl⟩

/-- The token with text `cs` at byte `pos`. -/
def placed (k : Kind) (cs : List Char) (pos : Nat) : Token where
  kind := k
  value := String.ofList cs
  span := { offset := UInt32.ofNat pos, length := UInt32.ofNat (byteSize cs) }

@[simp] theorem text_placed (k : Kind) (cs : List Char) (pos : Nat) :
    (placed k cs pos).text = cs := by
  simp [text, placed]

theorem toNat_ofNat_of_le {n : Nat} (h : n ≤ maxSourceSize) : (UInt32.ofNat n).toNat = n :=
  UInt32.toNat_ofNat_of_lt' (Nat.lt_succ_of_le h)

theorem toNat_span_placed (k : Kind) {cs : List Char} {pos : Nat}
    (h : pos + byteSize cs ≤ maxSourceSize) :
    (placed k cs pos).span.offset.toNat = pos ∧
      (placed k cs pos).span.length.toNat = byteSize cs := by
  exact ⟨toNat_ofNat_of_le (Nat.le_of_add_right_le h), toNat_ofNat_of_le (Nat.le_of_add_left_le h)⟩

theorem placed_eq {t : Token} {pos : Nat} (hoff : t.span.offset.toNat = pos)
    (hlen : t.span.length.toNat = byteSize t.text) : placed t.kind t.text pos = t := by
  unfold placed
  rw [← hlen, ← hoff]
  simp [text]

theorem read_of_kind? {p : Piece} {k : Kind} (h : p.kind? = some k) (pos : Nat) :
    p.read pos = .ok (some (placed k p.chars pos)) := by
  cases p <;> simp_all [Piece.kind?, Piece.read, placed, Piece.size]

theorem exists_kind?_of_read {p : Piece} {pos : Nat} {found : Option Token}
    (hp : ∀ c, p ≠ .blank c) (h : p.read pos = .ok found) :
    ∃ k, p.kind? = some k ∧ found = some (placed k p.chars pos) := by
  cases hk : p.kind? with
  | none => cases p <;> simp_all [Piece.read]
  | some k =>
    rw [read_of_kind? hk] at h
    exact ⟨k, rfl, (Except.ok.inj h).symm⟩

theorem scanFrom_blank_append {w : List Char} (hw : ∀ c ∈ w, isBlank c = true) (pos : Nat)
    (cs : List Char) :
    scanFrom pos (pieces (w ++ cs)) = scanFrom (pos + byteSize w) (pieces cs) := by
  induction w generalizing pos with
  | nil => rfl
  | cons c w ih =>
    rw [List.cons_append, pieces_blank_cons (hw c (by simp)), scanFrom_cons]
    have htail := ih (fun d hd => hw d (List.mem_cons_of_mem c hd)) (pos + c.utf8Size)
    simp only [Piece.read, Piece.size, Piece.chars, byteSize_cons, byteSize_nil, Nat.add_zero]
    rw [htail, ← Nat.add_assoc]
    cases scanFrom (pos + c.utf8Size + byteSize w) (pieces cs) <;> rfl

end Token

theorem LaidOut.cons_placed {start : Nat} {gaps : Nat → List Char} {k : Token.Kind}
    {v cs : List Char} {ts : List Token} (hfits : k.Fits v)
    (hsize : start + byteSize v ≤ maxSourceSize) (hb : k.IsWord → Breaks cs)
    (h : LaidOut (start + byteSize v) gaps cs ts) :
    LaidOut start (fun | 0 => [] | i + 1 => gaps i) (v ++ cs) (Token.placed k v start :: ts) := by
  obtain ⟨hoff, hlen⟩ := Token.toNat_span_placed k hsize
  rw [cons_iff, Token.text_placed]
  exact ⟨by simp, hfits, hoff, hlen, cs, rfl, hb, h⟩

theorem LaidOut.scanFrom_eq {start : Nat} {gaps : Nat → List Char} {source : List Char}
    {ts : List Token} (h : LaidOut start gaps source ts) :
    Token.scanFrom start (pieces source) = .ok ts := by
  induction ts generalizing start gaps source with
  | nil =>
    obtain ⟨hblank, rfl⟩ := (LaidOut.nil_iff ..).mp h
    have hskip := Token.scanFrom_blank_append (hblank 0) start []
    simpa using hskip
  | cons t ts ih =>
    obtain ⟨hblank, hfits, hoff, hlen, rest, rfl, hb, hrest⟩ := (LaidOut.cons_iff ..).mp h
    obtain ⟨p, hp, hchars, hk⟩ := hfits.exists_piece hb
    have hread := Token.read_of_kind? hk (start + byteSize (gaps 0))
    rw [hchars, Token.placed_eq hoff hlen] at hread
    rw [List.append_assoc, Token.scanFrom_blank_append hblank, hp]
    refine (Token.scanFrom_cons_eq_ok_iff ..).mpr ⟨some t, ts, hread, ?_, rfl⟩
    rw [Piece.size, hchars]
    exact ih hrest

theorem Token.exists_laidOut_cons {start : Nat} {p : Piece} {cs : List Char} {ts : List Token}
    (hp : ∀ c, p ≠ .blank c)
    (hfits : ∀ k, p.kind? = some k → k.Fits p.chars ∧ (k.IsWord → Breaks cs))
    (hsize : start + p.size ≤ maxSourceSize)
    (ih : ∀ rest, Token.scanFrom (start + p.size) (pieces cs) = .ok rest →
      ∃ gaps, LaidOut (start + p.size) gaps cs rest)
    (h : Token.scanFrom start (p :: pieces cs) = .ok ts) :
    ∃ gaps, LaidOut start gaps (p.chars ++ cs) ts := by
  obtain ⟨found, rest, hread, hrest, rfl⟩ := (Token.scanFrom_cons_eq_ok_iff ..).mp h
  obtain ⟨k, hk, rfl⟩ := Token.exists_kind?_of_read hp hread
  obtain ⟨hfit, hb⟩ := hfits k hk
  obtain ⟨gaps, hgaps⟩ := ih rest hrest
  exact ⟨_, .cons_placed hfit hsize hb hgaps⟩

theorem Token.exists_laidOut {start : Nat} {source : List Char} {ts : List Token}
    (hsize : start + byteSize source ≤ maxSourceSize)
    (h : Token.scanFrom start (pieces source) = .ok ts) : ∃ gaps, LaidOut start gaps source ts := by
  -- a blank widens the gap in front of what follows, any other piece is a token with no gap
  induction source using pieces_induction generalizing start ts with
  | nil =>
    obtain rfl := Except.ok.inj h
    exact ⟨fun _ => [], (LaidOut.nil_iff ..).mpr ⟨by simp, rfl⟩⟩
  | blank c cs hc ih =>
    have hskip := Token.scanFrom_blank_append (w := [c]) (by simpa using hc) start cs
    rw [List.singleton_append, h] at hskip
    rw [byteSize_cons, ← Nat.add_assoc] at hsize
    obtain ⟨gaps, hgaps⟩ := ih hsize hskip.symm
    exact ⟨_, hgaps.cons_blank hc⟩
  | word first rest cs hw hb ih =>
    rw [pieces_word_append hw hb] at h
    rw [byteSize_append, ← Nat.add_assoc] at hsize
    refine Token.exists_laidOut_cons (p := .word first rest) (by simp) (fun k hk => ?_)
      (Nat.le_of_add_right_le hsize) (fun rest => ih hsize) h
    exact ⟨((Token.Kind.ofWord?_eq_some_iff (List.cons_ne_nil _ _) k).mp hk).2, fun _ => hb⟩
  | mark c cs hw hb ih =>
    rw [pieces_mark_cons hw hb] at h
    rw [byteSize_cons, ← Nat.add_assoc] at hsize
    refine Token.exists_laidOut_cons (p := .mark c) (by simp) (fun k hk => ?_)
      (Nat.le_of_add_right_le hsize) (fun rest => ih hsize) h
    obtain ⟨hk, hfit⟩ := (Token.Kind.ofMark?_eq_some_iff c k).mp hk
    exact ⟨hfit, fun hword => (hk hword).elim⟩

namespace LaidOut

variable {start : Nat} {gaps : Nat → List Char} {source : List Char} {ts : List Token}

theorem breaks_weave {vs : List (List Char)} (hblank : ∀ c ∈ gaps 0, isBlank c = true)
    (h : gaps 0 = [] → ∀ w, vs.head? = some w → w ≠ [] ∧ Breaks w) : Breaks (weave gaps vs) := by
  cases vs with
  | nil => exact breaks_of_isBlank hblank
  | cons w vs =>
    rw [weave, List.append_assoc]
    by_cases hgap : gaps 0 = []
    · obtain ⟨hne, hw⟩ := h hgap w rfl
      rw [hgap, List.nil_append, breaks_append_of_ne_nil hne]
      exact hw
    · rw [breaks_append_of_ne_nil hgap]
      exact breaks_of_isBlank hblank

theorem gap_ne_nil {t u : Token} (h : LaidOut start gaps source (t :: u :: ts))
    (ht : t.kind.IsWord) (hu : u.kind.IsWord) : gaps 1 ≠ [] := by
  intro hgap
  have hfits := h.fits u (by simp)
  have hb := h.breaks 0 t rfl ht
  simp only [Nat.zero_add, List.drop_succ_cons, List.drop_zero, List.map_cons, weave, hgap,
    List.nil_append] at hb
  exact hfits.not_breaks hu ((breaks_append_of_ne_nil hfits.ne_nil _).mp hb)

/-- Texts that fit some kind can be laid out with any gaps that keep words apart. -/
theorem exists_of_weave {vs : List (List Char)} (hblank : ∀ i, ∀ c ∈ gaps i, isBlank c = true)
    (hfits : ∀ v ∈ vs, ∃ k : Token.Kind, k.Fits v)
    (hapart : ∀ i v w, vs[i]? = some v → vs[i + 1]? = some w →
      gaps (i + 1) ≠ [] ∨ Breaks v ∨ Breaks w)
    (hsize : start + byteSize (weave gaps vs) ≤ maxSourceSize) :
    ∃ ts, ts.map Token.text = vs ∧ LaidOut start gaps (weave gaps vs) ts := by
  induction vs generalizing start gaps with
  | nil => exact ⟨[], rfl, (nil_iff ..).mpr ⟨hblank, rfl⟩⟩
  | cons v vs ih =>
    obtain ⟨k, hk⟩ := hfits v (by simp)
    simp only [weave, byteSize_append, ← Nat.add_assoc] at hsize
    obtain ⟨ts, hts, hlaid⟩ := ih (fun i => hblank (i + 1))
      (fun w hw => hfits w (List.mem_cons_of_mem v hw)) (fun i => hapart (i + 1)) hsize
    obtain ⟨hoff, hlen⟩ := Token.toNat_span_placed k (Nat.le_of_add_right_le hsize)
    have hb : k.IsWord → Breaks (weave (fun i => gaps (i + 1)) vs) := by
      intro hword
      apply breaks_weave (hblank 1)
      intro hgap w hw
      -- with no gap one of the two texts is a mark, and `v` is a word
      obtain ⟨k', hk'⟩ := hfits w (List.mem_cons_of_mem v (List.mem_of_head? hw))
      rw [List.head?_eq_getElem?] at hw
      obtain hne | hv | hw := hapart 0 v w rfl hw
      · exact (hne hgap).elim
      · exact (hk.not_breaks hword hv).elim
      · exact ⟨hk'.ne_nil, hw⟩
    refine ⟨Token.placed k v (start + byteSize (gaps 0)) :: ts, by simp [hts], ?_⟩
    rw [cons_iff, Token.text_placed]
    exact ⟨hblank 0, hk, hoff, hlen, _, rfl, hb, hlaid⟩

theorem start_le (h : LaidOut start gaps source ts) :
    ∀ t ∈ ts, start ≤ t.span.offset.toNat := by
  intro t ht
  obtain ⟨i, hi⟩ := List.mem_iff_getElem?.mp ht
  rw [h.offset_eq i t hi]
  exact Nat.le_add_right _ _

theorem span_length_pos (h : LaidOut start gaps source ts) :
    ∀ t ∈ ts, 0 < t.span.length.toNat := by
  intro t ht
  have hl := length_le_byteSize t.text
  have hne := List.length_pos_iff.mpr (h.fits t ht).ne_nil
  rw [h.length_eq t ht]
  omega

/-- Each token ends before the next one starts. -/
theorem pairwise_span (h : LaidOut start gaps source ts) :
    ts.Pairwise fun t u => t.span.offset.toNat + t.span.length.toNat ≤ u.span.offset.toNat := by
  induction ts generalizing start gaps source with
  | nil => exact .nil
  | cons t ts ih =>
    obtain ⟨_, _, hoff, hlen, rest, _, _, hrest⟩ := (cons_iff ..).mp h
    refine .cons (fun u hu => ?_) (ih hrest)
    have hu := hrest.start_le u hu
    omega

theorem flatMap_text (h : LaidOut start gaps source ts) :
    ts.flatMap Token.text = source.filter fun c => !isBlank c := by
  have hgap (i : Nat) : (gaps i).filter (fun c => !isBlank c) = [] := by
    rw [List.filter_eq_nil_iff]
    intro c hc
    simp [h.blank i c hc]
  induction ts generalizing start gaps source with
  | nil =>
    rw [((nil_iff ..).mp h).2, hgap 0]
    rfl
  | cons t ts ih =>
    obtain ⟨_, hfits, _, _, rest, rfl, _, hrest⟩ := (cons_iff ..).mp h
    have htext : t.text.filter (fun c => !isBlank c) = t.text := by
      rw [List.filter_eq_self]
      intro c hc
      simp [hfits.not_isBlank c hc]
    rw [List.flatMap_cons, ih hrest fun i => hgap (i + 1), List.filter_append, List.filter_append,
      hgap 0, htext, List.nil_append]

end LaidOut

namespace Token

theorem scan_eq_scanFrom {source : List Char} (hsize : byteSize source ≤ maxSourceSize) :
    scan source = scanFrom 0 (pieces source) := by
  simp [scan, Scanner.remaining, Scanner.ofText, Nat.not_lt.mpr hsize]

theorem scan_eq_ok_iff {source : List Char} (hsize : byteSize source ≤ maxSourceSize)
    (ts : List Token) : scan source = .ok ts ↔ ∃ gaps, LaidOut 0 gaps source ts := by
  rw [scan_eq_scanFrom hsize]
  refine ⟨exists_laidOut (by simpa using hsize), fun h => ?_⟩
  obtain ⟨gaps, hgaps⟩ := h
  exact hgaps.scanFrom_eq

/-- A source that has tokens is within the limit. -/
theorem byteSize_le_of_scan_eq_ok {source : List Char} {ts : List Token}
    (h : scan source = .ok ts) : byteSize source ≤ maxSourceSize := by
  unfold scan Scanner.remaining at h
  split at h
  next => cases h
  next hle => exact Nat.le_of_not_lt hle

theorem exists_laidOut_of_scan {source : List Char} {ts : List Token} (h : scan source = .ok ts) :
    ∃ gaps, LaidOut 0 gaps source ts :=
  (scan_eq_ok_iff (byteSize_le_of_scan_eq_ok h) ts).mp h

/-- Scanning finds the one way in which a source is laid out, if there is one. -/
theorem scan_inverts_layout (source : String) (hsize : source.utf8ByteSize ≤ 4294967295) :
    (∀ ts, scan source.toList = .ok ts ↔ ∃ gaps, LaidOut 0 gaps source.toList ts) ∧
      (∀ ts ts', (∃ gaps, LaidOut 0 gaps source.toList ts) →
        (∃ gaps, LaidOut 0 gaps source.toList ts') → ts = ts') ∧
      ∀ ts, scan source.toList = .ok ts → (∀ t ∈ ts, t.kind ≠ .endOfInput) ∧
        (ts.Pairwise fun t u => t.span.offset < u.span.offset ∧
          t.span.offset.toNat + t.span.length.toNat ≤ u.span.offset.toNat) ∧
        ts.flatMap text = source.toList.filter fun c => !isBlank c := by
  have hiff := scan_eq_ok_iff ((byteSize_toList source).trans_le hsize)
  refine ⟨hiff, fun ts ts' h h' => ?_, fun ts h => ?_⟩
  · exact Except.ok.inj (((hiff ts).mpr h).symm.trans ((hiff ts').mpr h'))
  · obtain ⟨gaps, hgaps⟩ := (hiff ts).mp h
    refine ⟨fun t ht hk => ?_, ?_, hgaps.flatMap_text⟩
    · have hfits := hgaps.fits t ht
      rw [hk] at hfits
      exact hfits
    · refine hgaps.pairwise_span.imp_of_mem ?_
      intro t u ht _ htu
      have hpos := hgaps.span_length_pos t ht
      exact ⟨UInt32.lt_iff_toNat_lt.mpr (by omega), htu⟩

theorem scan_inverts_layout_wide_space :
    "def\u3000f(07)".utf8ByteSize ≤ 4294967295 ∧
      ∃ gaps, LaidOut 0 gaps "def\u3000f(07)".toList
        [⟨.defKeyword, "def", ⟨0, 3⟩⟩, ⟨.identifier, "f", ⟨6, 1⟩⟩, ⟨.openParen, "(", ⟨7, 1⟩⟩,
          ⟨.integer, "07", ⟨8, 2⟩⟩, ⟨.closeParen, ")", ⟨10, 1⟩⟩] := by
  have hsize : "def\u3000f(07)".utf8ByteSize ≤ 4294967295 := by decide
  exact ⟨hsize, ((scan_inverts_layout _ hsize).1 _).mp rfl⟩

end Token

end DefLang
