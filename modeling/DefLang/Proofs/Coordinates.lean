import DefLang.Proofs.Drawing
import Mathlib.Algebra.Ring.Nat

namespace DefLang
open Text

namespace Text

variable {cs : List Char} {n n' k k' column column' : Nat}

/-- A character starts at byte `n`, or the text ends there. -/
def Boundary (cs : List Char) (n : Nat) : Prop :=
  ∃ a b, cs = a ++ b ∧ byteSize a = n

instance (cs : List Char) (n : Nat) : Decidable (Boundary cs n) :=
  decidable_of_iff ((cut? n cs).isSome = true) (by
    simp [Option.isSome_iff_exists, cut?_eq_some_iff, Boundary])

theorem Boundary.le (h : Boundary cs n) : n ≤ byteSize cs := by
  obtain ⟨a, b, rfl, rfl⟩ := h
  simp

/-- The byte at which line `k` starts. Every line before it takes its own bytes and one more for its
line feed. -/
def lineOffset (cs : List Char) (k : Nat) : Nat :=
  (((lines cs).take k).map fun line => byteSize line + 1).sum

theorem lineOffset_succ {line : List Char} (h : (lines cs)[k]? = some line) :
    lineOffset cs (k + 1) = lineOffset cs k + (byteSize line + 1) := by
  unfold lineOffset
  rw [List.take_add_one, h]
  simp

theorem lineOffset_mono (h : k ≤ k') : lineOffset cs k ≤ lineOffset cs k' := by
  unfold lineOffset
  obtain ⟨d, rfl⟩ := Nat.exists_eq_add_of_le h
  rw [List.take_add, List.map_append, List.sum_append]
  exact Nat.le_add_right _ _

/-- With one line feed for each line there is one too many, since none follows the last line. -/
theorem sum_lines (cs : List Char) :
    ((lines cs).map fun line => byteSize line + 1).sum = byteSize cs + 1 := by
  induction cs with
  | nil => rfl
  | cons c cs ih =>
    obtain ⟨line, later, hlines⟩ := List.exists_cons_of_ne_nil (lines_ne_nil cs)
    rw [hlines, List.map_cons, List.sum_cons] at ih
    by_cases hc : c = '\n'
    · subst hc
      have hcons : lines ('\n' :: cs) = [] :: lines cs := lines_append_feed [] cs
      have hfeed : '\n'.utf8Size = 1 := rfl
      rw [hcons, hlines]
      simp only [List.map_cons, List.sum_cons, byteSize_nil, byteSize_cons, hfeed]
      omega
    · have hcons : lines (c :: cs) = (c :: line) :: later := by
        rw [lines, List.splitOn_cons_eq_if_modifyHead, ← lines, hlines]
        simp [hc]
      rw [hcons, List.map_cons, List.sum_cons, byteSize_cons, byteSize_cons]
      omega

theorem LineStart.lineOffset_eq {before : List Char} (h : LineStart before) (rest : List Char) :
    lineOffset (before ++ rest) (before.count '\n') = byteSize before := by
  obtain ⟨earlier, hlen, hlines⟩ := h.exists_lines
  -- the text ends with an empty line, which accounts for the feed too many
  have hbefore : lines before = earlier ++ [[]] := by
    have hnil := hlines []
    rwa [List.append_nil] at hnil
  have hsum := sum_lines before
  rw [hbefore, List.map_append, List.sum_append] at hsum
  rw [lineOffset, hlines, ← hlen, List.take_left]
  simpa using hsum

/-- Byte `n` is where character `column` of line `k` starts. The column after the last character of
the line is allowed. All three are counted from zero. -/
def At (cs : List Char) (n k column : Nat) : Prop :=
  ∃ line, (lines cs)[k]? = some line ∧ column ≤ line.length ∧
    n = lineOffset cs k + byteSize (line.take column)

theorem byteSize_take_le (line : List Char) (h : column ≤ column') :
    byteSize (line.take column) ≤ byteSize (line.take column') := by
  obtain ⟨d, rfl⟩ := Nat.exists_eq_add_of_le h
  rw [List.take_add, byteSize_append]
  exact Nat.le_add_right _ _

/-- The line feed of a line counts with the line, so a later line starts past it. -/
theorem At.lt_lineOffset (h : At cs n k column) (hk : k < k') : n < lineOffset cs k' := by
  obtain ⟨line, hline, _, rfl⟩ := h
  have hnext := lineOffset_succ hline
  have hlater : lineOffset cs (k + 1) ≤ lineOffset cs k' := lineOffset_mono hk
  have htake := byteSize_take_le line (Nat.le_max_left column line.length)
  rw [List.take_of_length_le (Nat.le_max_right _ _)] at htake
  omega

theorem At.lex (h : At cs n k column) (h' : At cs n' k' column') (hn : n < n') :
    k < k' ∨ k = k' ∧ column < column' := by
  obtain hk | rfl | hk := Nat.lt_trichotomy k k'
  · exact .inl hk
  · obtain ⟨line, hline, _, rfl⟩ := h
    obtain ⟨line', hline', _, rfl⟩ := h'
    obtain rfl : line = line' := Option.some.inj (hline.symm.trans hline')
    refine .inr ⟨rfl, Nat.lt_of_not_le fun hle => ?_⟩
    have htake := byteSize_take_le line hle
    omega
  · have hlt := h'.lt_lineOffset hk
    obtain ⟨_, _, _, rfl⟩ := h
    omega

end Text

/-- The position after `a` says where the text goes on after `a`. -/
theorem Position.at_after (a b : List Char) (hsize : byteSize (a ++ b) < 4294967295) :
    ∃ k column, (Position.after a).line.toNat = k + 1 ∧
      (Position.after a).column.toNat = column + 1 ∧ At (a ++ b) (byteSize a) k column := by
  obtain ⟨before, head, rfl, hs, hhead⟩ := exists_lineStart a
  obtain ⟨tail, after, rfl, he, htail⟩ := exists_lineEnd b
  have hcount := (List.count_le_length (a := '\n') (l := before)).trans (length_le_byteSize before)
  have hlength := length_le_byteSize head
  simp only [byteSize_append] at hsize
  refine ⟨before.count '\n', head.length, ?_, ?_, head ++ tail, ?_, by simp, ?_⟩
  · rw [Position.after_append hs hhead]
    exact Token.toNat_ofNat_of_le (by unfold maxSourceSize; omega)
  · rw [Position.after_append hs hhead]
    exact toNat_ofNat_add_one (by omega)
  · obtain ⟨earlier, hlen, hlines⟩ := hs.exists_lines
    have hfeed : '\n' ∉ head ++ tail := by simp [hhead, htail]
    obtain ⟨later, hline, _⟩ := he.exists_lines hfeed
    rw [List.append_assoc, ← List.append_assoc head, hlines, hline, ← hlen]
    simp
  · rw [List.append_assoc, hs.lineOffset_eq, List.take_left, byteSize_append]

namespace Span

theorem exists_position?_eq {s : Span} {source : List Char} (hsize : byteSize source < 4294967295)
    (h : Boundary source s.offset.toNat) :
    ∃ p k column, s.position? source = some p ∧ p.line.toNat = k + 1 ∧
      p.column.toNat = column + 1 ∧ At source s.offset.toNat k column := by
  have hle := h.le
  obtain ⟨a, b, rfl, ha⟩ := h
  obtain ⟨k, column, hline, hcolumn, hat⟩ := Position.at_after a b hsize
  rw [ha] at hat
  refine ⟨Position.after a, k, column, ?_, hline, hcolumn, hat⟩
  exact (position?_eq_some_iff ..).mpr ⟨a, b, rfl, by rw [ha, Nat.min_eq_left hle], rfl⟩

/-- The position of a byte determines the byte, and later bytes have later positions. -/
theorem position_is_invertible_and_ordered (source : String)
    (hsize : source.utf8ByteSize < 4294967295) :
    (∀ s : Span, Boundary source.toList s.offset.toNat →
      ∃ p line, s.position? source.toList = some p ∧ 1 ≤ p.line.toNat ∧ 1 ≤ p.column.toNat ∧
        (lines source.toList)[p.line.toNat - 1]? = some line ∧
        p.column.toNat - 1 ≤ line.length ∧
        s.offset.toNat = lineOffset source.toList (p.line.toNat - 1) +
          byteSize (line.take (p.column.toNat - 1))) ∧
    (∀ s s' : Span, Boundary source.toList s.offset.toNat →
      Boundary source.toList s'.offset.toNat → s.offset < s'.offset →
      ∃ p p', s.position? source.toList = some p ∧ s'.position? source.toList = some p' ∧
        (p.line < p'.line ∨ p.line = p'.line ∧ p.column < p'.column)) ∧
    ∀ s s' : Span, source.utf8ByteSize ≤ s.offset.toNat →
      s'.offset.toNat = source.utf8ByteSize →
      s.position? source.toList = s'.position? source.toList := by
  rw [← byteSize_toList] at hsize ⊢
  refine ⟨fun s hs => ?_, fun s s' hs hs' hlt => ?_, fun s s' hs hs' => ?_⟩
  · obtain ⟨p, k, column, hp, hline, hcolumn, line, hpiece, hle, hoffset⟩ :=
      exists_position?_eq hsize hs
    refine ⟨p, line, hp, by omega, by omega, ?_⟩
    rw [hline, hcolumn]
    exact ⟨hpiece, hle, hoffset⟩
  · obtain ⟨p, k, column, hp, hline, hcolumn, hat⟩ := exists_position?_eq hsize hs
    obtain ⟨p', k', column', hp', hline', hcolumn', hat'⟩ := exists_position?_eq hsize hs'
    refine ⟨p, p', hp, hp', ?_⟩
    simp only [UInt32.lt_iff_toNat_lt, ← UInt32.toNat_inj] at hlt ⊢
    have hlex := hat.lex hat' hlt
    omega
  · rw [position?, position?, hs', Nat.min_eq_right hs, Nat.min_self]

/-- The line feed after a character of two bytes, and the character after one of three bytes. -/
theorem position_between_wide_characters :
    "a\u00e9\n\u3000b".utf8ByteSize < 4294967295 ∧
      Boundary "a\u00e9\n\u3000b".toList 3 ∧ Boundary "a\u00e9\n\u3000b".toList 7 ∧
      (∃ line, (lines "a\u00e9\n\u3000b".toList)[1]? = some line ∧ 1 ≤ line.length ∧
        7 = lineOffset "a\u00e9\n\u3000b".toList 1 + byteSize (line.take 1)) ∧
      (∃ p p', (Span.mk 3 0).position? "a\u00e9\n\u3000b".toList = some p ∧
        (Span.mk 7 5).position? "a\u00e9\n\u3000b".toList = some p' ∧
        (p.line < p'.line ∨ p.line = p'.line ∧ p.column < p'.column)) ∧
      (Span.mk 99 5).position? "a\u00e9\n\u3000b".toList =
        (Span.mk 8 0).position? "a\u00e9\n\u3000b".toList := by
  have hsize : "a\u00e9\n\u3000b".utf8ByteSize < 4294967295 := by decide
  have hfeed : Boundary "a\u00e9\n\u3000b".toList 3 := by decide
  have hlast : Boundary "a\u00e9\n\u3000b".toList 7 := by decide
  obtain ⟨hinverse, hordered, hend⟩ := position_is_invertible_and_ordered _ hsize
  obtain ⟨p, line, hp, _, _, hline, hcolumn, hoffset⟩ := hinverse (Span.mk 7 5) hlast
  obtain rfl : Position.mk 2 2 = p := Option.some.inj hp
  exact ⟨hsize, hfeed, hlast, ⟨line, hline, hcolumn, hoffset⟩,
    hordered (Span.mk 3 0) (Span.mk 7 5) hfeed hlast (by decide),
    hend (Span.mk 99 5) (Span.mk 8 0) (by decide) (by decide)⟩

end Span

end DefLang
