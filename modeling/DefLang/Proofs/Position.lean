import DefLang.Span
import Mathlib.Data.List.Induction

namespace DefLang
open Text

namespace Text

/-- A line starts after `before`. -/
def LineStart (before : List Char) : Prop :=
  before = [] ∨ before.getLast? = some '\n'

/-- A line ends in front of `after`. -/
def LineEnd (after : List Char) : Prop :=
  after = [] ∨ after.head? = some '\n'

theorem exists_lineStart (cs : List Char) :
    ∃ before head, cs = before ++ head ∧ LineStart before ∧ '\n' ∉ head := by
  induction cs using List.reverseRecOn with
  | nil => exact ⟨[], [], rfl, .inl rfl, by simp⟩
  | append_singleton cs c ih =>
    by_cases hc : c = '\n'
    · subst hc
      exact ⟨cs ++ ['\n'], [], by simp, .inr (by simp), by simp⟩
    · obtain ⟨before, head, rfl, hs, hf⟩ := ih
      exact ⟨before, head ++ [c], by simp, hs, by simpa [hf] using Ne.symm hc⟩

theorem exists_lineEnd (cs : List Char) :
    ∃ tail after, cs = tail ++ after ∧ LineEnd after ∧ '\n' ∉ tail := by
  induction cs with
  | nil => exact ⟨[], [], rfl, .inl rfl, by simp⟩
  | cons c cs ih =>
    by_cases hc : c = '\n'
    · subst hc
      exact ⟨[], '\n' :: cs, rfl, .inr rfl, by simp⟩
    · obtain ⟨tail, after, rfl, he, hf⟩ := ih
      exact ⟨c :: tail, after, rfl, he, by simpa [hf] using Ne.symm hc⟩

theorem length_lines (cs : List Char) : (lines cs).length = cs.count '\n' + 1 := by
  induction cs with
  | nil => rfl
  | cons c cs ih =>
    by_cases hc : c = '\n'
    · subst hc
      have h := lines_append_feed [] cs
      rw [List.nil_append] at h
      rw [h, List.length_append, ih, List.count_cons_self, lines_of_feed_notMem (by simp),
        List.length_singleton, Nat.add_comm]
    · rw [List.count_cons_of_ne hc, ← ih, lines, List.splitOn_cons_eq_if_modifyHead]
      simp [hc, lines]

/-- The lines before a line that starts are cut off, whatever comes after them. -/
theorem LineStart.exists_lines {before : List Char} (h : LineStart before) :
    ∃ earlier, earlier.length = before.count '\n' ∧
      ∀ rest, lines (before ++ rest) = earlier ++ lines rest := by
  obtain rfl | h := h
  · exact ⟨[], rfl, fun _ => rfl⟩
  · obtain ⟨cs, rfl⟩ := List.getLast?_eq_some_iff.mp h
    refine ⟨lines cs, by simp [length_lines], fun rest => ?_⟩
    rw [List.append_assoc, List.singleton_append, lines_append_feed]

theorem LineEnd.exists_lines {line after : List Char} (h : LineEnd after) (hf : '\n' ∉ line) :
    ∃ later, lines (line ++ after) = line :: later ∧ (later = [] ↔ after = []) := by
  obtain rfl | h := h
  · exact ⟨[], by rw [List.append_nil, lines_of_feed_notMem hf], by simp⟩
  · obtain ⟨cs, rfl⟩ := List.head?_eq_some_iff.mp h
    refine ⟨lines cs, ?_, by simp [lines_ne_nil]⟩
    rw [lines_append_feed, lines_of_feed_notMem hf]
    rfl

/-- How the line in front of `after` is shown: a carriage return right before its line feed is left
out, and nothing else is. -/
def Shows (line after shown : List Char) : Prop :=
  (line = shown ++ ['\r'] ∧ after ≠ []) ∨
    (line = shown ∧ (after ≠ [] → line.getLast? ≠ some '\r'))

theorem shows_dropReturn {line after : List Char} (h : after ≠ []) :
    Shows line after (dropReturn line) := by
  unfold dropReturn
  split
  next hr =>
    obtain ⟨cs, rfl⟩ := List.getLast?_eq_some_iff.mp hr
    exact .inl ⟨by simp, h⟩
  next hr => exact .inr ⟨rfl, fun _ => hr⟩

theorem shows_shownLine {before line after : List Char} (hs : LineStart before)
    (he : LineEnd after) (hf : '\n' ∉ line) :
    Shows line after (shownLine (before ++ (line ++ after)) (before.count '\n')) := by
  obtain ⟨earlier, hlen, hlines⟩ := hs.exists_lines
  obtain ⟨later, hline, hlater⟩ := he.exists_lines hf
  have hall : lines (before ++ (line ++ after)) = earlier ++ line :: later := by
    rw [hlines, hline]
  have hlast : earlier.length + 1 < (earlier ++ line :: later).length ↔ after ≠ [] := by
    rw [Ne, ← hlater, ← Ne, ← List.length_pos_iff]
    simp
  rw [shownLine_eq_match, hall, ← hlen]
  simp only [List.getElem?_append_right (Nat.le_refl _), Nat.sub_self,
    List.getElem?_cons_zero, hlast]
  split
  next h => exact shows_dropReturn h
  next h => exact .inr ⟨rfl, fun h' => (h h').elim⟩

end Text

theorem Position.after_append {before head : List Char} (hs : LineStart before)
    (hf : '\n' ∉ head) :
    Position.after (before ++ head) =
      { line := UInt32.ofNat (before.count '\n' + 1), column := UInt32.ofNat head.length + 1 } := by
  obtain ⟨earlier, hlen, hlines⟩ := hs.exists_lines
  have hall : lines (before ++ head) = earlier ++ [head] := by
    rw [hlines, lines_of_feed_notMem hf]
  simp [Position.after, hall, hlen]

namespace Span

/-- The span is that of `text`, which stands between `a` and `b` in the source. -/
structure Covers (s : Span) (source a text b : List Char) : Prop where
  source_eq : source = a ++ text ++ b
  offset_eq : s.offset.toNat = byteSize a
  length_eq : s.length.toNat = byteSize text

/-- The span covers `text` inside one line, from which `before` and `after` are cut off by line
feeds. -/
structure OnLine (s : Span) (source before head text tail after : List Char) : Prop where
  covers : s.Covers source (before ++ head) text (tail ++ after)
  starts : LineStart before
  ends : LineEnd after
  noFeed : '\n' ∉ head ++ text ++ tail

variable {s : Span} {source a text b before head tail after : List Char}

theorem Covers.text?_eq (h : s.Covers source a text b) : s.text? source = some text :=
  (text?_eq_some_iff s source text).mpr ⟨a, b, h.source_eq, h.offset_eq.symm, h.length_eq.symm⟩

theorem Covers.position?_eq (h : s.Covers source a text b) :
    s.position? source = some (Position.after a) := by
  refine (position?_eq_some_iff s source _).mpr ⟨a, text ++ b, ?_, ?_, rfl⟩
  · rw [h.source_eq, List.append_assoc]
  · rw [h.offset_eq, h.source_eq, byteSize_append, byteSize_append]
    omega

theorem Covers.exists_onLine (h : s.Covers source a text b) (hf : '\n' ∉ text) :
    ∃ before head tail after, a = before ++ head ∧ b = tail ++ after ∧
      s.OnLine source before head text tail after := by
  obtain ⟨before, head, rfl, hs, hhead⟩ := exists_lineStart a
  obtain ⟨tail, after, rfl, he, htail⟩ := exists_lineEnd b
  exact ⟨before, head, tail, after, rfl, rfl, h, hs, he, by simp [hhead, hf, htail]⟩

theorem OnLine.source_eq (h : s.OnLine source before head text tail after) :
    source = before ++ (head ++ text ++ tail ++ after) := by
  simpa using h.covers.source_eq

theorem OnLine.length_head_le (h : s.OnLine source before head text tail after) :
    head.length ≤ byteSize source := by
  have hhead := length_le_byteSize head
  rw [h.source_eq]
  simp only [byteSize_append]
  omega

theorem OnLine.position?_eq (h : s.OnLine source before head text tail after) :
    s.position? source = some
      { line := UInt32.ofNat (before.count '\n' + 1), column := UInt32.ofNat head.length + 1 } := by
  have hf : '\n' ∉ head := fun hm => h.noFeed (by simp [hm])
  rw [h.covers.position?_eq, Position.after_append h.starts hf]

theorem OnLine.shows_shownLine (h : s.OnLine source before head text tail after) :
    Shows (head ++ text ++ tail) after (shownLine source (before.count '\n')) := by
  rw [h.source_eq]
  exact Text.shows_shownLine h.starts h.ends h.noFeed

end Span

end DefLang
