import DefLang.Proofs.Coordinates

namespace DefLang
open Text

namespace Text

theorem append_of_byteSize_le {a b a' b' : List Char} (h : a ++ b = a' ++ b')
    (hle : byteSize a ≤ byteSize a') : ∃ mid, a' = a ++ mid ∧ b = mid ++ b' := by
  obtain ⟨mid, ha, hb⟩ | ⟨mid, rfl, rfl⟩ := List.append_eq_append_iff.mp h
  · exact ⟨mid, ha, hb⟩
  · rw [byteSize_append] at hle
    obtain rfl := byteSize_eq_zero mid (by omega)
    exact ⟨[], by simp, by simp⟩

/-- Byte `n` belongs to `line`, which is line `k`. A line feed belongs to the line that it ends, and
the end of the text to the last line. -/
structure InLine (cs : List Char) (n k : Nat) (line : List Char) : Prop where
  line_eq : (lines cs)[k]? = some line
  start_le : lineOffset cs k ≤ n
  le_stop : n ≤ lineOffset cs k + byteSize line

theorem At.exists_inLine {cs : List Char} {n k column : Nat} (h : At cs n k column) :
    ∃ line, InLine cs n k line := by
  obtain ⟨line, hline, hcolumn, rfl⟩ := h
  have htake := byteSize_take_le line hcolumn
  rw [List.take_length] at htake
  exact ⟨line, hline, by omega, by omega⟩

theorem shownLine_eq {cs line : List Char} {k : Nat} (h : (lines cs)[k]? = some line) :
    shownLine cs k =
      if k + 1 < (lines cs).length ∧ line.getLast? = some '\r' then line.dropLast else line := by
  rw [shownLine_eq_match]
  unfold dropReturn
  simp only [h]
  by_cases hlast : k + 1 < (lines cs).length
  · simp [hlast]
  · simp [hlast]

end Text

namespace Span

/-- A span has a text if both of its ends are boundaries, and only then. -/
theorem exists_covers_iff (s : Span) (source : List Char) :
    (∃ a text b, s.Covers source a text b) ↔
      Boundary source s.offset.toNat ∧ Boundary source (s.offset.toNat + s.length.toNat) := by
  constructor
  · rintro ⟨a, text, b, rfl, hoffset, hlength⟩
    refine ⟨⟨a, text ++ b, by simp, hoffset.symm⟩, a ++ text, b, rfl, ?_⟩
    rw [byteSize_append, hoffset, hlength]
  · rintro ⟨⟨a, b, hstart, ha⟩, a', b', hstop, ha'⟩
    obtain ⟨text, rfl, -⟩ := append_of_byteSize_le (hstart.symm.trans hstop) (by omega)
    rw [byteSize_append] at ha'
    exact ⟨a, text, b', hstop, ha.symm, by omega⟩

theorem text?_eq_none_iff (s : Span) (source : List Char) :
    s.text? source = none ↔ ¬ ∃ a text b, s.Covers source a text b := by
  constructor
  · rintro hnone ⟨a, text, b, hcovers⟩
    rw [hcovers.text?_eq] at hnone
    cases hnone
  · intro h
    rw [Option.eq_none_iff_forall_ne_some]
    intro text htext
    obtain ⟨a, b, hsource, ha, hlength⟩ := (text?_eq_some_iff s source text).mp htext
    exact h ⟨a, text, b, hsource, ha.symm, hlength.symm⟩

end Span

namespace Diagnostic

variable {e : Failure} {span : Span} {source : String}

theorem ofFailure?_of_covers (hspan : e.span? = some span) {a text b : List Char}
    (h : span.Covers source.toList a text b) :
    ofFailure? e source = some {
      line := (Position.after a).line
      column := (Position.after a).column
      width := UInt32.ofNat (max text.length 1)
      message := e.message } := by
  simp [ofFailure?, hspan, h.position?_eq, h.text?_eq]

theorem ofFailure?_eq_none_iff (hspan : e.span? = some span) :
    ofFailure? e source = none ↔ ¬ ∃ a text b, span.Covers source.toList a text b := by
  constructor
  · rintro hnone ⟨a, text, b, hcovers⟩
    rw [ofFailure?_of_covers hspan hcovers] at hnone
    cases hnone
  · intro h
    -- a start inside a character has no position, but it has no text either
    have htext := (span.text?_eq_none_iff source.toList).mpr h
    cases hposition : span.position? source.toList <;> simp [ofFailure?, hspan, hposition, htext]

theorem exists_line_of_covers (hsize : byteSize source.toList < 4294967295)
    (hspan : e.span? = some span) {a text b : List Char}
    (h : span.Covers source.toList a text b) :
    ∃ d k column, ofFailure? e source = some d ∧ d.line.toNat = k + 1 ∧
      d.column.toNat = column + 1 ∧ At source.toList span.offset.toNat k column := by
  have hsource : source.toList = a ++ (text ++ b) := by rw [h.source_eq, List.append_assoc]
  rw [hsource] at hsize ⊢
  obtain ⟨k, column, hline, hcolumn, hat⟩ := Position.at_after a (text ++ b) hsize
  rw [h.offset_eq]
  exact ⟨_, k, column, ofFailure?_of_covers hspan h, hline, hcolumn, hat⟩

/-- A failure that names some part of the source, whether it comes from that source or not, has a
diagnostic exactly if the source has such a part. The diagnostic can be drawn, and the drawing shows
the line where the part starts. -/
theorem located_failure_shows_its_line (source : String) (e : Failure) (span : Span)
    (hsize : source.utf8ByteSize < 4294967295) (hspan : e.span? = some span) :
    (ofFailure? e source = none ↔
      source.utf8ByteSize < span.offset.toNat + span.length.toNat ∨
        ¬ Boundary source.toList span.offset.toNat ∨
        ¬ Boundary source.toList (span.offset.toNat + span.length.toNat)) ∧
    ∀ d, ofFailure? e source = some d →
      d.draw? source = some (String.ofList ((d.rows source.toList).flatMap (· ++ ['\n']))) ∧
      ∃ k line, InLine source.toList span.offset.toNat k line ∧
        (d.rows source.toList)[3]? = some ((toString (k + 1) ++ " | ").toList ++
          if k + 1 < (lines source.toList).length ∧ line.getLast? = some '\r' then line.dropLast
          else line) := by
  rw [← byteSize_toList] at hsize ⊢
  refine ⟨?_, fun d hd => ?_⟩
  · rw [ofFailure?_eq_none_iff hspan, span.exists_covers_iff, not_and_or]
    refine ⟨.inr, fun h => ?_⟩
    obtain hlong | h := h
    · exact .inr fun hstop => Nat.not_le.mpr hlong hstop.le
    · exact h
  · have hcovers : ∃ a text b, span.Covers source.toList a text b := by
      by_contra hnone
      rw [(ofFailure?_eq_none_iff hspan).mpr hnone] at hd
      cases hd
    obtain ⟨a, text, b, hcovers⟩ := hcovers
    obtain ⟨d', k, column, hd', hline, hcolumn, hat⟩ := exists_line_of_covers hsize hspan hcovers
    obtain rfl : d' = d := Option.some.inj (hd'.symm.trans hd)
    obtain ⟨line, hin⟩ := hat.exists_inLine
    refine ⟨draw?_eq_rows hline hcolumn source, k, line, hin, ?_⟩
    rw [← shownLine_eq hin.line_eq, rows, hline, String.toList_append]
    rfl

/-- After the carriage return a span of nothing is drawn, and one inside a character is not. -/
theorem located_failure_shows_line_without_return :
    "x\u00e9\r\n".utf8ByteSize < 4294967295 ∧
      (Failure.grammar (.leftover .comma ⟨4, 0⟩)).span? = some ⟨4, 0⟩ ∧
      (∃ d, ofFailure? (.grammar (.leftover .comma ⟨4, 0⟩)) "x\u00e9\r\n" = some d ∧
        (d.draw? "x\u00e9\r\n").isSome = true ∧
        ∃ k line, InLine "x\u00e9\r\n".toList 4 k line) ∧
      (Failure.scan (.unknownCharacter '\n' ⟨1, 1⟩)).span? = some ⟨1, 1⟩ ∧
      ofFailure? (.scan (.unknownCharacter '\n' ⟨1, 1⟩)) "x\u00e9\r\n" = none := by
  have hsize : "x\u00e9\r\n".utf8ByteSize < 4294967295 := by decide
  obtain ⟨_, hdrawn⟩ := located_failure_shows_its_line "x\u00e9\r\n"
    (.grammar (.leftover .comma ⟨4, 0⟩)) ⟨4, 0⟩ hsize rfl
  obtain ⟨hnone, _⟩ := located_failure_shows_its_line "x\u00e9\r\n"
    (.scan (.unknownCharacter '\n' ⟨1, 1⟩)) ⟨1, 1⟩ hsize rfl
  obtain ⟨hdraw, k, line, hin, _⟩ := hdrawn _ rfl
  exact ⟨hsize, rfl, ⟨_, rfl, by rw [hdraw]; rfl, k, line, hin⟩, rfl,
    hnone.mpr (.inr (.inr (by decide)))⟩

end Diagnostic

end DefLang
