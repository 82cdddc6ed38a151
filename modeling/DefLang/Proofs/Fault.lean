import DefLang.Proofs.Agreement
import DefLang.Proofs.Position
import DefLang.Proofs.Refusal
import DefLang.Proofs.Scanning

namespace DefLang
open Text

/-- The span covers `text`, with no blank in it, and ends right after a character that is not blank,
unless it is empty and at the very start. -/
structure Span.Tight (s : Span) (source a text b : List Char) : Prop
    extends s.Covers source a text b where
  solid : ∀ c ∈ text, isBlank c = false
  closed : ∀ c, (a ++ text).getLast? = some c → isBlank c = false

namespace Span.Tight

variable {s : Span} {source a text b : List Char}

theorem of_covers (h : s.Covers source a text b) (hne : text ≠ [])
    (hsolid : ∀ c ∈ text, isBlank c = false) : s.Tight source a text b where
  toCovers := h
  solid := hsolid
  closed := by
    intro c hc
    rw [List.getLast?_append, List.getLast?_eq_some_getLast hne, Option.some_or] at hc
    obtain rfl := Option.some.inj hc
    exact hsolid _ (List.getLast_mem hne)

theorem start (source : List Char) :
    ({ offset := 0, length := 0 } : Span).Tight source [] [] source where
  source_eq := rfl
  offset_eq := rfl
  length_eq := rfl
  solid := by simp
  closed := by simp

/-- The empty span after a tight one is tight. -/
theorem stop (h : s.Tight source a text b) (hfit : s.Fits) :
    s.stop.Tight source (a ++ text) [] b where
  source_eq := by rw [h.source_eq, List.append_nil]
  offset_eq := by rw [Span.toNat_stop_offset hfit, h.offset_eq, h.length_eq, byteSize_append]
  length_eq := rfl
  solid := by simp
  closed := by
    rw [List.append_nil]
    exact h.closed

theorem feed_notMem (h : s.Tight source a text b) : '\n' ∉ text :=
  fun hm => absurd (h.solid '\n' hm) (by decide)

/-- The line feeds before a tight span are fewer than the bytes of the source, if there are any. -/
theorem count_feed_lt (h : s.Tight source a text b) {before head : List Char}
    (ha : a = before ++ head) (hs : LineStart before) :
    before.count '\n' = 0 ∨ before.count '\n' < byteSize source := by
  obtain rfl | hlast := hs
  · exact .inl rfl
  · have hne : head ++ text ≠ [] := by
      intro hnil
      have hc := h.closed '\n' (by rw [ha, List.append_assoc, hnil, List.append_nil, hlast])
      exact absurd hc (by decide)
    have hpos := List.length_pos_iff.mpr hne
    have hle := length_le_byteSize (head ++ text)
    have hcount : before.count '\n' ≤ byteSize before :=
      List.count_le_length.trans (length_le_byteSize before)
    rw [h.source_eq, ha]
    simp only [byteSize_append] at hle ⊢
    exact .inr (by omega)

end Span.Tight

theorem LaidOut.tight {gaps : Nat → List Char} {source : List Char} {ts : List Token}
    (h : LaidOut 0 gaps source ts) :
    ∀ t ∈ ts, ∃ a b, t.span.Tight source a t.text b := by
  intro t ht
  obtain ⟨a, b, hsource, hoff⟩ := h.exists_split t ht
  have hcovers : t.span.Covers source a t.text b :=
    ⟨hsource, by rw [hoff, Nat.zero_add], h.length_eq t ht⟩
  exact ⟨a, b, .of_covers hcovers (h.fits t ht).ne_nil (h.fits t ht).not_isBlank⟩

theorem ScanError.At.tight {source : List Char} {e : ScanError} (h : e.At 0 source)
    (hsize : byteSize source ≤ maxSourceSize) :
    ∃ a text b, e.span.Tight source a text b := by
  obtain ⟨before, c, after, hsource, hc, hoff, hlen⟩ := h.toNat_span (by rwa [Nat.zero_add])
  have hcovers : e.span.Covers source before [c] after :=
    ⟨hsource, by rw [hoff, Nat.zero_add], hlen⟩
  exact ⟨before, [c], after, .of_covers hcovers (List.cons_ne_nil c []) (by simpa using hc)⟩

theorem Definition.span_of_read_eq_error {ts : List Token} {e : GrammarError}
    (h : Definition.read ts = .error e) :
    (∃ t ∈ ts, e.span = t.span) ∨ e.span = Reading.endSpan ts := by
  obtain ⟨us, t, vs, s, rfl, _, _, rfl⟩ | ⟨s, _, rfl⟩ := Definition.exists_of_readWithin_eq_error h
  · exact .inl ⟨t, by simp, (s.refusal_span_found? _ t.kind t.span).1⟩
  · exact .inr (s.refusal_span_found? _ .endOfInput (Reading.endSpan ts)).1

theorem LaidOut.tight_endSpan {gaps : Nat → List Char} {source : List Char} {ts : List Token}
    (h : LaidOut 0 gaps source ts) (hsize : byteSize source ≤ maxSourceSize) :
    ∃ a text b, (Reading.endSpan ts).Tight source a text b := by
  unfold Reading.endSpan
  cases hlast : ts.getLast? with
  | none => exact ⟨[], [], source, .start source⟩
  | some t =>
    have ht := List.mem_of_getLast? hlast
    obtain ⟨a, b, htight⟩ := h.tight t ht
    have hle := h.span_le t ht
    have hfit : t.span.Fits := by
      unfold Span.Fits
      unfold maxSourceSize at hsize
      omega
    exact ⟨a ++ t.text, [], b, htight.stop hfit⟩

/-- A source within the limit fails at one of its characters, or at the tokens laid out in it. -/
theorem compile_error_cases {source : String} {e : Failure}
    (hsize : byteSize source.toList ≤ maxSourceSize) (h : compile source = .error e) :
    (∃ e', e = .scan e' ∧ e'.At 0 source.toList) ∨
      ∃ gaps ts e', e = .grammar e' ∧ LaidOut 0 gaps source.toList ts ∧
        Definition.read ts = .error e' := by
  obtain ⟨e', he, rfl⟩ | ⟨ts, hts, ⟨e', he, rfl⟩ | ⟨_, _, e', _, rfl⟩⟩ :=
    (compile_eq_error_iff_stages source e).mp h
  · rw [Token.scan_eq_scanFrom hsize] at he
    exact .inl ⟨e', rfl, Token.at_of_scanFrom_eq_error he⟩
  · obtain ⟨gaps, hlaid⟩ := (Token.scan_eq_ok_iff hsize ts).mp hts
    exact .inr ⟨gaps, ts, e', rfl, hlaid, he⟩
  · exact (compile_ne_script_error source e' h).elim

/-- Every failure to compile is about a part of the source. -/
theorem exists_tight_of_compile_error {source : String} {e : Failure}
    (hsize : byteSize source.toList ≤ maxSourceSize) (h : compile source = .error e) :
    ∃ span a text b, e.span? = some span ∧ span.Tight source.toList a text b := by
  obtain ⟨e, rfl, hat⟩ | ⟨gaps, ts, e, rfl, hlaid, he⟩ := compile_error_cases hsize h
  · obtain ⟨a, text, b, htight⟩ := hat.tight hsize
    exact ⟨e.span, a, text, b, rfl, htight⟩
  · obtain ⟨t, ht, hspan⟩ | hspan := Definition.span_of_read_eq_error he
    · obtain ⟨a, b, htight⟩ := hlaid.tight t ht
      exact ⟨t.span, a, t.text, b, congrArg some hspan, htight⟩
    · obtain ⟨a, text, b, htight⟩ := hlaid.tight_endSpan hsize
      exact ⟨Reading.endSpan ts, a, text, b, congrArg some hspan, htight⟩

/-- The failure is about `text`, which stands after `head` in a line of the source. -/
structure Failure.Located (e : Failure) (source : List Char) (span : Span)
    (before head text tail after : List Char) : Prop where
  span?_eq : e.span? = some span
  tight : span.Tight source (before ++ head) text (tail ++ after)
  onLine : span.OnLine source before head text tail after

theorem exists_located_of_compile_error {source : String} {e : Failure}
    (hsize : byteSize source.toList ≤ maxSourceSize) (h : compile source = .error e) :
    ∃ span before head text tail after,
      e.Located source.toList span before head text tail after := by
  obtain ⟨span, a, text, b, hspan, htight⟩ := exists_tight_of_compile_error hsize h
  obtain ⟨before, head, tail, after, rfl, rfl, hon⟩ := htight.exists_onLine htight.feed_notMem
  exact ⟨span, before, head, text, tail, after, hspan, htight, hon⟩

end DefLang
