import DefLang.Proofs.Drawing

namespace DefLang
open Text

theorem Diagnostic.draw?_eq_none {d : Diagnostic} {n : Nat} (hline : d.line.toNat = n + 1)
    (hcolumn : d.column = 0) (source : String) : d.draw? source = none := by
  have hline : d.line ≠ 0 := fun h0 => by simp [h0] at hline
  unfold draw?
  rw [if_neg hline, if_pos hcolumn]

/-- Only a part of the source as long as a source may be takes all of its bytes. -/
theorem Span.OnLine.eq_source {s : Span} {source before head text tail after : List Char}
    (h : s.OnLine source before head text tail after) {n : Nat} (hsize : byteSize source ≤ n)
    (hhead : n ≤ head.length) : head = source ∧ head.length = n := by
  have hlen := length_le_byteSize head
  rw [h.source_eq] at hsize
  simp only [byteSize_append] at hsize
  have hbefore := byteSize_eq_zero before (by omega)
  have htext := byteSize_eq_zero text (by omega)
  have htail := byteSize_eq_zero tail (by omega)
  have hafter := byteSize_eq_zero after (by omega)
  refine ⟨?_, by omega⟩
  rw [h.source_eq, hbefore, htext, htail, hafter]
  simp

/-- A definition that ends after its name, with `n` blanks in front of the name. -/
def spacedName (n : Nat) : String :=
  String.ofList (['d', 'e', 'f'] ++ List.replicate n ' ' ++ ['f'])

@[simp] theorem toList_spacedName (n : Nat) :
    (spacedName n).toList = ['d', 'e', 'f'] ++ List.replicate n ' ' ++ ['f'] :=
  String.toList_ofList

theorem length_spacedName (n : Nat) : (spacedName n).toList.length = n + 4 := by
  simp

theorem byteSize_blanks (n : Nat) : byteSize (List.replicate n ' ') = n := by
  induction n with
  | zero => rfl
  | succ n ih =>
    rw [List.replicate_succ, byteSize_cons, ih, Nat.add_comm]
    rfl

theorem byteSize_spacedName (n : Nat) : byteSize (spacedName n).toList = n + 4 := by
  have hdef : byteSize ['d', 'e', 'f'] = 3 := rfl
  have hname : byteSize ['f'] = 1 := rfl
  rw [toList_spacedName, byteSize_append, byteSize_append, byteSize_blanks, hdef, hname]
  omega

theorem scan_spacedName {n : Nat} (hn : 0 < n) (hsize : n + 4 ≤ maxSourceSize) :
    Token.scan (spacedName n).toList =
      .ok [.placed .defKeyword ['d', 'e', 'f'] 0, .placed .identifier ['f'] (n + 3)] := by
  have hle : byteSize (spacedName n).toList ≤ maxSourceSize := by rwa [byteSize_spacedName]
  have hblank : ∀ c ∈ List.replicate n ' ', isBlank c = true := by
    intro c hc
    rw [List.eq_of_mem_replicate hc]
    rfl
  have hbreaks : Breaks (List.replicate n ' ' ++ ['f']) := by
    have hne : List.replicate n ' ' ≠ [] := by simpa using Nat.ne_of_gt hn
    rw [breaks_append_of_ne_nil hne]
    exact breaks_of_isBlank hblank
  rw [Token.scan_eq_scanFrom hle, toList_spacedName, List.append_assoc,
    pieces_word_append (List.all_eq_true.mp rfl) hbreaks]
  refine (Token.scanFrom_cons_eq_ok_iff ..).mpr
    ⟨_, [.placed .identifier ['f'] (n + 3)], Token.read_of_kind? rfl 0, ?_, rfl⟩
  rw [Token.scanFrom_blank_append hblank, byteSize_blanks, Nat.add_comm]
  rfl

theorem compile_spacedName {n : Nat} (hn : 0 < n) (hsize : n + 4 ≤ maxSourceSize) :
    compile (spacedName n) = .error (.grammar (.expected .openParen .endOfInput
      (Token.placed .identifier ['f'] (n + 3)).span.stop)) := by
  rw [compile, scan_spacedName hn hsize]
  rfl

theorem tight_spacedName {n : Nat} (hsize : n + 4 ≤ maxSourceSize) :
    (Token.placed .identifier ['f'] (n + 3)).span.stop.Tight (spacedName n).toList
      (spacedName n).toList [] [] := by
  have hname : (Token.placed .identifier ['f'] (n + 3)).span.Tight (spacedName n).toList
      (['d', 'e', 'f'] ++ List.replicate n ' ') ['f'] [] := by
    have hend : n + 3 + byteSize ['f'] ≤ maxSourceSize := hsize
    obtain ⟨hoff, hlen⟩ := Token.toNat_span_placed .identifier hend
    have hsolid : ∀ c ∈ ['f'], isBlank c = false := by
      intro c hc
      rw [List.mem_singleton.mp hc]
      rfl
    refine .of_covers ⟨by simp, ?_, hlen⟩ (List.cons_ne_nil _ _) hsolid
    rw [hoff, byteSize_append, byteSize_blanks, Nat.add_comm]
    rfl
  have hfit : (Token.placed .identifier ['f'] (n + 3)).span.Fits := by
    unfold Span.Fits
    rw [hname.offset_eq, hname.length_eq, ← byteSize_append, ← toList_spacedName,
      byteSize_spacedName]
    exact hsize
  simpa using hname.stop hfit

/-- A line that fills the whole source leaves no column for what is missing after it. -/
theorem draw?_spacedName_eq_none {n : Nat} (hn : 0 < n) (hsize : n + 4 = 4294967295) :
    ∃ e d, compile (spacedName n) = .error e ∧ Diagnostic.ofFailure? e (spacedName n) = some d ∧
      d.line = 1 ∧ d.column = 0 ∧ d.draw? (spacedName n) = none := by
  have hle : n + 4 ≤ maxSourceSize := Nat.le_of_eq hsize
  have htight := tight_spacedName hle
  have hloc : (Failure.grammar (.expected .openParen .endOfInput _)).Located (spacedName n).toList
      _ [] (spacedName n).toList [] [] [] :=
    ⟨rfl, htight, htight.toCovers, .inl rfl, .inl rfl, by simp⟩
  obtain ⟨d, hd, _, hline, hcolumn, _⟩ :=
    Diagnostic.exists_ofFailure?_eq hloc ((byteSize_spacedName n).trans_le hle)
  have hzero : d.column = 0 := by
    rw [hcolumn, length_spacedName, hsize]
    rfl
  exact ⟨_, d, compile_spacedName hn hle, hd, UInt32.toNat_inj.mp hline, hzero,
    Diagnostic.draw?_eq_none hline hzero _⟩

/-- Every number that goes into a diagnostic fits into 32 bits, but for the column at the end of a
line that is as long as a source may be. That column wraps around to 0, and cannot be drawn. -/
theorem column_overflows_only_after_a_full_line (source : String)
    (hsize : source.utf8ByteSize ≤ 4294967295) :
    (∀ ts, Token.scan source.toList = .ok ts →
      ∀ t ∈ ts, t.span.offset.toNat + t.span.length.toNat ≤ 4294967295) ∧
    ∀ e, compile source = .error e →
      ∃ (span : Span) (before head text tail after : List Char) (d : Diagnostic),
        e.span? = some span ∧ span.OnLine source.toList before head text tail after ∧
          Diagnostic.ofFailure? e source = some d ∧ before.count '\n' + 1 ≤ 4294967295 ∧
          d.line.toNat = before.count '\n' + 1 ∧
          (head.length + 1 ≤ 4294967295 ∧ d.column.toNat = head.length + 1 ∧
              (d.draw? source).isSome = true ∨
            head = source.toList ∧ head.length = 4294967295 ∧ d.column = 0 ∧
              d.draw? source = none) := by
  have hle : byteSize source.toList ≤ maxSourceSize := (byteSize_toList source).trans_le hsize
  refine ⟨fun ts hts t ht => ?_, fun e he => ?_⟩
  · obtain ⟨gaps, hlaid⟩ := (Token.scan_eq_ok_iff hle ts).mp hts
    have hspan := hlaid.span_le t ht
    rw [Nat.zero_add] at hspan
    exact hspan.trans hle
  · obtain ⟨span, before, head, text, tail, after, hloc⟩ := exists_located_of_compile_error hle he
    have hcount : before.count '\n' + 1 ≤ 4294967295 := by
      have hfeeds := hloc.tight.count_feed_lt rfl hloc.onLine.starts
      unfold maxSourceSize at hle
      omega
    by_cases hhead : head.length < 4294967295
    · obtain ⟨d, hd⟩ := Diagnostic.exists_drawn hloc hle hhead
      refine ⟨span, before, head, text, tail, after, d, hloc.span?_eq, hloc.onLine,
        hd.ofFailure?_eq, hcount, hd.line_eq, .inl ⟨hhead, hd.column_eq, ?_⟩⟩
      rw [hd.draw?_eq]
      rfl
    · obtain ⟨hall, hlen⟩ := hloc.onLine.eq_source hle (Nat.le_of_not_lt hhead)
      obtain ⟨d, hd, _, hline, hcolumn, _⟩ := Diagnostic.exists_ofFailure?_eq hloc hle
      have hzero : d.column = 0 := by
        rw [hcolumn, hlen]
        rfl
      exact ⟨span, before, head, text, tail, after, d, hloc.span?_eq, hloc.onLine, hd, hcount,
        hline, .inr ⟨hall, hlen, hzero, Diagnostic.draw?_eq_none hline hzero source⟩⟩

/-- With one blank less there is room for the column. -/
theorem almost_full_line_is_drawn :
    (spacedName 4294967290).utf8ByteSize ≤ 4294967295 ∧
      ∃ e d, compile (spacedName 4294967290) = .error e ∧
        Diagnostic.ofFailure? e (spacedName 4294967290) = some d ∧
        (d.draw? (spacedName 4294967290)).isSome = true := by
  have hsize : (spacedName 4294967290).utf8ByteSize ≤ 4294967295 := by
    rw [← byteSize_toList, byteSize_spacedName]
    omega
  have herr := compile_spacedName (n := 4294967290) (by omega) (by unfold maxSourceSize; omega)
  obtain ⟨_, _, head, _, _, _, d, _, _, hd, _, _, hcolumn⟩ :=
    (column_overflows_only_after_a_full_line _ hsize).2 _ herr
  obtain ⟨_, _, hdraw⟩ | ⟨hall, hlen, _⟩ := hcolumn
  · exact ⟨hsize, _, d, herr, hd, hdraw⟩
  · rw [hall, length_spacedName] at hlen
    omega

theorem full_line_has_no_drawing :
    (spacedName 4294967291).utf8ByteSize = 4294967295 ∧
      ∃ e d, compile (spacedName 4294967291) = .error e ∧
        Diagnostic.ofFailure? e (spacedName 4294967291) = some d ∧ d.line = 1 ∧ d.column = 0 ∧
        d.draw? (spacedName 4294967291) = none := by
  refine ⟨?_, draw?_spacedName_eq_none (by omega) (by omega)⟩
  rw [← byteSize_toList, byteSize_spacedName]

end DefLang
