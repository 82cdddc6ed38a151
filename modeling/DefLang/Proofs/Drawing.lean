import DefLang.Diagnostic
import DefLang.Proofs.Fault

namespace DefLang
open Text

namespace Text

theorem feed_notMem_toString (n : Nat) : '\n' ∉ (toString n).toList := by
  rw [Nat.toString_eq_ofList_toDigits, String.toList_ofList]
  intro hm
  have hdigit := Nat.isDigit_of_mem_toDigits (by decide) (by decide) hm
  exact absurd hdigit (by decide)

theorem feed_notMem_append {a b : String} (ha : '\n' ∉ a.toList) (hb : '\n' ∉ b.toList) :
    '\n' ∉ (a ++ b).toList := by
  rw [String.toList_append, List.mem_append, not_or]
  exact ⟨ha, hb⟩

theorem feed_notMem_intercalate {sep : List Char} {texts : List (List Char)} (hsep : '\n' ∉ sep)
    (h : ∀ text ∈ texts, '\n' ∉ text) : '\n' ∉ sep.intercalate texts := by
  induction texts with
  | nil => simp
  | cons text texts ih =>
    have htail := ih fun other hm => h other (List.mem_cons_of_mem text hm)
    have htext := h text (by simp)
    by_cases hne : texts = []
    · subst hne
      simpa using htext
    · rw [List.intercalate_cons_of_ne_nil hne]
      simp [htext, hsep, htail]

/-- Rows without line feeds can be read off the text that is made of them. -/
theorem lines_flatMap_feed {rows : List (List Char)} (h : ∀ row ∈ rows, '\n' ∉ row) :
    lines (rows.flatMap (· ++ ['\n'])) = rows ++ [[]] := by
  induction rows with
  | nil => rfl
  | cons row rows ih =>
    obtain ⟨hrow, hrows⟩ := List.forall_mem_cons.mp h
    rw [List.flatMap_cons, List.append_assoc, List.singleton_append, lines_append_feed,
      lines_of_feed_notMem hrow, ih hrows]
    rfl

end Text

theorem Token.Kind.feed_notMem_name (k : Kind) : '\n' ∉ k.name.toList := by
  cases k <;> decide

theorem GrammarError.feed_notMem_message (e : GrammarError) : '\n' ∉ e.message.toList := by
  have hname := Token.Kind.feed_notMem_name
  cases e with
  | expected kind found span =>
    have hkind := feed_notMem_append (a := "expected ") (by decide) (hname kind)
    exact feed_notMem_append (feed_notMem_append hkind (by decide)) (hname found)
  | expectedOneOf kinds found span =>
    have hkinds : '\n' ∉ (" or ".intercalate (kinds.map Token.Kind.name)).toList := by
      rw [String.toList_intercalate]
      exact feed_notMem_intercalate (by decide) (by simpa using fun kind _ => hname kind)
    have hlist := feed_notMem_append (a := "expected ") (by decide) hkinds
    exact feed_notMem_append (feed_notMem_append hlist (by decide)) (hname found)
  | expectedExpression found span => exact feed_notMem_append (by decide) (hname found)
  | tooDeep span =>
    have hlimit := feed_notMem_toString nestingLimit
    exact feed_notMem_append (feed_notMem_append (by decide) hlimit) (by decide)
  | leftover found span => exact feed_notMem_append (by decide) (hname found)

theorem ScanError.At.feed_notMem_message {start : Nat} {source : List Char} {e : ScanError}
    (h : e.At start source) : '\n' ∉ e.message.toList := by
  obtain ⟨before, c, after, _, hc, rfl⟩ := h
  have hfound : '\n' ∉ (String.singleton c).toList := by
    rw [String.toList_singleton, List.mem_singleton]
    rintro rfl
    exact absurd hc (by decide)
  have hoffset := feed_notMem_append (a := "no token recognized at offset ") (by decide)
    (feed_notMem_toString (UInt32.ofNat (start + byteSize before)).toNat)
  exact feed_notMem_append (feed_notMem_append (feed_notMem_append hoffset (by decide)) hfound)
    (by decide)

theorem feed_notMem_message_of_compile_error {source : String} {e : Failure}
    (hsize : byteSize source.toList ≤ maxSourceSize) (h : compile source = .error e) :
    '\n' ∉ e.message.toList := by
  obtain ⟨e, rfl, hat⟩ | ⟨_, _, e, rfl, _, _⟩ := compile_error_cases hsize h
  · exact feed_notMem_append (by decide) hat.feed_notMem_message
  · exact feed_notMem_append (by decide) e.feed_notMem_message

theorem toNat_ofNat_add_one {n : Nat} (h : n < 4294967295) :
    (UInt32.ofNat n + 1).toNat = n + 1 := by
  rw [← UInt32.ofNat_one, ← UInt32.ofNat_add]
  exact Token.toNat_ofNat_of_le h

namespace Diagnostic

/-- The line and the width fit into 32 bits for every source that is scanned. The column is one more
than a 32-bit number, and wraps around. -/
theorem exists_ofFailure?_eq {source : String} {e : Failure} {span : Span}
    {before head text tail after : List Char}
    (h : e.Located source.toList span before head text tail after)
    (hsize : byteSize source.toList ≤ maxSourceSize) :
    ∃ d, ofFailure? e source = some d ∧ d.message = e.message ∧
      d.line.toNat = before.count '\n' + 1 ∧ d.column = UInt32.ofNat head.length + 1 ∧
      d.width.toNat = max text.length 1 := by
  refine ⟨{
    line := UInt32.ofNat (before.count '\n' + 1)
    column := UInt32.ofNat head.length + 1
    width := UInt32.ofNat (max text.length 1)
    message := e.message }, ?_, rfl, ?_, rfl, ?_⟩
  · simp [ofFailure?, h.span?_eq, h.onLine.position?_eq, h.tight.text?_eq]
  · have hcount := h.tight.count_feed_lt rfl h.onLine.starts
    unfold maxSourceSize at hsize
    exact Token.toNat_ofNat_of_le (by unfold maxSourceSize; omega)
  · have htext := length_le_byteSize text
    rw [h.tight.source_eq, byteSize_append, byteSize_append] at hsize
    unfold maxSourceSize at hsize
    exact Token.toNat_ofNat_of_le (by unfold maxSourceSize; omega)

/-- The rows of a drawing, without the line feeds after them. -/
def rows (d : Diagnostic) (source : List Char) : List (List Char) :=
  let number := (toString d.line.toNat).toList
  let gutter := List.replicate number.length ' '
  ["error: ".toList ++ d.message.toList,
    gutter ++ "--> ".toList ++ number ++ ":".toList ++ (toString d.column.toNat).toList,
    gutter ++ " |".toList,
    number ++ " | ".toList ++ shownLine source (d.line.toNat - 1),
    gutter ++ " | ".toList ++ List.replicate (d.column.toNat - 1) ' ' ++
      List.replicate d.width.toNat '^']

theorem draw?_eq_rows {d : Diagnostic} {n m : Nat} (hline : d.line.toNat = n + 1)
    (hcolumn : d.column.toNat = m + 1) (source : String) :
    d.draw? source = some (String.ofList ((d.rows source.toList).flatMap (· ++ ['\n']))) := by
  have hline : d.line ≠ 0 := fun h0 => by simp [h0] at hline
  have hcolumn : d.column ≠ 0 := fun h0 => by simp [h0] at hcolumn
  have hfeed : "\n".toList = ['\n'] := rfl
  have hbar : " |\n".toList = " |".toList ++ ['\n'] := rfl
  unfold draw? rows repeated
  rw [if_neg hline, if_neg hcolumn]
  apply congrArg some
  apply String.toList_injective
  simp only [String.toList_append, String.toList_ofList, List.flatMap_cons, List.flatMap_nil,
    List.append_assoc, List.append_nil, hfeed, hbar, String.length_toList]

/-- The diagnostic of a failure at `text`, which stands after `head` in the line after `before`. Its
numbers are those of that place, and it is drawn. -/
structure Drawn (d : Diagnostic) (e : Failure) (source : String) (before head text : List Char) :
    Prop where
  ofFailure?_eq : ofFailure? e source = some d
  message_eq : d.message = e.message
  line_eq : d.line.toNat = before.count '\n' + 1
  column_eq : d.column.toNat = head.length + 1
  width_eq : d.width.toNat = max text.length 1
  draw?_eq : d.draw? source = some (String.ofList ((d.rows source.toList).flatMap (· ++ ['\n'])))

theorem exists_drawn {source : String} {e : Failure} {span : Span}
    {before head text tail after : List Char}
    (h : e.Located source.toList span before head text tail after)
    (hsize : byteSize source.toList ≤ maxSourceSize) (hhead : head.length < 4294967295) :
    ∃ d : Diagnostic, d.Drawn e source before head text := by
  obtain ⟨d, hd, hmessage, hline, hcolumn, hwidth⟩ := exists_ofFailure?_eq h hsize
  have hcolumn : d.column.toNat = head.length + 1 := by
    rw [hcolumn, toNat_ofNat_add_one hhead]
  exact ⟨d, hd, hmessage, hline, hcolumn, hwidth, draw?_eq_rows hline hcolumn source⟩

theorem feed_notMem_rows {d : Diagnostic} (hmessage : '\n' ∉ d.message.toList)
    {source : List Char} (hshown : '\n' ∉ shownLine source (d.line.toNat - 1)) :
    ∀ row ∈ d.rows source, '\n' ∉ row := by
  have hnumber := feed_notMem_toString d.line.toNat
  have hcolumn := feed_notMem_toString d.column.toNat
  unfold rows
  generalize (toString d.line.toNat).toList = number at hnumber ⊢
  generalize (toString d.column.toNat).toList = column at hcolumn ⊢
  simp [hmessage, hshown, hnumber, hcolumn]

/-- Five rows, each on a line of its own. The fourth is the shown line behind its label, and the
carets of the fifth stand under `text` and nothing else, or where there is no text under the column
after `head`. That column is at most one past the end of the line. -/
structure Underlines (rows : List (List Char)) (label shown head text : List Char) : Prop where
  length_eq : rows.length = 5
  noFeed : ∀ row ∈ rows, '\n' ∉ row
  fourth : rows[3]? = some (label ++ shown)
  under : head ++ text <+: shown
  carets : ∃ row, rows[4]? = some row ∧ ∀ i, row[i]? = some '^' ↔
    label.length + head.length ≤ i ∧ i < label.length + head.length + max text.length 1

theorem getElem?_eq_caret_iff {cs : List Char} (h : '^' ∉ cs) (n i : Nat) :
    (cs ++ List.replicate n '^')[i]? = some '^' ↔ cs.length ≤ i ∧ i < cs.length + n := by
  by_cases hi : i < cs.length
  · rw [List.getElem?_append_left hi]
    refine ⟨fun hc => (h (List.mem_of_getElem? hc)).elim, fun hc => ?_⟩
    omega
  · rw [List.getElem?_append_right (by omega), List.getElem?_replicate]
    split
    next hn => simp; omega
    next hn => simp; omega

end Diagnostic

theorem Text.Shows.feed_notMem {line after shown : List Char} (h : Shows line after shown)
    (hf : '\n' ∉ line) : '\n' ∉ shown := by
  obtain ⟨rfl, _⟩ | ⟨rfl, _⟩ := h
  · simpa using hf
  · exact hf

theorem Span.Tight.prefix_shown {s : Span} {source before head text b tail after shown : List Char}
    (h : s.Tight source (before ++ head) text b)
    (hshown : Shows (head ++ text ++ tail) after shown) : head ++ text <+: shown := by
  obtain ⟨hline, _⟩ | ⟨rfl, _⟩ := hshown
  · have hprefix : head ++ text <+: shown ++ ['\r'] := ⟨tail, hline⟩
    obtain hall | hprefix := List.prefix_concat_iff.mp hprefix
    · -- the span would end after a carriage return
      have hc := h.closed '\r' (by rw [List.append_assoc, hall, ← List.append_assoc]; simp)
      exact absurd hc (by decide)
    · exact hprefix
  · exact List.prefix_append _ _

theorem Diagnostic.Drawn.underlines {e : Failure} {s : Span} {source : String}
    {before head text tail after : List Char} {d : Diagnostic}
    (hd : d.Drawn e source before head text)
    (h : e.Located source.toList s before head text tail after)
    (hmessage : '\n' ∉ e.message.toList) :
    Underlines (d.rows source.toList) (toString (before.count '\n' + 1) ++ " | ").toList
      (shownLine source.toList (before.count '\n')) head text where
  length_eq := rfl
  noFeed := by
    apply feed_notMem_rows (hd.message_eq ▸ hmessage)
    rw [hd.line_eq]
    exact h.onLine.shows_shownLine.feed_notMem h.onLine.noFeed
  fourth := by
    unfold rows
    rw [hd.line_eq, String.toList_append]
    rfl
  under := h.tight.prefix_shown h.onLine.shows_shownLine
  carets := by
    refine ⟨_, rfl, fun i => ?_⟩
    rw [getElem?_eq_caret_iff (by simp), hd.line_eq, hd.column_eq, hd.width_eq]
    have hbar : " | ".toList.length = 3 := rfl
    simp only [List.length_append, List.length_replicate, String.toList_append, hbar]
    omega

/-- The column of a failure in a shorter source fits into 32 bits. -/
theorem exists_drawn_of_compile_error {source : String} {e : Failure}
    (hsize : source.utf8ByteSize < 4294967295) (h : compile source = .error e) :
    ∃ (span : Span) (before head text tail after : List Char) (d : Diagnostic),
      e.Located source.toList span before head text tail after ∧
        d.Drawn e source before head text := by
  rw [← byteSize_toList] at hsize
  have hle : byteSize source.toList ≤ maxSourceSize := Nat.le_of_lt hsize
  obtain ⟨span, before, head, text, tail, after, hloc⟩ := exists_located_of_compile_error hle h
  obtain ⟨d, hd⟩ := Diagnostic.exists_drawn hloc hle (hloc.onLine.length_head_le.trans_lt hsize)
  exact ⟨span, before, head, text, tail, after, d, hloc, hd⟩

/-- A failure to compile is drawn, and the drawing marks the text at fault in the line where it
stands. -/
theorem drawing_underlines_the_fault (source : String) (e : Failure)
    (hsize : source.utf8ByteSize < 4294967295) (h : compile source = .error e) :
    ∃ (span : Span) (before head text tail after shown : List Char) (d : Diagnostic)
      (rows : List (List Char)),
      e.span? = some span ∧ span.text? source.toList = some text ∧
        span.OnLine source.toList before head text tail after ∧
        Shows (head ++ text ++ tail) after shown ∧ Diagnostic.ofFailure? e source = some d ∧
        d.draw? source = some (String.ofList (rows.flatMap (· ++ ['\n']))) ∧
        Diagnostic.Underlines rows (toString (before.count '\n' + 1) ++ " | ").toList shown head
          text := by
  obtain ⟨span, before, head, text, tail, after, d, hloc, hd⟩ :=
    exists_drawn_of_compile_error hsize h
  have hle : byteSize source.toList ≤ maxSourceSize :=
    (byteSize_toList source).trans_le (Nat.le_of_lt hsize)
  have hfeed := feed_notMem_message_of_compile_error hle h
  exact ⟨span, before, head, text, tail, after, _, d, _, hloc.span?_eq, hloc.tight.text?_eq,
    hloc.onLine, hloc.onLine.shows_shownLine, hd.ofFailure?_eq, hd.draw?_eq,
    hd.underlines hloc hfeed⟩

/-- Two arguments without a comma, in a line between a wide blank and a carriage return. -/
def missingCommaSource : String :=
  "def f(x):\n\u3000g(x y)\r\n"

def missingCommaDrawing : String :=
  "error: syntax error: expected close_paren, found identifier\n --> 2:6\n  |\n" ++
    "2 | \u3000g(x y)\n  |      ^\n"

theorem drawing_underlines_missing_comma :
    missingCommaSource.utf8ByteSize < 4294967295 ∧
      compile missingCommaSource =
        .error (.grammar (.expected .closeParen .identifier ⟨17, 1⟩)) ∧
      ∃ (d : Diagnostic) (rows : List (List Char)),
        Diagnostic.ofFailure? (.grammar (.expected .closeParen .identifier ⟨17, 1⟩))
          missingCommaSource = some d ∧
        d.draw? missingCommaSource = some (String.ofList (rows.flatMap (· ++ ['\n']))) ∧
        rows.length = 5 ∧ (∀ row ∈ rows, '\n' ∉ row) ∧
        rows[3]? = some "2 | \u3000g(x y)".toList ∧ rows[4]? = some "  |      ^".toList := by
  have hsize : missingCommaSource.utf8ByteSize < 4294967295 := by decide
  have herr : compile missingCommaSource =
      .error (.grammar (.expected .closeParen .identifier ⟨17, 1⟩)) := rfl
  obtain ⟨_, _, _, _, _, _, _, d, rows, _, _, _, _, hd, hdraw, hrows⟩ :=
    drawing_underlines_the_fault _ _ hsize herr
  have hdrawing : (Diagnostic.ofFailure? (.grammar (.expected .closeParen .identifier ⟨17, 1⟩))
      missingCommaSource).bind (·.draw? missingCommaSource) = some missingCommaDrawing := by
    decide +kernel
  rw [hd, Option.bind_some, hdraw, Option.some.injEq] at hdrawing
  have hall : rows = (lines missingCommaDrawing.toList).dropLast := by
    rw [← hdrawing, String.toList_ofList, lines_flatMap_feed hrows.noFeed, List.dropLast_concat]
  refine ⟨hsize, herr, d, rows, hd, hdraw, hrows.length_eq, hrows.noFeed, ?_, ?_⟩
  · rw [hall]
    decide +kernel
  · rw [hall]
    decide +kernel

end DefLang
