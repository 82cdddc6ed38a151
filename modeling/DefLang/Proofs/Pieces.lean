import DefLang.Text.Piece
import Mathlib.Data.List.TakeWhile

namespace DefLang.Text

/-- A word that ends here cannot be made longer by `cs`. -/
def Breaks (cs : List Char) : Prop :=
  ∀ c, cs.head? = some c → isWordChar c = false

@[simp] theorem breaks_nil : Breaks [] := by simp [Breaks]

@[simp] theorem breaks_cons (c : Char) (cs : List Char) :
    Breaks (c :: cs) ↔ isWordChar c = false := by simp [Breaks]

theorem isWordChar_of_isBlank {c : Char} (h : isBlank c = true) : isWordChar c = false := by
  apply Bool.eq_false_iff.mpr
  intro hw
  rw [isBlank_of_isWordChar c hw] at h
  cases h

theorem breaks_append_of_ne_nil {cs : List Char} (h : cs ≠ []) (rest : List Char) :
    Breaks (cs ++ rest) ↔ Breaks cs := by
  obtain ⟨c, cs, rfl⟩ := List.exists_cons_of_ne_nil h
  simp

theorem breaks_of_isBlank {cs : List Char} (h : ∀ c ∈ cs, isBlank c = true) : Breaks cs := by
  intro c hc
  exact isWordChar_of_isBlank (h c (List.mem_of_head? hc))

theorem Piece.exists_chars_eq (p : Piece) : ∃ cs, p.chars = p.first :: cs := by
  cases p <;> exact ⟨_, rfl⟩

theorem pieces_cons_of_not_isWordChar {c : Char} (h : isWordChar c = false) (cs : List Char) :
    pieces (c :: cs) = Piece.ofChar c :: pieces cs := by
  rw [pieces_cons]
  generalize pieces cs = ps
  unfold Piece.attach
  split <;> simp [h]

theorem pieces_blank_cons {c : Char} (h : isBlank c = true) (cs : List Char) :
    pieces (c :: cs) = .blank c :: pieces cs := by
  have hw := isWordChar_of_isBlank h
  rw [pieces_cons_of_not_isWordChar hw]
  simp [Piece.ofChar, hw, h]

theorem pieces_mark_cons {c : Char} (hw : isWordChar c = false) (hb : isBlank c = false)
    (cs : List Char) : pieces (c :: cs) = .mark c :: pieces cs := by
  rw [pieces_cons_of_not_isWordChar hw]
  simp [Piece.ofChar, hw, hb]

theorem attach_pieces_of_breaks {c : Char} {cs : List Char} (hc : isWordChar c = true)
    (hb : Breaks cs) : Piece.attach c (pieces cs) = .word c [] :: pieces cs := by
  have hof : Piece.ofChar c = .word c [] := by simp [Piece.ofChar, hc]
  cases cs with
  | nil => simp [Piece.attach, hof]
  | cons d ds =>
    have hd := (breaks_cons d ds).mp hb
    rw [pieces_cons_of_not_isWordChar hd]
    cases hblank : isBlank d <;> simp [Piece.ofChar, hd, hc, hblank, Piece.attach]

/-- A run of word characters that cannot be made longer is one piece. -/
theorem pieces_word_append {first : Char} {rest cs : List Char}
    (hw : ∀ c ∈ first :: rest, isWordChar c = true) (hb : Breaks cs) :
    pieces (first :: rest ++ cs) = .word first rest :: pieces cs := by
  induction rest generalizing first with
  | nil => exact attach_pieces_of_breaks (hw first (by simp)) hb
  | cons c rest ih =>
    have hrest := ih fun d hd => hw d (List.mem_cons_of_mem _ hd)
    rw [List.cons_append, pieces_cons, hrest]
    simp [Piece.attach, hw first (by simp)]

theorem exists_word {c : Char} (hc : isWordChar c = true) (after : List Char) :
    ∃ rest cs, after = rest ++ cs ∧ (∀ d ∈ c :: rest, isWordChar d = true) ∧ Breaks cs := by
  refine ⟨after.takeWhile isWordChar, after.dropWhile isWordChar, by simp, ?_, ?_⟩
  · intro d hd
    obtain rfl | hd := List.mem_cons.mp hd
    · exact hc
    · exact List.mem_takeWhile_imp hd
  · intro d hd
    have hnot := List.head?_dropWhile_not isWordChar after
    rw [hd] at hnot
    exact hnot

/-- A text is taken from its start, one blank, one whole word or one other mark at a time. -/
theorem pieces_induction {motive : List Char → Prop} (nil : motive [])
    (blank : ∀ c cs, isBlank c = true → motive cs → motive (c :: cs))
    (word : ∀ first rest cs, (∀ c ∈ first :: rest, isWordChar c = true) → Breaks cs → motive cs →
      motive (first :: rest ++ cs))
    (mark : ∀ c cs, isWordChar c = false → isBlank c = false → motive cs → motive (c :: cs))
    (cs : List Char) : motive cs := by
  -- a word takes several characters at once, so the induction is on the length
  induction hn : cs.length using Nat.strongRecOn generalizing cs with
  | _ n ih =>
    cases cs with
    | nil => exact nil
    | cons c cs =>
      by_cases hw : isWordChar c = true
      · obtain ⟨rest, after, rfl, hword, hb⟩ := exists_word hw cs
        simp only [List.length_cons, List.length_append] at hn
        exact word c rest after hword hb (ih after.length (by omega) after rfl)
      · have htail := ih cs.length (by simp only [List.length_cons] at hn; omega) cs rfl
        by_cases hb : isBlank c = true
        · exact blank c cs hb htail
        · exact mark c cs (Bool.eq_false_iff.mpr hw) (Bool.eq_false_iff.mpr hb) htail

end DefLang.Text
