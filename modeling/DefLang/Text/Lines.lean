namespace DefLang.Text

/-- The texts between line feeds. A text that ends in a line feed has an empty last line. -/
def lines (cs : List Char) : List (List Char) :=
  cs.splitOn '\n'

theorem lines_ne_nil (cs : List Char) : lines cs ≠ [] :=
  List.splitOn_ne_nil '\n' cs

theorem lines_append_feed (a b : List Char) : lines (a ++ '\n' :: b) = lines a ++ lines b :=
  List.splitOn_append_cons_self a b

theorem lines_of_feed_notMem {cs : List Char} (h : '\n' ∉ cs) : lines cs = [cs] :=
  List.splitOn_eq_singleton h

/-- The ended lines of `c :: cs`, from those of `cs`. -/
def attachLine (c : Char) (ended : List (List Char)) : List (List Char) :=
  if c = '\n' then ['\n'] :: ended
  else
    match ended with
    | [] => [[c]]
    | line :: later => (c :: line) :: later

/-- A text cut after each of its line feeds. What is left after the last one is a line if it is not
empty. -/
def endedLines (cs : List Char) : List (List Char) :=
  cs.foldr attachLine []

theorem endedLines_cons (c : Char) (cs : List Char) :
    endedLines (c :: cs) = attachLine c (endedLines cs) := rfl

theorem endedLines_append_feed {a : List Char} (h : '\n' ∉ a) (b : List Char) :
    endedLines (a ++ '\n' :: b) = (a ++ ['\n']) :: endedLines b := by
  induction a with
  | nil => rfl
  | cons c a ih =>
    simp only [List.mem_cons, not_or] at h
    rw [List.cons_append, endedLines_cons, ih h.2, attachLine, if_neg (Ne.symm h.1)]
    rfl

theorem endedLines_of_feed_notMem {cs : List Char} (h : '\n' ∉ cs) :
    endedLines cs = if cs = [] then [] else [cs] := by
  induction cs with
  | nil => rfl
  | cons c cs ih =>
    simp only [List.mem_cons, not_or] at h
    rw [endedLines_cons, ih h.2]
    cases cs <;> exact if_neg (Ne.symm h.1)

/-- A line less one carriage return at its end. -/
def dropReturn (line : List Char) : List Char :=
  if line.getLast? = some '\r' then line.dropLast else line

/-- A line less its end, which is a line feed or a carriage return and a line feed. A carriage
return alone ends no line. -/
def dropEnd (line : List Char) : List Char :=
  if line.getLast? = some '\n' then dropReturn line.dropLast else line

theorem dropEnd_append_feed (line : List Char) : dropEnd (line ++ ['\n']) = dropReturn line := by
  simp [dropEnd]

theorem dropEnd_of_feed_notMem {line : List Char} (h : '\n' ∉ line) : dropEnd line = line :=
  if_neg fun hlast => h (List.mem_of_getLast? hlast)

/-- The line with index `k` as it is shown. Past the last line there is nothing to show. -/
def shownLine (cs : List Char) (k : Nat) : List Char :=
  ((endedLines cs).map dropEnd)[k]?.getD []

/-- A carriage return goes only where a line feed follows. -/
theorem shownLine_eq_match (cs : List Char) (k : Nat) :
    shownLine cs k =
      match (lines cs)[k]? with
      | none => []
      | some line => if k + 1 < (lines cs).length then dropReturn line else line := by
  induction k generalizing cs with
  | zero =>
    by_cases hfeed : '\n' ∈ cs
    · obtain ⟨a, b, rfl, ha⟩ := List.eq_append_cons_of_mem hfeed
      have hpos := List.length_pos_iff.mpr (lines_ne_nil b)
      rw [shownLine, endedLines_append_feed ha, lines_append_feed, lines_of_feed_notMem ha]
      simp [dropEnd_append_feed, hpos]
    · rw [shownLine, endedLines_of_feed_notMem hfeed, lines_of_feed_notMem hfeed]
      cases cs with
      | nil => rfl
      | cons c cs => simp [dropEnd_of_feed_notMem hfeed]
  | succ k ih =>
    by_cases hfeed : '\n' ∈ cs
    · obtain ⟨a, b, rfl, ha⟩ := List.eq_append_cons_of_mem hfeed
      have hb := ih b
      rw [shownLine] at hb
      rw [shownLine, endedLines_append_feed ha, lines_append_feed, lines_of_feed_notMem ha]
      simpa using hb
    · rw [shownLine, endedLines_of_feed_notMem hfeed, lines_of_feed_notMem hfeed]
      cases cs with
      | nil => rfl
      | cons c cs => rfl

end DefLang.Text
