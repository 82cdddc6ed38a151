namespace DefLang.Text

/-- Bytes that a text takes in UTF-8. -/
def byteSize (cs : List Char) : Nat :=
  cs.foldr (fun c n => c.utf8Size + n) 0

@[simp] theorem byteSize_nil : byteSize [] = 0 := rfl

@[simp] theorem byteSize_cons (c : Char) (cs : List Char) :
    byteSize (c :: cs) = c.utf8Size + byteSize cs := rfl

@[simp] theorem byteSize_append (as bs : List Char) :
    byteSize (as ++ bs) = byteSize as + byteSize bs := by
  induction as with
  | nil => simp
  | cons c as ih => simp only [List.cons_append, byteSize_cons, ih, Nat.add_assoc]

theorem length_le_byteSize (cs : List Char) : cs.length ≤ byteSize cs := by
  induction cs with
  | nil => simp
  | cons c cs ih =>
    have hc := c.utf8Size_pos
    simp only [List.length_cons, byteSize_cons]
    omega

theorem byteSize_eq_zero (cs : List Char) (h : byteSize cs = 0) : cs = [] := by
  have hl := length_le_byteSize cs
  exact List.eq_nil_of_length_eq_zero (by omega)

theorem utf8ByteSize_ofList (cs : List Char) : (String.ofList cs).utf8ByteSize = byteSize cs := by
  induction cs with
  | nil => simp
  | cons c cs ih =>
    have hs : String.ofList (c :: cs) = String.singleton c ++ String.ofList cs := by
      apply String.toList_injective
      simp
    rw [hs, String.utf8ByteSize_append, String.utf8ByteSize_singleton, ih, byteSize_cons]

theorem byteSize_toList (s : String) : byteSize s.toList = s.utf8ByteSize := by
  rw [← utf8ByteSize_ofList, String.ofList_toList]

/-- Moves whole characters to the front part until it has taken `n` bytes more. -/
def cutFrom? : Nat → List Char → List Char → Option (List Char × List Char)
  | 0, front, rest => some (front.reverse, rest)
  | _ + 1, _, [] => none
  | n + 1, front, c :: rest =>
    if c.utf8Size ≤ n + 1 then cutFrom? (n + 1 - c.utf8Size) (c :: front) rest else none
termination_by structural _ _ rest => rest

/-- Cuts a text after its first `n` bytes. There is no cut inside a character or past the end. -/
def cut? (n : Nat) (cs : List Char) : Option (List Char × List Char) :=
  cutFrom? n [] cs

theorem cutFrom?_eq_some_iff (n : Nat) (front rest a b : List Char) :
    cutFrom? n front rest = some (a, b) ↔
      ∃ mid, a = front.reverse ++ mid ∧ rest = mid ++ b ∧ byteSize mid = n := by
  induction rest generalizing n front with
  | nil =>
    cases n with
    | zero =>
      simp only [cutFrom?, Option.some.injEq, Prod.mk.injEq]
      constructor
      · rintro ⟨rfl, rfl⟩
        exact ⟨[], by simp⟩
      · rintro ⟨mid, rfl, hr, -⟩
        obtain ⟨rfl, rfl⟩ := List.nil_eq_append_iff.mp hr
        simp
    | succ n =>
      simp only [cutFrom?, reduceCtorEq, false_iff]
      rintro ⟨mid, -, hr, hn⟩
      obtain ⟨rfl, rfl⟩ := List.nil_eq_append_iff.mp hr
      simp at hn
  | cons c rest ih =>
    have hc := c.utf8Size_pos
    cases n with
    | zero =>
      simp only [cutFrom?, Option.some.injEq, Prod.mk.injEq]
      constructor
      · rintro ⟨rfl, rfl⟩
        exact ⟨[], by simp⟩
      · rintro ⟨mid, rfl, hr, hn⟩
        obtain rfl := byteSize_eq_zero mid hn
        exact ⟨by simp, hr⟩
    | succ n =>
      rw [cutFrom?]
      split
      next hle =>
        rw [ih]
        constructor
        · rintro ⟨mid, rfl, rfl, hn⟩
          exact ⟨c :: mid, by simp, by simp, by simp only [byteSize_cons]; omega⟩
        · rintro ⟨mid, rfl, hr, hn⟩
          cases mid with
          | nil => simp at hn
          | cons d mid =>
            obtain ⟨rfl, rfl⟩ := List.cons.inj hr
            simp only [byteSize_cons] at hn
            exact ⟨mid, by simp, rfl, by omega⟩
      next hgt =>
        simp only [reduceCtorEq, false_iff]
        rintro ⟨mid, -, hr, hn⟩
        cases mid with
        | nil => simp at hn
        | cons d mid =>
          obtain ⟨rfl, rfl⟩ := List.cons.inj hr
          simp only [byteSize_cons] at hn
          omega

theorem cut?_eq_some_iff (n : Nat) (cs a b : List Char) :
    cut? n cs = some (a, b) ↔ cs = a ++ b ∧ byteSize a = n := by
  rw [cut?, cutFrom?_eq_some_iff]
  constructor
  · rintro ⟨mid, rfl, rfl, hn⟩
    exact ⟨by simp, by simpa using hn⟩
  · rintro ⟨rfl, hn⟩
    exact ⟨a, by simp, rfl, hn⟩

end DefLang.Text
