import DefLang.Proofs.Compilation

namespace DefLang
open Text

namespace Text

theorem flatMap_intercalate {α β : Type} (f : α → List β) (sep : List α) (xss : List (List α)) :
    (sep.intercalate xss).flatMap f = (sep.flatMap f).intercalate (xss.map (·.flatMap f)) := by
  induction xss with
  | nil => rfl
  | cons xs xss ih =>
    by_cases hne : xss = []
    · subst hne
      simp
    · rw [List.intercalate_cons_of_ne_nil hne, List.map_cons,
        List.intercalate_cons_of_ne_nil (by simpa using hne), List.flatMap_append,
        List.flatMap_append, ih]

theorem mem_or_exists_of_mem_intercalate {α : Type} {sep : List α} {xss : List (List α)} {x : α}
    (h : x ∈ sep.intercalate xss) : x ∈ sep ∨ ∃ xs ∈ xss, x ∈ xs := by
  induction xss with
  | nil => cases h
  | cons xs xss ih =>
    by_cases hne : xss = []
    · subst hne
      exact .inr ⟨xs, by simp, by simpa using h⟩
    · rw [List.intercalate_cons_of_ne_nil hne, List.append_assoc] at h
      obtain h | h | h := by simpa only [List.mem_append] using h
      · exact .inr ⟨xs, by simp, h⟩
      · exact .inl h
      · obtain h | ⟨ys, hys, h⟩ := ih h
        · exact .inl h
        · exact .inr ⟨ys, List.mem_cons_of_mem xs hys, h⟩

/-- A numeral loses the zeros in front, and any other text stays. -/
def stripped (v : List Char) : List Char :=
  if IsNumeral v then unpadded v else v

theorem stripped_of_fits {k : Token.Kind} {v : List Char} (h : k.Fits v) (hk : k ≠ .integer) :
    stripped v = v := by
  refine if_neg fun hn => hk ?_
  have hint : Token.Kind.integer.Fits v := hn
  exact h.kind_eq hint

theorem stripped_marks :
    stripped ['('] = ['('] ∧ stripped [')'] = [')'] ∧ stripped [','] = [','] := by
  decide

end Text

/-- What a token brings into the script: its value, but an integer's without zeros in front. -/
def Token.output (t : Token) : String :=
  if t.kind = .integer then String.ofList (unpadded t.value.toList) else t.value

theorem Token.toList_output {t : Token} (h : t.kind.Fits t.text) :
    t.output.toList = stripped t.text := by
  unfold Token.output
  split
  next hk =>
    have hn : IsNumeral t.text := by
      rw [hk] at h
      exact h
    rw [String.toList_ofList, stripped, if_pos hn]
    rfl
  next hk =>
    rw [stripped_of_fits h hk]
    rfl

namespace Source

theorem Name.stripped_text (x : Name) : stripped x.text.toList = x.text.toList := by
  have hk : Token.Kind.identifier.Fits x.text.toList := x.isName
  exact stripped_of_fits hk nofun

theorem Numeral.stripped_text (n : Numeral) : stripped n.text.toList = unpadded n.text.toList :=
  if_pos n.isNumeral

/-- The texts of an expression, less the zeros, are its script. -/
theorem Expression.flatMap_stripped_texts (e : Expression) :
    e.texts.flatMap stripped = e.script.toList := by
  induction e using Expression.induction with
  | integer n => simp [texts, script, n.stripped_text]
  | reference x => simp [texts, script, x.stripped_text]
  | call f args ih =>
    have hargs : ([[',']].intercalate (textsOf args)).flatMap stripped =
        (",".intercalate (scripts args)).toList := by
      have hmap : (args.map texts).map (·.flatMap stripped) =
          (args.map script).map String.toList := by
        simpa using ih
      rw [flatMap_intercalate, textsOf_eq_map, scripts_eq_map, String.toList_intercalate, hmap]
      rfl
    simp [texts, script, hargs, f.stripped_text, stripped_marks]

/-- The text of a token that is neither the keyword nor the colon. -/
def Inner (v : List Char) : Prop :=
  ∃ k : Token.Kind, k.Fits v ∧ k ≠ .defKeyword ∧ k ≠ .colon

theorem Spelled.kind_ne {vs : List (List Char)} {ts : List Token} (h : Spelled vs ts)
    (hvs : ∀ v ∈ vs, Inner v) : ∀ t ∈ ts, t.kind ≠ .defKeyword ∧ t.kind ≠ .colon := by
  intro t ht
  obtain ⟨k, hk, hne⟩ := hvs t.text (h.1 ▸ List.mem_map_of_mem ht)
  rw [(h.2 t ht).kind_eq hk]
  exact hne

theorem inner_intercalate {vss : List (List (List Char))} (h : ∀ vs ∈ vss, ∀ v ∈ vs, Inner v) :
    ∀ v ∈ [[',']].intercalate vss, Inner v := by
  intro v hv
  obtain hv | ⟨vs, hvs, hv⟩ := mem_or_exists_of_mem_intercalate hv
  · obtain rfl := List.mem_singleton.mp hv
    exact ⟨.comma, rfl, nofun, nofun⟩
  · exact h vs hvs v hv

theorem Name.inner (x : Name) : Inner x.text.toList :=
  ⟨.identifier, x.isName, nofun, nofun⟩

theorem Numeral.inner (n : Numeral) : Inner n.text.toList :=
  ⟨.integer, n.isNumeral, nofun, nofun⟩

theorem inner_openParen : Inner ['('] :=
  ⟨.openParen, rfl, nofun, nofun⟩

theorem inner_closeParen : Inner [')'] :=
  ⟨.closeParen, rfl, nofun, nofun⟩

theorem Expression.inner_texts (e : Expression) : ∀ v ∈ e.texts, Inner v := by
  induction e using Expression.induction with
  | integer n => simpa [texts] using n.inner
  | reference x => simpa [texts] using x.inner
  | call f args ih =>
    have hargs : ∀ v ∈ [[',']].intercalate (textsOf args), Inner v := by
      rw [textsOf_eq_map]
      exact inner_intercalate (by simpa using ih)
    intro v hv
    obtain rfl | rfl | hv | rfl := by
      simpa only [texts, List.mem_cons, List.mem_append, List.not_mem_nil, or_false] using hv
    · exact f.inner
    · exact inner_openParen
    · exact hargs v hv
    · exact inner_closeParen

namespace Program

/-- The texts between the keyword and the colon. -/
def heading (p : Program) : List (List Char) :=
  p.name.text.toList :: ['('] ::
    ([[',']].intercalate (p.params.map fun x => [x.text.toList]) ++ [[')']])

theorem texts_eq (p : Program) :
    p.texts = ['d', 'e', 'f'] :: (p.heading ++ [':'] :: p.body.texts) := by
  simp [texts, heading]

/-- The name and the parameters, before the closing parenthesis. -/
def opening (p : Program) : String :=
  p.name.text ++ "(" ++ ",".intercalate (p.params.map Name.text)

theorem flatten_heading (p : Program) : p.heading.flatten = p.opening.toList ++ [')'] := by
  have hparams : ([[',']].intercalate (p.params.map fun x => [x.text.toList])).flatten =
      (",".intercalate (p.params.map Name.text)).toList := by
    rw [← List.flatMap_id, flatMap_intercalate, String.toList_intercalate, List.map_map,
      List.map_map]
    simp [Function.comp_def]
  simp [heading, opening, hparams]

theorem script_eq (p : Program) :
    p.script = "function " ++ p.opening ++ ") \x7breturn " ++ p.body.script ++ "\x7d;" := by
  simp only [script, opening, String.append_assoc]

theorem inner_heading (p : Program) : ∀ v ∈ p.heading, Inner v := by
  have hparams : ∀ v ∈ [[',']].intercalate (p.params.map fun x => [x.text.toList]), Inner v :=
    inner_intercalate (by simpa using fun x _ => x.inner)
  intro v hv
  obtain rfl | rfl | hv | rfl := by
    simpa only [heading, List.mem_cons, List.mem_append, List.not_mem_nil, or_false] using hv
  · exact p.name.inner
  · exact inner_openParen
  · exact hparams v hv
  · exact inner_closeParen

end Program

end Source

theorem Token.toList_join_output {ts : List Token} (h : ∀ t ∈ ts, t.kind.Fits t.text) :
    (String.join (ts.map Token.output)).toList = (ts.map Token.text).flatMap stripped := by
  rw [String.toList_join, List.flatMap_map, List.flatMap_map]
  exact List.flatMap_congr fun t ht => t.toList_output (h t ht)

theorem Token.toList_join_value (ts : List Token) :
    (String.join (ts.map Token.value)).toList = (ts.map Token.text).flatten := by
  rw [String.toList_join, List.flatMap_map, List.flatten_eq_flatMap, List.flatMap_map]
  rfl

/-- The tokens reach the script one for one and in order. What is new in the script is the frame
around the tokens, and what is lost are the keyword, the colon and zeros in front of numerals. -/
theorem script_keeps_every_token (source script : String) (h : compile source = .ok script) :
    ∃ (d l : Token) (head body : List Token),
      Token.scan source.toList = .ok (d :: (head ++ l :: body)) ∧
      d.kind = .defKeyword ∧ l.kind = .colon ∧
      (∀ t ∈ head ++ body, t.kind ≠ .defKeyword ∧ t.kind ≠ .colon) ∧
      script = "function " ++ String.join (head.map Token.value) ++ " \x7breturn " ++
        String.join (body.map Token.output) ++ "\x7d;" := by
  obtain ⟨p, ts, _, hscan, _, _, _, hp, _, rfl⟩ := exists_program_of_compile h
  rw [p.texts_eq, Source.spelled_cons_iff] at hp
  obtain ⟨d, us, rfl, _, hd, hus⟩ := hp
  obtain ⟨head, us, rfl, hhead, hus⟩ := (Source.spelled_append_iff ..).mp hus
  obtain ⟨l, body, rfl, _, hl, hbody⟩ := (Source.spelled_cons_iff ..).mp hus
  refine ⟨d, l, head, body, hscan, hd.kind_eq rfl, hl.kind_eq rfl, fun t ht => ?_, ?_⟩
  · obtain ht | ht := List.mem_append.mp ht
    · exact hhead.kind_ne p.inner_heading t ht
    · exact hbody.kind_ne p.body.inner_texts t ht
  · have hvalues : String.join (head.map Token.value) = p.opening ++ ")" := by
      apply String.toList_injective
      rw [Token.toList_join_value, hhead.1, p.flatten_heading, String.toList_append]
      rfl
    have houtputs : String.join (body.map Token.output) = p.body.script := by
      apply String.toList_injective
      rw [Token.toList_join_output hbody.2, hbody.1, p.body.flatMap_stripped_texts]
    have hframe : ") \x7breturn " = ")" ++ " \x7breturn " := rfl
    rw [p.script_eq, hvalues, houtputs, hframe]
    simp only [String.append_assoc]

theorem script_keeps_padded_tokens :
    compile "def f(a, b): g(007,h ())" = .ok "function f(a,b) \x7breturn g(7,h())\x7d;" ∧
      ∃ (d l : Token) (head body : List Token),
        Token.scan "def f(a, b): g(007,h ())".toList = .ok (d :: (head ++ l :: body)) ∧
        d.kind = .defKeyword ∧ l.kind = .colon ∧
        (∀ t ∈ head ++ body, t.kind ≠ .defKeyword ∧ t.kind ≠ .colon) ∧
        "function f(a,b) \x7breturn g(7,h())\x7d;" =
          "function " ++ String.join (head.map Token.value) ++ " \x7breturn " ++
            String.join (body.map Token.output) ++ "\x7d;" := by
  have hscript : compile "def f(a, b): g(007,h ())" =
      .ok "function f(a,b) \x7breturn g(7,h())\x7d;" := by decide +kernel
  exact ⟨hscript, script_keeps_every_token _ _ hscript⟩

end DefLang
