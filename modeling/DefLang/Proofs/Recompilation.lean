import DefLang.Proofs.Agreement
import DefLang.Proofs.Conservation

namespace DefLang
open Text

namespace Text

theorem map_intercalate {α β : Type} (f : α → β) (sep : List α) (xss : List (List α)) :
    (sep.intercalate xss).map f = (sep.map f).intercalate (xss.map (·.map f)) := by
  simpa only [← List.map_eq_flatMap] using flatMap_intercalate (fun x => [f x]) sep xss

/-- There is one way to cut a text at its first `c`. -/
theorem first_cut_unique {c : Char} {a a' b b' : List Char} (ha : c ∉ a) (ha' : c ∉ a')
    (h : a ++ c :: b = a' ++ c :: b') : a = a' ∧ b = b' := by
  have hfront (a b : List Char) (ha : c ∉ a) : (a ++ c :: b).takeWhile (· != c) = a := by
    rw [List.takeWhile_append_of_pos]
    · simp
    · intro d hd
      have hne : d ≠ c := fun hdc => ha (hdc ▸ hd)
      simpa using hne
  obtain rfl : a = a' := by rw [← hfront a b ha, h, hfront a' b' ha']
  exact ⟨rfl, by simpa using h⟩

theorem isNumeral_unpadded {digits : List Char} (h : IsNumeral digits) :
    IsNumeral (unpadded digits) := by
  refine ⟨by rw [← dropZeros_eq_unpadded]; exact dropZeros_ne_nil digits, fun c hc => ?_⟩
  unfold unpadded at hc
  split at hc
  next =>
    obtain rfl := List.mem_singleton.mp hc
    rfl
  next => exact h.2 c ((List.dropWhile_sublist _).mem hc)

theorem byteSize_stripped_le (v : List Char) : byteSize (stripped v) ≤ byteSize v := by
  unfold stripped
  split
  next hn =>
    unfold unpadded
    split
    next =>
      have hpos := List.length_pos_iff.mpr hn.1
      have hle := length_le_byteSize v
      have hzero : byteSize ['0'] = 1 := rfl
      omega
    next =>
      have hsplit := congrArg byteSize (List.takeWhile_append_dropWhile (p := (· == '0')) (l := v))
      rw [byteSize_append] at hsplit
      omega
  next => exact le_rfl

theorem byteSize_flatMap_stripped_le (vs : List (List Char)) :
    byteSize (vs.flatMap stripped) ≤ byteSize vs.flatten := by
  induction vs with
  | nil => exact le_rfl
  | cons v vs ih =>
    have hv := byteSize_stripped_le v
    simp only [List.flatMap_cons, List.flatten_cons, byteSize_append]
    omega

end Text

theorem byteSize_gap_add_flatten_le (gaps : Nat → List Char) (vs : List (List Char)) :
    byteSize (gaps 0) + byteSize vs.flatten ≤ byteSize (weave gaps vs) := by
  induction vs generalizing gaps with
  | nil => exact le_rfl
  | cons v vs ih =>
    have hrest := ih fun i => gaps (i + 1)
    simp only [weave, List.flatten_cons, byteSize_append]
    omega

namespace Source

/-- The numeral as a script writes it. -/
def Numeral.trim (n : Numeral) : Numeral where
  text := String.ofList (unpadded n.text.toList)
  isNumeral := by
    rw [String.toList_ofList]
    exact isNumeral_unpadded n.isNumeral

namespace Expression

mutual

/-- The expression without zeros in front of its numerals. -/
def trim : Expression → Expression
  | integer n => integer n.trim
  | reference x => reference x
  | call f args => call f (trimAll args)

def trimAll : List Expression → List Expression
  | [] => []
  | e :: es => e.trim :: trimAll es

end

theorem trimAll_eq_map (es : List Expression) : trimAll es = es.map trim := by
  induction es with
  | nil => rfl
  | cons e es ih => rw [trimAll, ih, List.map_cons]

theorem toNode_trim (e : Expression) : e.trim.toNode = e.toNode := by
  induction e using Expression.induction with
  | integer n =>
    have hn := unpadded_of_isNormal (isNormal_unpadded n.text.toList)
    simp [trim, toNode, Numeral.trim, hn]
  | reference x => rfl
  | call f args ih =>
    simpa [trim, toNode, trimAll_eq_map, toNodes_eq_map] using ih

theorem texts_trim (e : Expression) : e.trim.texts = e.texts.map stripped := by
  induction e using Expression.induction with
  | integer n => simp [trim, texts, Numeral.trim, n.stripped_text]
  | reference x => simp [trim, texts, x.stripped_text]
  | call f args ih =>
    have hargs : (args.map trim).map texts = (args.map texts).map (·.map stripped) := by
      simpa using ih
    simp [trim, texts, trimAll_eq_map, textsOf_eq_map, map_intercalate, f.stripped_text,
      stripped_marks, hargs]

/-- Without its zeros an expression is written as in the script. -/
theorem flatten_texts_trim (e : Expression) : e.trim.texts.flatten = e.script.toList := by
  rw [texts_trim, ← e.flatMap_stripped_texts, List.flatMap_def]

end Expression

namespace Program

def trim (p : Program) : Program :=
  { p with body := p.body.trim }

theorem toDefinition_trim (p : Program) : p.trim.toDefinition = p.toDefinition := by
  simp only [toDefinition, trim, Expression.toNode_trim]

/-- The program in the script's own spelling, with the one blank that it needs. -/
def canonical (p : Program) : String :=
  "def " ++ p.opening ++ "):" ++ p.body.script

/-- One space after the first token, and no other layout. -/
def oneSpace : Nat → List Char
  | 1 => [' ']
  | _ => []

theorem isBlank_oneSpace (i : Nat) : ∀ c ∈ oneSpace i, isBlank c = true := by
  intro c hc
  unfold oneSpace at hc
  split at hc
  next =>
    obtain rfl := List.mem_singleton.mp hc
    decide
  next => cases hc

theorem weave_nil (vs : List (List Char)) : weave (fun _ => []) vs = vs.flatten := by
  induction vs with
  | nil => rfl
  | cons v vs ih => rw [weave, ih, List.nil_append, List.flatten_cons]

theorem weave_oneSpace (v : List Char) (vs : List (List Char)) :
    weave oneSpace (v :: vs) = v ++ ' ' :: vs.flatten := by
  cases vs with
  | nil => simp [weave, oneSpace]
  | cons w vs => simp [weave, oneSpace, weave_nil]

theorem toList_canonical (p : Program) : p.canonical.toList = weave oneSpace p.trim.texts := by
  have hheading : p.trim.heading.flatten = p.opening.toList ++ [')'] := p.flatten_heading
  have hbody : p.trim.body.texts.flatten = p.body.script.toList := p.body.flatten_texts_trim
  rw [texts_eq, weave_oneSpace, List.flatten_append, List.flatten_cons, hheading, hbody]
  simp [canonical]

/-- No layout of a program is shorter than its canonical spelling. -/
theorem byteSize_canonical_le (p : Program) {gaps : Nat → List Char} (hgap : gaps 1 ≠ []) :
    byteSize p.canonical.toList ≤ byteSize (weave gaps p.texts) := by
  have hbody : byteSize p.body.script.toList ≤ byteSize p.body.texts.flatten := by
    rw [← p.body.flatMap_stripped_texts]
    exact byteSize_flatMap_stripped_le p.body.texts
  have hblank : 0 < byteSize (gaps 1) :=
    (List.length_pos_iff.mpr hgap).trans_le (length_le_byteSize (gaps 1))
  have hrest := byteSize_gap_add_flatten_le (fun i => gaps (i + 1))
    (p.heading ++ [':'] :: p.body.texts)
  have hspace : byteSize [' '] = 1 := rfl
  have htext : p.canonical.toList =
      ['d', 'e', 'f'] ++ [' '] ++ p.heading.flatten ++ [':'] ++ p.body.script.toList := by
    simp [canonical, flatten_heading]
  rw [htext, texts_eq, weave]
  simp only [byteSize_append, List.flatten_append, List.flatten_cons, Nat.zero_add] at hrest ⊢
  omega

theorem read_canonical (p : Program) (hlevels : p.body.levels ≤ nestingLimit)
    (hsize : byteSize p.canonical.toList ≤ maxSourceSize) :
    ∃ ts, Token.scan p.canonical.toList = .ok ts ∧ Definition.read ts = .ok p.toDefinition := by
  rw [toList_canonical] at hsize ⊢
  have hdeep : p.trim.toDefinition.body.levels ≤ nestingLimit := by
    rw [toDefinition_trim]
    exact p.body.levels_toNode.trans_le hlevels
  have hread := p.trim.read_weave hdeep isBlank_oneSpace (List.cons_ne_nil _ _) hsize
  rwa [toDefinition_trim] at hread

theorem compile_canonical (p : Program) (hlevels : p.body.levels ≤ nestingLimit)
    (hsize : byteSize p.canonical.toList ≤ maxSourceSize) :
    compile p.canonical = .ok p.script := by
  obtain ⟨ts, hscan, hread⟩ := p.read_canonical hlevels hsize
  have hscript := (p.script_toDefinition_eq_ok_iff p.script).mpr ⟨hlevels, rfl⟩
  exact (compile_eq_ok_iff_stages ..).mpr ⟨ts, _, hscan, hread, hscript⟩

/-- Only the names and the marks between them stand there. -/
theorem cases_of_mem_opening (p : Program) {c : Char} (h : c ∈ p.opening.toList) :
    c.isAlpha = true ∨ c = '(' ∨ c = ',' := by
  simp only [opening, String.toList_append, String.toList_intercalate, List.mem_append] at h
  obtain (h | h) | h := h
  · exact .inl (p.name.isName.2.1 c h)
  · exact .inr (.inl (List.mem_singleton.mp h))
  · obtain h | ⟨cs, hcs, h⟩ := mem_or_exists_of_mem_intercalate h
    · exact .inr (.inr (List.mem_singleton.mp h))
    · obtain ⟨x, hx, rfl⟩ := by simpa using hcs
      exact .inl (x.isName.2.1 c h)

theorem closeParen_notMem_opening (p : Program) : ')' ∉ p.opening.toList := by
  intro h
  exact absurd (p.cases_of_mem_opening h) (by decide)

/-- The first closing parenthesis of a script ends the parameters, so the script shows its own
canonical spelling. -/
theorem canonical_eq_of_script_eq {p q : Program} (h : p.script = q.script) :
    p.canonical = q.canonical := by
  have hsplit (p : Program) : p.script.toList = "function ".toList ++ (p.opening.toList ++
      ')' :: (" \x7breturn ".toList ++ (p.body.script.toList ++ "\x7d;".toList))) := by
    simp [script_eq]
  have hlist := congrArg String.toList h
  rw [hsplit p, hsplit q] at hlist
  obtain ⟨hopening, hrest⟩ := first_cut_unique p.closeParen_notMem_opening
    q.closeParen_notMem_opening (List.append_cancel_left hlist)
  have hbody := List.append_cancel_right (List.append_cancel_left hrest)
  rw [canonical, canonical, String.toList_injective hopening, String.toList_injective hbody]

end Program

end Source

/-- Every source that compiles has a canonical spelling that fits, and means the same. -/
theorem exists_canonical_of_compile {source script : String} (h : compile source = .ok script) :
    ∃ (p : Source.Program) (ts : List Token), script = p.script ∧
      Token.scan source.toList = .ok ts ∧ Definition.read ts = .ok p.toDefinition ∧
      p.body.levels ≤ nestingLimit ∧ byteSize p.canonical.toList ≤ maxSourceSize := by
  obtain ⟨p, ts, gaps, hscan, hread, hlaid, hgap, hp, hlevels, rfl⟩ := exists_program_of_compile h
  have hsource : source.toList = weave gaps p.texts := by rw [hlaid.source_eq, hp.1]
  have hsize := Token.byteSize_le_of_scan_eq_ok hscan
  rw [hsource] at hsize
  exact ⟨p, ts, rfl, hscan, hread, hlevels, (p.byteSize_canonical_le hgap).trans hsize⟩

/-- Sources with the same script have the same definition, and the script itself, put back into the
form of a source, compiles to the same script again. -/
theorem script_determines_the_definition (a script : String) (ha : compile a = .ok script) :
    (∀ b, compile b = .ok script → ∃ ts us d,
      Token.scan a.toList = .ok ts ∧ Definition.read ts = .ok d ∧
      Token.scan b.toList = .ok us ∧ Definition.read us = .ok d) ∧
    ∃ h e, script = "function " ++ h ++ ") \x7breturn " ++ e ++ "\x7d;" ∧
      compile ("def " ++ h ++ "):" ++ e) = .ok script := by
  obtain ⟨p, ts, rfl, hscan, hread, hlevels, hsize⟩ := exists_canonical_of_compile ha
  refine ⟨fun b hb => ?_, p.opening, p.body.script, p.script_eq, p.compile_canonical hlevels hsize⟩
  obtain ⟨q, us, hscript, hscan', hread', hlevels', hsize'⟩ := exists_canonical_of_compile hb
  -- both definitions are read from the canonical spelling, which is the same text
  obtain ⟨vs, hvs, hp⟩ := p.read_canonical hlevels hsize
  obtain ⟨ws, hws, hq⟩ := q.read_canonical hlevels' hsize'
  rw [← Source.Program.canonical_eq_of_script_eq hscript, hvs] at hws
  obtain rfl := Except.ok.inj hws
  have hd : p.toDefinition = q.toDefinition := Except.ok.inj (hp.symm.trans hq)
  exact ⟨ts, us, p.toDefinition, hscan, hread, hscan', hd ▸ hread'⟩

theorem script_determines_padded_definition :
    compile "def f(x): g(00, x)" = .ok "function f(x) \x7breturn g(0,x)\x7d;" ∧
      compile "def\tf(x):g(0,x)" = .ok "function f(x) \x7breturn g(0,x)\x7d;" ∧
      (∃ ts us d, Token.scan "def f(x): g(00, x)".toList = .ok ts ∧ Definition.read ts = .ok d ∧
        Token.scan "def\tf(x):g(0,x)".toList = .ok us ∧ Definition.read us = .ok d) ∧
      (∃ h e, "function f(x) \x7breturn g(0,x)\x7d;" =
          "function " ++ h ++ ") \x7breturn " ++ e ++ "\x7d;" ∧
        compile ("def " ++ h ++ "):" ++ e) = .ok "function f(x) \x7breturn g(0,x)\x7d;") ∧
      compile "def f(x): g(0, y)" = .ok "function f(x) \x7breturn g(0,y)\x7d;" ∧
      ∃ h e, "function f(x) \x7breturn g(0,y)\x7d;" =
          "function " ++ h ++ ") \x7breturn " ++ e ++ "\x7d;" ∧
        compile ("def " ++ h ++ "):" ++ e) = .ok "function f(x) \x7breturn g(0,y)\x7d;" := by
  have ha : compile "def f(x): g(00, x)" = .ok "function f(x) \x7breturn g(0,x)\x7d;" := by
    decide +kernel
  have hb : compile "def\tf(x):g(0,x)" = .ok "function f(x) \x7breturn g(0,x)\x7d;" := by
    decide +kernel
  have hc : compile "def f(x): g(0, y)" = .ok "function f(x) \x7breturn g(0,y)\x7d;" := by
    decide +kernel
  obtain ⟨hsame, hagain⟩ := script_determines_the_definition _ _ ha
  obtain ⟨_, hother⟩ := script_determines_the_definition _ _ hc
  exact ⟨ha, hb, hsame _ hb, hagain, hc, hother⟩

end DefLang
