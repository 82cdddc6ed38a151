import DefLang.Proofs.Source

namespace DefLang
open Text

namespace Source

/-- Texts of tokens that stay apart with nothing between them: no word is next to a word. -/
structure Alternating (vs : List (List Char)) : Prop where
  fits : ∀ v ∈ vs, ∃ k : Token.Kind, k.Fits v
  apart : vs.IsChain fun v w => Breaks v ∨ Breaks w

namespace Alternating

theorem nil : Alternating [] where
  fits := by simp
  apart := .nil

theorem singleton {k : Token.Kind} {v : List Char} (h : k.Fits v) : Alternating [v] where
  fits := by simpa using ⟨k, h⟩
  apart := .singleton v

theorem append_mark {k : Token.Kind} {m : List Char} {vs ws : List (List Char)} (hk : k.Fits m)
    (hw : ¬ k.IsWord) (hvs : Alternating vs) (hws : Alternating ws) :
    Alternating (vs ++ m :: ws) where
  fits := by
    intro v hv
    obtain hv | rfl | hv := by simpa only [List.mem_append, List.mem_cons] using hv
    · exact hvs.fits v hv
    · exact ⟨k, hk⟩
    · exact hws.fits v hv
  apart := by
    have hm : Breaks m := by
      obtain ⟨c, rfl, hc, _⟩ := hk.exists_mark hw
      simpa using hc
    refine List.isChain_split.mpr ⟨?_, hws.apart.cons fun w _ => .inl hm⟩
    refine hvs.apart.append (.singleton m) fun v _ w hw => .inr ?_
    obtain rfl : m = w := by simpa using hw
    exact hm

theorem intercalate {vss : List (List (List Char))} (h : ∀ vs ∈ vss, Alternating vs) :
    Alternating ([[',']].intercalate vss) := by
  induction vss with
  | nil => exact nil
  | cons vs vss ih =>
    have hvs := h vs (by simp)
    have hvss := ih fun vs hvs => h vs (List.mem_cons_of_mem _ hvs)
    by_cases hne : vss = []
    · subst hne
      simpa using hvs
    · rw [List.intercalate_cons_of_ne_nil hne, List.append_assoc]
      have hk : Token.Kind.comma.Fits [','] := rfl
      exact append_mark hk id hvs hvss

end Alternating

theorem Expression.alternating_texts (e : Expression) : Alternating e.texts := by
  induction e using Expression.induction with
  | integer n =>
    have hk : Token.Kind.integer.Fits n.text.toList := n.isNumeral
    exact .singleton hk
  | reference x =>
    have hk : Token.Kind.identifier.Fits x.text.toList := x.isName
    exact .singleton hk
  | call f args ih =>
    have hf : Token.Kind.identifier.Fits f.text.toList := f.isName
    have ho : Token.Kind.openParen.Fits ['('] := rfl
    have hc : Token.Kind.closeParen.Fits [')'] := rfl
    rw [texts, textsOf_eq_map]
    have hargs : Alternating ([[',']].intercalate (args.map texts)) :=
      .intercalate (by simpa using ih)
    exact .append_mark ho id (.singleton hf) (.append_mark hc id hargs .nil)

namespace Program

theorem alternating_tail_texts (p : Program) : Alternating p.texts.tail := by
  have hname (x : Name) : Alternating [x.text.toList] := by
    have hk : Token.Kind.identifier.Fits x.text.toList := x.isName
    exact .singleton hk
  have ho : Token.Kind.openParen.Fits ['('] := rfl
  have hc : Token.Kind.closeParen.Fits [')'] := rfl
  have hl : Token.Kind.colon.Fits [':'] := rfl
  have hparams : Alternating ([[',']].intercalate (p.params.map fun x => [x.text.toList])) :=
    .intercalate (by simpa using fun x _ => hname x)
  have hbody : Alternating ([':'] :: p.body.texts) :=
    .append_mark hl id .nil p.body.alternating_texts
  exact .append_mark ho id (hname p.name) (.append_mark hc id hparams hbody)

theorem exists_laidOut (p : Program) {gaps : Nat → List Char}
    (hblank : ∀ i, ∀ c ∈ gaps i, isBlank c = true) (hgap : gaps 1 ≠ [])
    (hsize : byteSize (weave gaps p.texts) ≤ maxSourceSize) :
    ∃ ts, Spelled p.texts ts ∧ LaidOut 0 gaps (weave gaps p.texts) ts := by
  obtain ⟨hfits, hchain⟩ := p.alternating_tail_texts
  have htexts : ∀ v ∈ p.texts, ∃ k : Token.Kind, k.Fits v := by
    intro v hv
    obtain rfl | hv := List.mem_cons.mp hv
    · exact ⟨.defKeyword, rfl⟩
    · exact hfits v hv
  have hapart : ∀ i v w, p.texts[i]? = some v → p.texts[i + 1]? = some w →
      gaps (i + 1) ≠ [] ∨ Breaks v ∨ Breaks w := by
    intro i v w hv hw
    cases i with
    | zero => exact .inl hgap
    | succ i =>
      obtain ⟨_, rfl⟩ := List.getElem?_eq_some_iff.mp hv
      obtain ⟨hlt, rfl⟩ := List.getElem?_eq_some_iff.mp hw
      exact .inr (List.isChain_iff_getElem.mp hchain i (Nat.lt_of_succ_lt_succ hlt))
  rw [← Nat.zero_add (byteSize _)] at hsize
  obtain ⟨ts, hts, hlaid⟩ := LaidOut.exists_of_weave hblank htexts hapart hsize
  exact ⟨ts, ⟨hts, hlaid.fits⟩, hlaid⟩

theorem read_weave (p : Program) {gaps : Nat → List Char}
    (hlevels : p.toDefinition.body.levels ≤ nestingLimit)
    (hblank : ∀ i, ∀ c ∈ gaps i, isBlank c = true) (hgap : gaps 1 ≠ [])
    (hsize : byteSize (weave gaps p.texts) ≤ maxSourceSize) :
    ∃ ts, Token.scan (weave gaps p.texts) = .ok ts ∧ Definition.read ts = .ok p.toDefinition := by
  obtain ⟨ts, hts, hlaid⟩ := p.exists_laidOut hblank hgap hsize
  refine ⟨ts, (Token.scan_eq_ok_iff hsize ts).mpr ⟨gaps, hlaid⟩, ?_⟩
  exact (Definition.read_eq_ok_iff ts _).mpr ⟨grammar_definition p hts, hlevels⟩

end Program

end Source

/-- What a source that compiles was written from. -/
theorem exists_program_of_compile {source script : String} (h : compile source = .ok script) :
    ∃ (p : Source.Program) (ts : List Token) (gaps : Nat → List Char),
      Token.scan source.toList = .ok ts ∧ Definition.read ts = .ok p.toDefinition ∧
      LaidOut 0 gaps source.toList ts ∧ gaps 1 ≠ [] ∧ Source.Spelled p.texts ts ∧
      p.body.levels ≤ nestingLimit ∧ script = p.script := by
  obtain ⟨ts, d, hscan, hread, hscript⟩ := (compile_eq_ok_iff_stages source script).mp h
  obtain ⟨gaps, hlaid⟩ := Token.exists_laidOut_of_scan hscan
  obtain ⟨hd, _⟩ := (Definition.read_eq_ok_iff ts d).mp hread
  -- the keyword and the name are both words, so the scanner saw something between them
  have hgap : gaps 1 ≠ [] := by
    cases hd with
    | mk ht hu => exact hlaid.gap_ne_nil (by rw [ht]; trivial) (by rw [hu]; trivial)
  obtain ⟨p, hp, rfl⟩ := Source.exists_program hd hlaid.fits
  obtain ⟨hlevels, rfl⟩ := (p.script_toDefinition_eq_ok_iff script).mp hscript
  exact ⟨p, ts, gaps, hscan, hread, hlaid, hgap, hp, hlevels, rfl⟩

/-- Compiling accepts the layouts of the written programs within the nesting limit and no other
text, and gives the script of the program. -/
theorem compile_accepts_exactly_the_written_programs (source script : String)
    (hsize : source.utf8ByteSize ≤ 4294967295) :
    compile source = .ok script ↔ ∃ (p : Source.Program) (gaps : Nat → List Char),
      p.body.levels ≤ 128 ∧ (∀ i, ∀ c ∈ gaps i, isBlank c = true) ∧ gaps 1 ≠ [] ∧
        source.toList = weave gaps p.texts ∧ script = p.script := by
  have hsize := (byteSize_toList source).trans_le hsize
  refine ⟨fun h => ?_, fun h => ?_⟩
  · obtain ⟨p, ts, gaps, _, _, hlaid, hgap, hp, hlevels, rfl⟩ := exists_program_of_compile h
    exact ⟨p, gaps, hlevels, hlaid.blank, hgap, by rw [hlaid.source_eq, hp.1], rfl⟩
  · obtain ⟨p, gaps, hlevels, hblank, hgap, hsource, rfl⟩ := h
    rw [hsource] at hsize
    obtain ⟨ts, hscan, hread⟩ :=
      p.read_weave (p.body.levels_toNode.trans_le hlevels) hblank hgap hsize
    rw [← hsource] at hscan
    have hscript := (p.script_toDefinition_eq_ok_iff _).mpr ⟨hlevels, rfl⟩
    exact (compile_eq_ok_iff_stages ..).mpr ⟨ts, _, hscan, hread, hscript⟩

/-- `def f(a,b):g(007,h())`. -/
def Source.Program.paddedCall : Source.Program where
  name := ⟨"f", by decide⟩
  params := [⟨"a", by decide⟩, ⟨"b", by decide⟩]
  body := .call ⟨"g", by decide⟩ [.integer ⟨"007", by decide⟩, .call ⟨"h", by decide⟩ []]

def Source.Program.paddedCallGaps : Nat → List Char
  | 1 => ['\u3000']
  | 5 => [' ']
  | 16 => ['\n']
  | _ => []

theorem compile_accepts_paddedCall :
    "def\u3000f(a, b):g(007,h())\n".utf8ByteSize ≤ 4294967295 ∧
      compile "def\u3000f(a, b):g(007,h())\n" =
        .ok "function f(a,b) \x7breturn g(7,h())\x7d;" := by
  have hsize : "def\u3000f(a, b):g(007,h())\n".utf8ByteSize ≤ 4294967295 := by decide
  refine ⟨hsize, (compile_accepts_exactly_the_written_programs _ _ hsize).mpr ?_⟩
  refine ⟨.paddedCall, Source.Program.paddedCallGaps, by decide, ?_, by decide, rfl, rfl⟩
  intro i c hc
  unfold Source.Program.paddedCallGaps at hc
  split at hc <;> simp only [List.mem_singleton, List.not_mem_nil] at hc <;> subst hc <;> decide

end DefLang
