import DefLang.Proofs.Fault

namespace DefLang
open Text

/-- The same token, wherever it stands. -/
def Token.Alike (t u : Token) : Prop :=
  t.kind = u.kind ∧ t.value = u.value

/-- What tokens are is seen from their values, if the values fit the kinds. -/
theorem Token.forall₂_alike {ts us : List Token} (hts : ∀ t ∈ ts, t.kind.Fits t.text)
    (hus : ∀ u ∈ us, u.kind.Fits u.text) (h : ts.map Token.value = us.map Token.value) :
    List.Forall₂ Token.Alike ts us := by
  induction ts generalizing us with
  | nil =>
    obtain rfl := List.map_eq_nil_iff.mp h.symm
    exact .nil
  | cons t ts ih =>
    obtain ⟨u, us, rfl, hu, hrest⟩ := List.map_eq_cons_iff.mp h.symm
    have htext : u.text = t.text := congrArg String.toList hu
    have hfit := hus u (by simp)
    rw [htext] at hfit
    refine .cons ⟨(hts t (by simp)).kind_eq hfit, hu.symm⟩ (ih ?_ ?_ hrest.symm)
    · exact fun t' ht' => hts t' (List.mem_cons_of_mem t ht')
    · exact fun u' hu' => hus u' (List.mem_cons_of_mem u hu')

/-- The same complaint about another place. -/
def GrammarError.moved : GrammarError → Span → GrammarError
  | expected kind found _, span => expected kind found span
  | expectedOneOf kinds found _, span => expectedOneOf kinds found span
  | expectedExpression found _, span => expectedExpression found span
  | tooDeep _, span => tooDeep span
  | leftover found _, span => leftover found span

theorem GrammarError.span_moved (e : GrammarError) (span : Span) : (e.moved span).span = span := by
  cases e <;> rfl

namespace Reading

/-- The two places are those of the tokens at one index. -/
def SameIndex (ts us : List Token) (p q : Span) : Prop :=
  ∃ (i : Nat) (t u : Token), ts[i]? = some t ∧ us[i]? = some u ∧ p = t.span ∧ q = u.span

theorem SameIndex.cons {ts us : List Token} {p q : Span} (h : SameIndex ts us p q) (t u : Token) :
    SameIndex (t :: ts) (u :: us) p q := by
  obtain ⟨i, t', u', hi, hi', hp, hq⟩ := h
  exact ⟨i + 1, t', u', hi, hi', hp, hq⟩

/-- Two runs end alike: with one result, or with one complaint about places that `R` relates. -/
inductive Agree {α : Type} (R : Span → Span → Prop) :
    Except GrammarError α → Except GrammarError α → Prop where
  | ok (a : α) : Agree R (.ok a) (.ok a)
  | error {e : GrammarError} {span : Span} (h : R e.span span) :
      Agree R (.error e) (.error (e.moved span))

namespace Agree

variable {α β : Type} {R R' : Span → Span → Prop} {x y : Except GrammarError α}

theorem mono (h : Agree R x y) (hR : ∀ p q, R p q → R' p q) : Agree R' x y := by
  cases h with
  | ok a => exact .ok a
  | error h => exact .error (hR _ _ h)

theorem bind {f g : α → Except GrammarError β} (h : Agree R x y)
    (hfg : ∀ a, Agree R (f a) (g a)) : Agree R (x >>= f) (y >>= g) := by
  cases h with
  | ok a => exact hfg a
  | error h => exact .error h

end Agree

variable {limit : Option Nat} {t u : Token} {ts us : List Token}

theorem Body.step?_congr (h : t.Alike u) (b : Body) : b.step? limit t = b.step? limit u := by
  obtain ⟨calls, place⟩ := b
  obtain ⟨hk, hv⟩ := h
  cases calls <;> cases place <;> simp only [step?, enter?, leave?, hk, hv]

theorem Body.moved_refusal (b : Body) (found : Token.Kind) (span span' : Span) :
    (b.refusal limit found span).moved span' = b.refusal limit found span' := by
  obtain ⟨calls, place⟩ := b
  cases place <;> simp only [refusal, noEntry, noExit] <;> split <;> rfl

namespace State

/-- A step sees what the token is, not where it stands. -/
theorem step?_congr (h : t.Alike u) (s : State) : s.step? limit t = s.step? limit u := by
  simp only [step?, h.1, h.2, Body.step?_congr h]

theorem moved_refusal (s : State) (found : Token.Kind) (span span' : Span) :
    (s.refusal limit found span).moved span' = s.refusal limit found span' := by
  cases s with
  | body name params b => exact b.moved_refusal found span span'
  | _ => rfl

theorem agree_feed (h : t.Alike u) (s : State) :
    Agree (SameIndex (t :: ts) (u :: us)) (s.feed limit t) (s.feed limit u) := by
  unfold feed
  rw [s.step?_congr h, h.1]
  split
  next s' _ => exact .ok s'
  next =>
    rw [← s.moved_refusal u.kind t.span u.span]
    refine .error ⟨0, t, u, rfl, rfl, ?_, rfl⟩
    exact (s.refusal_span_found? limit u.kind t.span).1

theorem agree_foldlM_feed (h : List.Forall₂ Token.Alike ts us) (s : State) :
    Agree (SameIndex ts us) (ts.foldlM (feed limit) s) (us.foldlM (feed limit) s) := by
  induction h generalizing s with
  | nil => exact .ok s
  | @cons t u ts us htu _ ih =>
    rw [List.foldlM_cons, List.foldlM_cons]
    exact (s.agree_feed htu).bind fun s' => (ih s').mono fun p q hpq => hpq.cons t u

theorem agree_finish (s : State) (p q : Span) :
    Agree (fun p' q' => p' = p ∧ q' = q) (s.finish limit p) (s.finish limit q) := by
  unfold finish
  split
  next d _ => exact .ok d
  next =>
    rw [← s.moved_refusal .endOfInput p q]
    exact .error ⟨(s.refusal_span_found? limit .endOfInput p).1, rfl⟩

end State

/-- The two places are those of the tokens at one index, or both are the end of the input. -/
def SamePlace (ts us : List Token) (p q : Span) : Prop :=
  SameIndex ts us p q ∨ p = endSpan ts ∧ q = endSpan us

end Reading

namespace Definition
open Reading

/-- Reading never looks at spans, but to report one of them. -/
theorem agree_readWithin (limit : Option Nat) {ts us : List Token}
    (h : List.Forall₂ Token.Alike ts us) :
    Agree (SamePlace ts us) (readWithin limit ts) (readWithin limit us) := by
  refine ((State.agree_foldlM_feed h .start).mono fun p q => .inl).bind fun s => ?_
  exact (s.agree_finish (endSpan ts) (endSpan us)).mono fun p q => .inr

end Definition

/-- Sources within the limit may be spaced out as one likes: a script, or an error, stays what it
is. An error moves with the token that it is about. -/
theorem layout_never_changes_the_outcome (a b : String) (ts us : List Token)
    (ha : Token.scan a.toList = .ok ts) (hb : Token.scan b.toList = .ok us)
    (hvalues : ts.map Token.value = us.map Token.value) :
    (∃ script, compile a = .ok script ∧ compile b = .ok script) ∨
      ∃ e e', compile a = .error (.grammar e) ∧ compile b = .error (.grammar e') ∧
        e' = e.moved e'.span ∧
        ((∃ (i : Nat) (t u : Token), ts[i]? = some t ∧ us[i]? = some u ∧
            e.span = t.span ∧ e'.span = u.span) ∨
          e.span = Reading.endSpan ts ∧ e'.span = Reading.endSpan us) := by
  obtain ⟨gaps, hts⟩ := Token.exists_laidOut_of_scan ha
  obtain ⟨gaps', hus⟩ := Token.exists_laidOut_of_scan hb
  have hagree := Definition.agree_readWithin (some nestingLimit)
    (Token.forall₂_alike hts.fits hus.fits hvalues)
  generalize hx : Definition.readWithin (some nestingLimit) ts = x at hagree
  generalize hy : Definition.readWithin (some nestingLimit) us = y at hagree
  cases hagree with
  | ok d =>
    obtain ⟨⟨script, hscript⟩, _⟩ := d.exists_read_iff.mp ⟨ts, hx⟩
    exact .inl ⟨script, (compile_eq_ok_iff_stages ..).mpr ⟨ts, d, ha, hx, hscript⟩,
      (compile_eq_ok_iff_stages ..).mpr ⟨us, d, hb, hy, hscript⟩⟩
  | @error e span hplace =>
    refine .inr ⟨e, e.moved span, ?_, ?_, ?_, ?_⟩
    · exact (compile_eq_error_iff_stages ..).mpr (.inr ⟨ts, ha, .inl ⟨e, hx, rfl⟩⟩)
    · exact (compile_eq_error_iff_stages ..).mpr (.inr ⟨us, hb, .inl ⟨_, hy, rfl⟩⟩)
    · rw [e.span_moved]
    · rw [e.span_moved]
      exact hplace

/-- The tokens of `def f ():`, with `g(1  2 )` on the next line. -/
def Definition.spacedMissingComma : List Token :=
  [⟨.defKeyword, "def", ⟨0, 3⟩⟩, ⟨.identifier, "f", ⟨4, 1⟩⟩, ⟨.openParen, "(", ⟨6, 1⟩⟩,
    ⟨.closeParen, ")", ⟨7, 1⟩⟩, ⟨.colon, ":", ⟨8, 1⟩⟩, ⟨.identifier, "g", ⟨11, 1⟩⟩,
    ⟨.openParen, "(", ⟨12, 1⟩⟩, ⟨.integer, "1", ⟨13, 1⟩⟩, ⟨.integer, "2", ⟨16, 1⟩⟩,
    ⟨.closeParen, ")", ⟨18, 1⟩⟩]

theorem layout_never_hides_missing_comma :
    Token.scan "def f(): g(1 2)".toList = .ok Definition.missingComma ∧
      Token.scan "def f ():\n g(1  2 )".toList = .ok Definition.spacedMissingComma ∧
      Definition.missingComma.map Token.value = Definition.spacedMissingComma.map Token.value ∧
      ∃ (i : Nat) (t u : Token), Definition.missingComma[i]? = some t ∧
        Definition.spacedMissingComma[i]? = some u ∧
        compile "def f(): g(1 2)" = .error (.grammar (.expected .closeParen .integer t.span)) ∧
        compile "def f ():\n g(1  2 )" =
          .error (.grammar (.expected .closeParen .integer u.span)) := by
  have ha : Token.scan "def f(): g(1 2)".toList = .ok Definition.missingComma := by
    decide +kernel
  have hb : Token.scan "def f ():\n g(1  2 )".toList = .ok Definition.spacedMissingComma := by
    decide +kernel
  have hvalues : Definition.missingComma.map Token.value =
      Definition.spacedMissingComma.map Token.value := rfl
  have herr : compile "def f(): g(1 2)" =
      .error (.grammar (.expected .closeParen .integer ⟨13, 1⟩)) := by decide +kernel
  refine ⟨ha, hb, hvalues, ?_⟩
  obtain ⟨script, hscript, _⟩ | ⟨e, e', he, he', hmoved, hplace⟩ :=
    layout_never_changes_the_outcome _ _ _ _ ha hb hvalues
  · rw [herr] at hscript
    cases hscript
  · obtain rfl : GrammarError.expected .closeParen .integer ⟨13, 1⟩ = e :=
      Failure.grammar.inj (Except.error.inj (herr.symm.trans he))
    obtain ⟨i, t, u, hi, hi', ht, hu⟩ | ⟨hend, _⟩ := hplace
    · rw [hu] at hmoved
      rw [hmoved] at he'
      exact ⟨i, t, u, hi, hi', ht ▸ he, he'⟩
    · exact absurd hend (by decide)

end DefLang
