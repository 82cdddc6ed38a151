import DefLang.Proofs.Acceptance

namespace DefLang

/-- The kind of token that was met instead. An error about nesting does not say. -/
def GrammarError.found? : GrammarError → Option Token.Kind
  | expected _ found _ => some found
  | expectedOneOf _ found _ => some found
  | expectedExpression found _ => some found
  | tooDeep _ => none
  | leftover found _ => some found

/-- The span ends at an offset that a 32-bit number can hold. -/
def Span.Fits (s : Span) : Prop :=
  s.offset.toNat + s.length.toNat ≤ 4294967295

theorem Span.toNat_stop_offset {s : Span} (h : s.Fits) :
    s.stop.offset.toNat = s.offset.toNat + s.length.toNat := by
  unfold Span.Fits at h
  rw [Span.stop, UInt32.toNat_add, Nat.mod_eq_of_lt (by omega)]

namespace Reading

theorem Body.refusal_span_found? (limit : Option Nat) (b : Body) (found : Token.Kind)
    (span : Span) :
    (b.refusal limit found span).span = span ∧
      ∀ k, (b.refusal limit found span).found? = some k → k = found := by
  obtain ⟨calls, place⟩ := b
  cases place <;> simp only [refusal, noEntry, noExit] <;> split <;>
    simp [GrammarError.span, GrammarError.found?]

namespace State

/-- A refusal names the token that was refused. -/
theorem refusal_span_found? (limit : Option Nat) (s : State) (found : Token.Kind) (span : Span) :
    (s.refusal limit found span).span = span ∧
      ∀ k, (s.refusal limit found span).found? = some k → k = found := by
  cases s with
  | body name params b => exact b.refusal_span_found? limit found span
  | _ => simp [refusal, GrammarError.span, GrammarError.found?]

/-- Where no step leads on, the error is fixed whatever tokens follow. -/
theorem foldlM_feed_append {limit : Option Nat} {s s' : State} {us : List Token} {t : Token}
    (hrun : us.foldlM (step? limit) s = some s') (ht : s'.step? limit t = none) (vs : List Token) :
    (us ++ t :: vs).foldlM (feed limit) s = .error (s'.refusal limit t.kind t.span) := by
  rw [List.foldlM_append, (foldlM_feed_eq_ok_iff limit us s s').mpr hrun]
  simp [feed, ht, bind, Except.bind]

theorem exists_of_foldlM_feed_eq_error {limit : Option Nat} {s : State} {ts : List Token}
    {e : GrammarError} (h : ts.foldlM (feed limit) s = .error e) :
    ∃ us t vs s', ts = us ++ t :: vs ∧ us.foldlM (step? limit) s = some s' ∧
      s'.step? limit t = none ∧ e = s'.refusal limit t.kind t.span := by
  induction ts generalizing s with
  | nil => cases h
  | cons t ts ih =>
    rw [List.foldlM_cons, feed] at h
    cases ht : s.step? limit t with
    | none =>
      simp only [ht, bind, Except.bind, Except.error.injEq] at h
      exact ⟨[], t, ts, s, rfl, rfl, ht, h.symm⟩
    | some next =>
      rw [ht] at h
      obtain ⟨us, u, vs, s', rfl, hrun, hu, he⟩ := ih h
      exact ⟨t :: us, u, vs, s', rfl, by simp [ht, hrun], hu, he⟩

/-- Some more tokens make a whole definition. -/
def Completes (limit : Option Nat) (s : State) : Prop :=
  ∃ (us : List Token) (s' : State) (d : Definition), (∀ t ∈ us, t.span.Fits) ∧
    us.foldlM (step? limit) s = some s' ∧ s'.result? = some d

variable {limit : Option Nat} {s s' : State} {name : String} {params : List String} {b : Body}

theorem Completes.cons (kind : Token.Kind) (h : s.step? limit (.unplaced kind "") = some s')
    (hc : s'.Completes limit) : s.Completes limit := by
  obtain ⟨us, s'', d, hfit, hrun, hd⟩ := hc
  refine ⟨.unplaced kind "" :: us, s'', d, ?_, by simp [h, hrun], hd⟩
  intro t ht
  obtain rfl | ht := List.mem_cons.mp ht
  · simp [Token.unplaced, Span.Fits]
  · exact hfit t ht

theorem Completes.body_cons {b' : Body} (kind : Token.Kind)
    (h : b.step? limit (.unplaced kind "") = some b') (hc : (body name params b').Completes limit) :
    (body name params b).Completes limit :=
  .cons kind (congrArg (Option.map (body name params)) h) hc

/-- One closing parenthesis after the other ends all calls. -/
theorem completes_of_holds {calls : List OpenCall} {n : Node} (h : b.Holds calls n) :
    (body name params b).Completes limit := by
  induction calls generalizing n b with
  | nil =>
    have hres := (Body.result?_eq_some_iff b n).mpr h
    exact ⟨[], _, { name, params, body := n }, by simp, rfl, by simp [result?, hres]⟩
  | cons call calls ih =>
    exact .body_cons .closeParen (h.closeParen rfl) (ih (n := .call _ _) ⟨rfl, rfl⟩)

theorem completes_of_ready {calls : List OpenCall} (h : b.Ready limit calls)
    (hl : limit ≠ some calls.length) : (body name params b).Completes limit :=
  .body_cons .integer (h.integer rfl hl) (completes_of_holds ⟨rfl, rfl⟩)

theorem completes_paramsClosed (hl : Within limit 1) : (paramsClosed name params).Completes limit :=
  .cons .colon rfl (completes_of_ready (Body.ready_due limit []) hl.ne)

theorem completes_paramsOpen (hl : Within limit 1) : (paramsOpen name).Completes limit :=
  .cons .closeParen rfl (completes_paramsClosed hl)

theorem completes_paramRead (hl : Within limit 1) : (paramRead name params).Completes limit :=
  .cons .closeParen rfl (completes_paramsClosed hl)

/-- The tokens read so far are always the start of a definition. -/
theorem Read.completes {ts : List Token} (hr : s.Read limit ts) (hl : Within limit 1) :
    s.Completes limit := by
  cases hr with
  | start =>
    exact .cons .defKeyword rfl
      (.cons .identifier rfl (.cons .openParen rfl (completes_paramsOpen hl)))
  | keyword hd => exact .cons .identifier rfl (.cons .openParen rfl (completes_paramsOpen hl))
  | named hd hf => exact .cons .openParen rfl (completes_paramsOpen hl)
  | paramsOpen hs => exact completes_paramsOpen hl
  | paramRead hs hp ht => exact completes_paramRead hl
  | paramDue hs hp => exact .cons .identifier rfl (completes_paramRead hl)
  | paramsClosed hs hp hc => exact completes_paramsClosed hl
  | body hs hp hc hlc hb =>
    cases hb with
    | due hf hn =>
      -- after a comma the argument before it shows that there is room for one more
      obtain rfl | hn := hn
      · exact completes_of_ready (Body.ready_due limit []) hl.ne
      · exact completes_of_ready (Body.ready_due limit _) hn.ne
    | named hf ht hn => exact completes_of_holds ⟨rfl, rfl⟩
    | opened hf ht ho hn => exact .cons .closeParen rfl (completes_of_holds ⟨rfl, rfl⟩)
    | done hf he hn => exact completes_of_holds ⟨rfl, rfl⟩

end State

end Reading

namespace Definition
open Reading

theorem readWithin_append_of_refused {limit : Option Nat} {us : List Token} {t : Token} {s : State}
    (hrun : us.foldlM (State.step? limit) .start = some s) (ht : s.step? limit t = none)
    (vs : List Token) :
    readWithin limit (us ++ t :: vs) = .error (s.refusal limit t.kind t.span) := by
  rw [readWithin, State.foldlM_feed_append hrun ht]
  rfl

/-- Reading fails at the first token that no step accepts, or else at the end. -/
theorem exists_of_readWithin_eq_error {limit : Option Nat} {ts : List Token} {e : GrammarError}
    (h : readWithin limit ts = .error e) :
    (∃ us t vs s, ts = us ++ t :: vs ∧ us.foldlM (State.step? limit) .start = some s ∧
      s.step? limit t = none ∧ e = s.refusal limit t.kind t.span) ∨
    (∃ s, ts.foldlM (State.step? limit) .start = some s ∧
      e = s.refusal limit .endOfInput (endSpan ts)) := by
  rw [readWithin] at h
  cases hf : ts.foldlM (State.feed limit) .start with
  | error e' =>
    rw [hf] at h
    cases h
    exact .inl (State.exists_of_foldlM_feed_eq_error hf)
  | ok s =>
    refine .inr ⟨s, (State.foldlM_feed_eq_ok_iff limit ts .start s).mp hf, ?_⟩
    rw [hf] at h
    simp only [bind, Except.bind, State.finish] at h
    cases hr : s.result? <;> simp_all

theorem exists_readWithin_append_eq_ok {limit : Option Nat} {us : List Token} {s : State}
    (hrun : us.foldlM (State.step? limit) .start = some s) (hl : Within limit 1) :
    ∃ vs d, (∀ t ∈ vs, t.span.Fits) ∧ readWithin limit (us ++ vs) = .ok d := by
  obtain ⟨vs, s', d, hfit, hrest, hd⟩ := (State.Read.start.run hrun).completes hl
  refine ⟨vs, d, hfit, (readWithin_eq_ok_iff_run limit (us ++ vs) d).mpr ⟨s', ?_, hd⟩⟩
  rw [List.foldlM_append, hrun]
  exact hrest

/-- Where the last token ends, in bytes. -/
def endOffset (ts : List Token) : Nat :=
  match ts.getLast? with
  | none => 0
  | some t => t.span.offset.toNat + t.span.length.toNat

theorem endSpan_length (ts : List Token) : (endSpan ts).length = 0 := by
  unfold endSpan
  split <;> rfl

theorem toNat_endSpan_offset {ts : List Token} (hfit : ∀ t ∈ ts, t.span.Fits) :
    (endSpan ts).offset.toNat = endOffset ts := by
  unfold endSpan endOffset
  cases hlast : ts.getLast? with
  | none => rfl
  | some t => exact Span.toNat_stop_offset (hfit t (List.mem_of_getLast? hlast))

/-- The tokens before the reported one still begin some definition, and with the reported one no
tokens that follow can change the error. -/
theorem read_error_is_earliest (ts : List Token) (e : GrammarError)
    (hfit : ∀ t ∈ ts, t.span.Fits) (h : read ts = .error e) :
    ∃ k, k ≤ ts.length ∧
      (∀ t, ts[k]? = some t → e.span = t.span ∧ ∀ kind, e.found? = some kind → kind = t.kind) ∧
      (k = ts.length → e.span.offset.toNat = endOffset ts ∧ e.span.length = 0 ∧
        ∀ kind, e.found? = some kind → kind = .endOfInput) ∧
      (∃ vs d, (∀ t ∈ vs, t.span.Fits) ∧ read (ts.take k ++ vs) = .ok d) ∧
      (k < ts.length → ∀ vs, read (ts.take (k + 1) ++ vs) = .error e) := by
  have hl : Within (some nestingLimit) 1 := by
    intro m hm
    obtain rfl := Option.some.inj hm
    decide
  obtain ⟨us, t, vs, s, rfl, hrun, ht, rfl⟩ | ⟨s, hrun, rfl⟩ := exists_of_readWithin_eq_error h
  · obtain ⟨hspan, hfound⟩ := s.refusal_span_found? (some nestingLimit) t.kind t.span
    refine ⟨us.length, by simp, ?_, ?_, ?_, ?_⟩
    · intro u hu
      obtain rfl : t = u := by simpa using hu
      exact ⟨hspan, hfound⟩
    · intro hk
      simp at hk
    · rw [List.take_left]
      exact exists_readWithin_append_eq_ok hrun hl
    · intro _ ws
      have htake : (us ++ t :: vs).take (us.length + 1) = us ++ [t] := by
        simp [List.take_append, List.take_of_length_le]
      rw [htake, List.append_assoc]
      exact readWithin_append_of_refused hrun ht ws
  · obtain ⟨hspan, hfound⟩ := s.refusal_span_found? (some nestingLimit) .endOfInput (endSpan ts)
    refine ⟨ts.length, le_rfl, ?_, ?_, ?_, ?_⟩
    · intro u hu
      simp at hu
    · intro _
      rw [hspan]
      exact ⟨toNat_endSpan_offset hfit, endSpan_length ts, hfound⟩
    · rw [List.take_length]
      exact exists_readWithin_append_eq_ok hrun hl
    · intro hk
      exact absurd hk (lt_irrefl _)

/-- The tokens of `def f(): g(1 2)`. -/
def missingComma : List Token :=
  [⟨.defKeyword, "def", ⟨0, 3⟩⟩, ⟨.identifier, "f", ⟨4, 1⟩⟩, ⟨.openParen, "(", ⟨5, 1⟩⟩,
    ⟨.closeParen, ")", ⟨6, 1⟩⟩, ⟨.colon, ":", ⟨7, 1⟩⟩, ⟨.identifier, "g", ⟨9, 1⟩⟩,
    ⟨.openParen, "(", ⟨10, 1⟩⟩, ⟨.integer, "1", ⟨11, 1⟩⟩, ⟨.integer, "2", ⟨13, 1⟩⟩,
    ⟨.closeParen, ")", ⟨14, 1⟩⟩]

theorem read_missingComma_error_is_earliest :
    (∀ t ∈ missingComma, t.span.Fits) ∧
      read missingComma = .error (.expected .closeParen .integer ⟨13, 1⟩) ∧
      ∃ k, k ≤ missingComma.length ∧
        (∀ t, missingComma[k]? = some t → ⟨13, 1⟩ = t.span) ∧ k ≠ missingComma.length ∧
        (∃ vs d, (∀ t ∈ vs, t.span.Fits) ∧ read (missingComma.take k ++ vs) = .ok d) ∧
        ∀ vs, read (missingComma.take (k + 1) ++ vs) =
          .error (.expected .closeParen .integer ⟨13, 1⟩) := by
  have hfit : ∀ t ∈ missingComma, t.span.Fits := by
    simp [missingComma, Span.Fits]
  have herr : read missingComma = .error (.expected .closeParen .integer ⟨13, 1⟩) := rfl
  obtain ⟨k, hk, hat, hend, hviable, hfixed⟩ := read_error_is_earliest missingComma _ hfit herr
  have hne : k ≠ missingComma.length := by
    intro he
    have hoffset : 13 = endOffset missingComma := (hend he).1
    simp [endOffset, missingComma] at hoffset
  exact ⟨hfit, herr, k, hk, fun t ht => (hat t ht).1, hne, hviable, hfixed (by omega)⟩

end Definition

end DefLang
