import DefLang.Proofs.Refusal
import Mathlib.Data.Nat.Find

namespace DefLang

namespace Reading
open Grammar (Expression Name Params Separated)

/-- An opening parenthesis counts one, a closing one takes it back. -/
def weight (t : Token) : Int :=
  match t.kind with
  | .openParen => 1
  | .closeParen => -1
  | _ => 0

/-- How many parentheses are opened and not closed. -/
def nesting : List Token → Int
  | [] => 0
  | t :: ts => weight t + nesting ts

/-- How many calls are open at the end of the tokens. The parentheses in front of the colon are
those of the parameters. -/
def openCalls (ts : List Token) : Int :=
  nesting (ts.dropWhile fun t => t.kind != .colon)

@[simp] theorem nesting_nil : nesting [] = 0 := rfl

@[simp] theorem nesting_cons (t : Token) (ts : List Token) :
    nesting (t :: ts) = weight t + nesting ts := rfl

@[simp] theorem nesting_append (ts us : List Token) :
    nesting (ts ++ us) = nesting ts + nesting us := by
  induction ts with
  | nil => simp
  | cons t ts ih => rw [List.cons_append, nesting_cons, nesting_cons, ih, Int.add_assoc]

theorem nesting_separated {α : Type} {Item : List Token → α → Prop} {ts : List Token} {xs : List α}
    (hitem : ∀ us x, Item us x → nesting us = 0) (hs : Separated Item ts xs) : nesting ts = 0 := by
  induction hs with
  | one hx => exact hitem _ _ hx
  | more hx hc _ ih => simp [ih, hitem _ _ hx, weight, hc]

theorem nesting_pending {α : Type} {Item : List Token → α → Prop} {ts : List Token} {xs : List α}
    (hitem : ∀ us x, Item us x → nesting us = 0) (hp : Pending Item xs ts) : nesting ts = 0 := by
  induction hp with
  | nil => rfl
  | cons _ hx hc ih => simp [ih, hitem _ _ hx, weight, hc]

/-- Every expression closes the calls that it opens. -/
theorem nesting_expression (ts : List Token) (n : Node) (he : Expression ts n) :
    nesting ts = 0 := by
  induction he using Expression.induction with
  | integer t ht => simp [weight, ht]
  | reference t ht => simp [weight, ht]
  | emptyCall f o c hf ho hc => simp [weight, hf, ho, hc]
  | call f o c ts args hf ho hs hc ih =>
    have hargs := nesting_separated (fun us x hx => hx.2) ih
    simp [weight, hf, ho, hc, hargs]

theorem Frames.nesting_eq {limit : Option Nat} {calls : List OpenCall} {ts : List Token}
    (hs : Frames limit calls ts) : nesting ts = calls.length := by
  induction hs with
  | nil => rfl
  | cons _ hf ho hp _ _ ih =>
    have hargs := nesting_pending nesting_expression hp
    simp [ih, weight, hf, ho, hargs]

/-- How many calls are open, with the one that has just been opened. -/
def Body.depth (b : Body) : Nat :=
  match b.place with
  | .opened _ => b.calls.length + 1
  | _ => b.calls.length

theorem Body.Read.nesting_eq {limit : Option Nat} {b : Body} {ts : List Token}
    (hr : b.Read limit ts) : nesting ts = b.depth := by
  cases hr with
  | due hs _ => exact hs.nesting_eq
  | named hs hf _ => simp [hs.nesting_eq, weight, hf, Body.depth]
  | opened hs hf ho _ => simp [hs.nesting_eq, weight, hf, ho, Body.depth]
  | done hs he _ => simp [hs.nesting_eq, nesting_expression _ _ he, Body.depth]

theorem Opening.kind_ne_colon {name : String} {ts : List Token} (h : Opening name ts) :
    ∀ t ∈ ts, t.kind ≠ .colon := by
  cases h with
  | mk hd hf ho => simp [hd, hf, ho]

theorem kind_ne_colon_of_params {ts : List Token} {params : List String} (h : Params ts params) :
    ∀ t ∈ ts, t.kind ≠ .colon := by
  cases h with
  | none => simp
  | some hs =>
    induction hs with
    | one hx =>
      obtain ⟨ht⟩ := hx
      simp [ht]
    | more hx hc _ ih =>
      obtain ⟨ht⟩ := hx
      simpa [ht, hc] using ih

/-- Only what follows the colon counts. -/
theorem openCalls_append {ts us : List Token} {l : Token} (hts : ∀ t ∈ ts, t.kind ≠ .colon)
    (hl : l.kind = .colon) : openCalls (ts ++ l :: us) = nesting us := by
  have hdrop : (ts ++ l :: us).dropWhile (fun t => t.kind != .colon) = l :: us := by
    rw [List.dropWhile_append_of_pos (by simpa using hts)]
    simp [hl]
  rw [openCalls, hdrop, nesting_cons]
  simp [weight, hl]

theorem openCalls_of_ne_colon {ts : List Token} (hts : ∀ t ∈ ts, t.kind ≠ .colon) :
    openCalls ts = 0 := by
  have hdrop : ts.dropWhile (fun t => t.kind != .colon) = [] := by simpa using hts
  rw [openCalls, hdrop, nesting_nil]

theorem State.Read.openCalls_eq {limit : Option Nat} {name : String} {params : List String}
    {b : Body} {ts : List Token} (hr : (State.body name params b).Read limit ts) :
    openCalls ts = b.depth := by
  cases hr with
  | @body _ _ _ ts us vs c l hs hp hc hl hb =>
    have hhead : ∀ t ∈ ts ++ (us ++ [c]), t.kind ≠ .colon := by
      intro t ht
      simp only [List.mem_append, List.mem_singleton] at ht
      obtain ht | ht | rfl := ht
      · exact hs.kind_ne_colon t ht
      · exact kind_ne_colon_of_params hp t ht
      · simp [hc]
    have hcalls : openCalls (ts ++ (us ++ [c]) ++ l :: vs) = nesting vs :=
      openCalls_append hhead hl
    rw [hb.nesting_eq] at hcalls
    simpa using hcalls

namespace State

/-- The reader has just opened the last call that the limit `n` allows. -/
def Full (n : Nat) (s : State) : Prop :=
  ∃ name params calls f, s = body name params ⟨calls, .opened f⟩ ∧ calls.length + 1 = n

variable {n : Nat} {s s' : State} {t : Token}

theorem step?_openParen_cases {limit : Option Nat} (h : s.step? limit t = some s')
    (ht : t.kind = .openParen) :
    (∃ name, s' = paramsOpen name) ∨
      ∃ name params calls f, s' = body name params ⟨calls, .opened f⟩ := by
  cases s with
  | named name =>
    left
    exact ⟨name, by simpa [step?, ht, eq_comm] using h⟩
  | body name params b =>
    right
    obtain ⟨calls, place⟩ := b
    cases place with
    | named f => exact ⟨name, params, calls, f, by simpa [step?, Body.step?, ht, eq_comm] using h⟩
    | _ => cases calls <;> simp [step?, Body.step?, Body.enter?, Body.leave?, ht] at h
  | _ => simp [step?, ht] at h

theorem Full.step?_eq_none (h : s.Full n) (ht : t.kind ≠ .closeParen) :
    s.step? (some n) t = none := by
  obtain ⟨name, params, calls, f, rfl, hn⟩ := h
  simp [step?, Body.step?, ht, Body.enter?, hn]

theorem Full.refusal_eq (h : s.Full n) (found : Token.Kind) (span : Span) :
    s.refusal (some n) found span = .tooDeep span := by
  obtain ⟨name, params, calls, f, rfl, hn⟩ := h
  simp [refusal, Body.refusal, Body.noEntry, hn]

theorem Full.result?_eq_none (h : s.Full n) : s.result? = none := by
  obtain ⟨name, params, calls, f, rfl, _⟩ := h
  cases calls <;> rfl

theorem Full.feed_closeParen (h : s.Full n) (ht : t.kind = .closeParen) :
    s.feed (some n) t = s.feed none t := by
  obtain ⟨name, params, calls, f, rfl, _⟩ := h
  simp [feed, step?, Body.step?, ht]

end State

theorem Body.enter?_eq_none_limit {n : Nat} {calls : List OpenCall} (h : calls.length ≠ n)
    (t : Token) : enter? (some n) calls t = enter? none calls t := by
  simp [enter?, Ne.symm h]

theorem Body.noEntry_eq_none_limit {n depth : Nat} (h : depth ≠ n) (found : Token.Kind)
    (span : Span) : noEntry (some n) depth found span = noEntry none depth found span := by
  simp [noEntry, Ne.symm h]

/-- Any other state that can be reached does as it would without a limit. -/
theorem Body.Read.limit_cases {n : Nat} {b : Body} {ts : List Token} (hr : b.Read (some n) ts)
    (hn : 0 < n) :
    (∃ calls f, b = ⟨calls, .opened f⟩ ∧ calls.length + 1 = n) ∨
      (∀ t, b.step? (some n) t = b.step? none t) ∧
        ∀ found span, b.refusal (some n) found span = b.refusal none found span := by
  cases hr with
  | @due calls ts hs hroom =>
    have hne : calls.length ≠ n := by
      obtain rfl | hroom := hroom
      · exact Nat.ne_of_lt hn
      · exact fun he => hroom.ne (by rw [he])
    exact .inr ⟨enter?_eq_none_limit hne, noEntry_eq_none_limit hne⟩
  | named hs hf _ => exact .inr ⟨fun _ => rfl, fun _ _ => rfl⟩
  | @opened calls ts f o hs hf ho _ =>
    by_cases he : calls.length + 1 = n
    · exact .inl ⟨calls, f.value, rfl, he⟩
    · have hlen : (OpenCall.mk f.value [] :: calls).length ≠ n := he
      refine .inr ⟨fun t => ?_, noEntry_eq_none_limit he⟩
      simp only [step?, enter?_eq_none_limit hlen]
  | done hs he _ => exact .inr ⟨fun _ => rfl, fun _ _ => rfl⟩

namespace State

theorem Read.limit_cases {n : Nat} {s : State} {ts : List Token} (hr : s.Read (some n) ts)
    (hn : 0 < n) :
    s.Full n ∨ (∀ t, s.step? (some n) t = s.step? none t) ∧
      ∀ found span, s.refusal (some n) found span = s.refusal none found span := by
  cases hr with
  | @body name params b _ _ _ _ _ _ _ _ _ hb =>
    obtain ⟨calls, f, rfl, he⟩ | ⟨hstep, hrefusal⟩ := hb.limit_cases hn
    · exact .inl ⟨name, params, calls, f, rfl, he⟩
    · exact .inr ⟨fun t => by simp only [step?, hstep], hrefusal⟩
  | _ => exact .inr ⟨fun t => by cases ht : t.kind <;> simp [step?, ht], fun _ _ => rfl⟩

theorem Read.feed_eq_or {n : Nat} {s : State} {ts : List Token} (hr : s.Read (some n) ts)
    (hn : 0 < n) (t : Token) :
    s.feed (some n) t = s.feed none t ∨ s.Full n ∧ t.kind ≠ .closeParen := by
  obtain hfull | ⟨hstep, hrefusal⟩ := hr.limit_cases hn
  · by_cases ht : t.kind = .closeParen
    · exact .inl (hfull.feed_closeParen ht)
    · exact .inr ⟨hfull, ht⟩
  · left
    simp only [feed, hstep, hrefusal]

theorem Read.finish_eq_or {n : Nat} {s : State} {ts : List Token} (hr : s.Read (some n) ts)
    (hn : 0 < n) (span : Span) : s.finish (some n) span = s.finish none span ∨ s.Full n := by
  obtain hfull | ⟨_, hrefusal⟩ := hr.limit_cases hn
  · exact .inr hfull
  · left
    simp only [finish, hrefusal]

/-- Without a limit nothing is nested too deep. -/
theorem refusal_none_ne_tooDeep (s : State) (found : Token.Kind) (span span' : Span) :
    s.refusal none found span ≠ .tooDeep span' := by
  cases s with
  | body name params b =>
    obtain ⟨calls, place⟩ := b
    cases place <;> cases calls <;> simp [refusal, Body.refusal, Body.noEntry, Body.noExit]
  | _ => simp [refusal]

theorem Read.exists_getLast?_of_opened {limit : Option Nat} {name f : String}
    {params : List String} {calls : List OpenCall} {ts : List Token}
    (hr : (State.body name params ⟨calls, .opened f⟩).Read limit ts) :
    ∃ o, ts.getLast? = some o ∧ o.kind = .openParen := by
  cases hr with
  | body hs hp hc hl hb =>
    cases hb with
    | opened hs' hf ho hn => exact ⟨_, by simp [List.getLast?_cons], ho⟩

end State

/-- After `k` tokens the last call that the limit `n` allows is open, and it is not closed at
once. -/
def StopsAt (n : Nat) (ts : List Token) (k : Nat) : Prop :=
  k ≤ ts.length ∧ (∃ s, (ts.take k).foldlM (State.step? none) .start = some s ∧ s.Full n) ∧
    ∀ t, ts[k]? = some t → t.kind ≠ .closeParen

/-- The place of the token at index `k`, or where the input ends. -/
def spanAt (ts : List Token) (k : Nat) : Span :=
  match ts[k]? with
  | some t => t.span
  | none => endSpan ts

def kindAt (ts : List Token) (k : Nat) : Token.Kind :=
  match ts[k]? with
  | some t => t.kind
  | none => .endOfInput

open State in
/-- The limit makes no difference before the first place where it stops the reader. -/
theorem foldlM_feed_take_eq {n : Nat} (hn : 0 < n) (ts : List Token) {k : Nat} (hk : k ≤ ts.length)
    (hfree : ∀ j, j < k → ¬ StopsAt n ts j) :
    (ts.take k).foldlM (feed (some n)) .start = (ts.take k).foldlM (feed none) .start := by
  induction k with
  | zero => rfl
  | succ k ih =>
    have hlt : k < ts.length := hk
    have hsame := ih (Nat.le_of_lt hlt) fun j hj => hfree j (Nat.lt_succ_of_lt hj)
    rw [List.take_succ_eq_append_getElem hlt, List.foldlM_append, List.foldlM_append, hsame]
    cases hrun : (ts.take k).foldlM (feed none) .start with
    | error e => rfl
    | ok s =>
      -- both readers are in the state `s`, and only a full one makes a difference
      have hstep := (foldlM_feed_eq_ok_iff none _ _ _).mp hrun
      have hread := Read.start.run ((foldlM_feed_eq_ok_iff (some n) _ _ _).mp (hsame.trans hrun))
      obtain hfeed | ⟨hfull, ht⟩ := hread.feed_eq_or hn ts[k]
      · simp only [bind, Except.bind, List.foldlM_cons, List.foldlM_nil, hfeed]
      · refine (hfree k (Nat.lt_succ_self k) ⟨Nat.le_of_lt hlt, ⟨s, hstep, hfull⟩, ?_⟩).elim
        intro t hk
        rw [List.getElem?_eq_getElem hlt] at hk
        obtain rfl := Option.some.inj hk
        exact ht

end Reading

namespace Definition
open Reading

theorem readWithin_eq_of_not_stopsAt {n : Nat} (hn : 0 < n) {ts : List Token}
    (h : ∀ k, ¬ StopsAt n ts k) : readWithin (some n) ts = readWithin none ts := by
  have hrun := foldlM_feed_take_eq hn ts (Nat.le_refl _) fun j _ => h j
  rw [List.take_length] at hrun
  rw [readWithin, readWithin, hrun]
  cases hs : ts.foldlM (State.feed none) .start with
  | error e => rfl
  | ok s =>
    have hstep := (State.foldlM_feed_eq_ok_iff none _ _ _).mp hs
    have hread := State.Read.start.run
      ((State.foldlM_feed_eq_ok_iff (some n) _ _ _).mp (hrun.trans hs))
    obtain hfinish | hfull := hread.finish_eq_or hn (endSpan ts)
    · exact hfinish
    · refine (h ts.length ⟨Nat.le_refl _, ⟨s, ?_, hfull⟩, by simp⟩).elim
      rwa [List.take_length]

theorem readWithin_eq_refusal {limit : Option Nat} {ts : List Token} {k : Nat} {s : State}
    (hrun : (ts.take k).foldlM (State.step? limit) .start = some s)
    (hnext : ∀ t, ts[k]? = some t → s.step? limit t = none)
    (hend : ts[k]? = none → s.result? = none) :
    readWithin limit ts = .error (s.refusal limit (kindAt ts k) (spanAt ts k)) := by
  unfold kindAt spanAt
  cases ht : ts[k]? with
  | some t =>
    obtain ⟨hlt, rfl⟩ := List.getElem?_eq_some_iff.mp ht
    have hsplit : ts = ts.take k ++ ts[k] :: ts.drop (k + 1) := by simp
    have hstop := readWithin_append_of_refused hrun (hnext _ ht) (ts.drop (k + 1))
    rwa [← hsplit] at hstop
  | none =>
    have hall : ts.take k = ts := List.take_of_length_le (List.getElem?_eq_none_iff.mp ht)
    rw [hall] at hrun
    rw [readWithin, (State.foldlM_feed_eq_ok_iff limit _ _ _).mpr hrun]
    simp [bind, Except.bind, State.finish, hend ht]

theorem readWithin_eq_tooDeep {n : Nat} (hn : 0 < n) {ts : List Token} {k : Nat}
    (h : StopsAt n ts k) (hfirst : ∀ j, j < k → ¬ StopsAt n ts j) :
    readWithin (some n) ts = .error (.tooDeep (spanAt ts k)) := by
  obtain ⟨hk, ⟨s, hs, hfull⟩, hnext⟩ := h
  have hrun := foldlM_feed_take_eq hn ts hk hfirst
  rw [(State.foldlM_feed_eq_ok_iff none _ _ _).mpr hs, State.foldlM_feed_eq_ok_iff] at hrun
  have hstop := fun t ht => hfull.step?_eq_none (hnext t ht)
  rw [readWithin_eq_refusal hrun hstop fun _ => hfull.result?_eq_none, hfull.refusal_eq]

theorem exists_first_stop {n : Nat} (hn : 0 < n) {ts : List Token} (h : ∃ k, StopsAt n ts k) :
    ∃ k, StopsAt n ts k ∧ (∀ j, StopsAt n ts j → k ≤ j) ∧
      readWithin (some n) ts = .error (.tooDeep (spanAt ts k)) := by
  classical
  refine ⟨Nat.find h, Nat.find_spec h, fun j hj => Nat.find_min' h hj, ?_⟩
  exact readWithin_eq_tooDeep hn (Nat.find_spec h) fun j hj => Nat.find_min h hj

theorem readWithin_none_ne_tooDeep (ts : List Token) (span : Span) :
    readWithin none ts ≠ .error (.tooDeep span) := by
  intro h
  obtain ⟨us, t, vs, s, _, _, _, he⟩ | ⟨s, _, he⟩ := exists_of_readWithin_eq_error h
  · exact s.refusal_none_ne_tooDeep _ _ _ he.symm
  · exact s.refusal_none_ne_tooDeep _ _ _ he.symm

/-- The tokens up to index `k` begin some definition, with any nesting. They end where `n` calls are
open, with the parenthesis that opens the last of them, and it is not closed at once. -/
structure AtLimit (n : Nat) (ts : List Token) (k : Nat) : Prop where
  le_length : k ≤ ts.length
  viable : ∃ vs d, (∀ t ∈ vs, t.span.Fits) ∧ readWithin none (ts.take k ++ vs) = .ok d
  opens : ∃ t, (ts.take k).getLast? = some t ∧ t.kind = .openParen
  openCalls_eq : openCalls (ts.take k) = n
  notClosed : ∀ t, ts[k]? = some t → t.kind ≠ .closeParen

theorem exists_run_of_viable {us vs : List Token} {d : Definition}
    (h : readWithin none (us ++ vs) = .ok d) :
    ∃ s, us.foldlM (State.step? none) .start = some s := by
  obtain ⟨s', hrun, _⟩ := (readWithin_eq_ok_iff_run ..).mp h
  rw [List.foldlM_append] at hrun
  obtain ⟨s, hs, _⟩ := Option.bind_eq_some_iff.mp hrun
  exact ⟨s, hs⟩

theorem AtLimit.stopsAt {n : Nat} {ts : List Token} {k : Nat} (h : AtLimit n ts k) (hn : 0 < n) :
    StopsAt n ts k := by
  obtain ⟨vs, d, _, hd⟩ := h.viable
  obtain ⟨s, hs⟩ := exists_run_of_viable hd
  have hread := State.Read.start.run hs
  rw [List.nil_append] at hread
  refine ⟨h.le_length, ⟨s, hs, ?_⟩, h.notClosed⟩
  obtain ⟨t, hlast, ht⟩ := h.opens
  obtain ⟨us, hus⟩ := List.getLast?_eq_some_iff.mp hlast
  have hcalls := h.openCalls_eq
  rw [hus] at hs hread hcalls
  rw [List.foldlM_append] at hs
  obtain ⟨s', _, hstep⟩ := Option.bind_eq_some_iff.mp hs
  obtain ⟨name, rfl⟩ | ⟨name, params, calls, f, rfl⟩ :=
    State.step?_openParen_cases (by simpa using hstep) ht
  · -- the parenthesis of the parameters, with no call open
    cases hread with
    | paramsOpen hs =>
      rw [openCalls_of_ne_colon hs.kind_ne_colon] at hcalls
      omega
  · rw [hread.openCalls_eq] at hcalls
    exact ⟨name, params, calls, f, rfl, Int.ofNat_inj.mp hcalls⟩

theorem atLimit_iff_stopsAt {n : Nat} (hn : 0 < n) (ts : List Token) (k : Nat) :
    AtLimit n ts k ↔ StopsAt n ts k := by
  refine ⟨fun h => h.stopsAt hn, fun h => ?_⟩
  obtain ⟨hk, ⟨s, hs, name, params, calls, f, rfl, hcalls⟩, hnext⟩ := h
  have hread := State.Read.start.run hs
  rw [List.nil_append] at hread
  exact {
    le_length := hk
    viable := exists_readWithin_append_eq_ok hs (by simp [Within])
    opens := hread.exists_getLast?_of_opened
    openCalls_eq := by
      rw [hread.openCalls_eq, ← hcalls]
      rfl
    notClosed := hnext }

theorem exists_first_atLimit {n : Nat} (hn : 0 < n) {ts : List Token} (h : ∃ k, AtLimit n ts k) :
    ∃ k, AtLimit n ts k ∧ (∀ j, AtLimit n ts j → k ≤ j) ∧
      readWithin (some n) ts = .error (.tooDeep (spanAt ts k)) := by
  simp only [atLimit_iff_stopsAt hn] at h ⊢
  exact exists_first_stop hn h

theorem readWithin_eq_of_not_atLimit {n : Nat} (hn : 0 < n) {ts : List Token}
    (h : ¬ ∃ k, AtLimit n ts k) : readWithin (some n) ts = readWithin none ts := by
  apply readWithin_eq_of_not_stopsAt hn
  intro k hk
  exact h ⟨k, (atLimit_iff_stopsAt hn ts k).mpr hk⟩

theorem exists_tooDeep_iff {n : Nat} (hn : 0 < n) (ts : List Token) :
    (∃ span, readWithin (some n) ts = .error (.tooDeep span)) ↔ ∃ k, AtLimit n ts k := by
  refine ⟨fun ⟨span, hspan⟩ => ?_, fun h => ?_⟩
  · by_contra h
    rw [readWithin_eq_of_not_atLimit hn h] at hspan
    exact readWithin_none_ne_tooDeep ts span hspan
  · obtain ⟨k, _, _, hread⟩ := exists_first_atLimit hn h
    exact ⟨_, hread⟩

/-- The limit on nesting stops the reader at the first place where it can, and changes nothing
else. -/
theorem limit_is_the_only_departure (ts : List Token) (hfit : ∀ t ∈ ts, t.span.Fits) :
    ((∃ span, read ts = .error (.tooDeep span)) ↔ ∃ k, AtLimit 128 ts k) ∧
      (∀ span, read ts = .error (.tooDeep span) →
        ∃ k, AtLimit 128 ts k ∧ (∀ j, AtLimit 128 ts j → k ≤ j) ∧
          (∀ t, ts[k]? = some t → span = t.span) ∧
          (k = ts.length → span.offset.toNat = endOffset ts ∧ span.length = 0)) ∧
      ((¬ ∃ k, AtLimit 128 ts k) → read ts = readWithin none ts) ∧
      ∀ d, readWithin none ts = .ok d →
        (d.body.levels ≤ 128 → read ts = .ok d) ∧
          (128 < d.body.levels → ∃ span, read ts = .error (.tooDeep span)) := by
  have hn : 0 < 128 := by decide
  have hdeep := exists_tooDeep_iff hn ts
  refine ⟨hdeep, fun span hspan => ?_, readWithin_eq_of_not_atLimit hn, fun d hd => ⟨fun hl => ?_,
    fun hl => ?_⟩⟩
  · obtain ⟨k, hk, hleast, hread⟩ := exists_first_atLimit hn (hdeep.mp ⟨span, hspan⟩)
    obtain rfl : spanAt ts k = span := by simpa using hread.symm.trans hspan
    refine ⟨k, hk, hleast, fun t ht => by simp [spanAt, ht], fun he => ?_⟩
    have hend : spanAt ts k = endSpan ts := by simp [spanAt, he]
    rw [hend]
    exact ⟨toNat_endSpan_offset hfit, endSpan_length ts⟩
  · exact (read_eq_ok_iff ts d).mpr ⟨((readWithin_eq_ok_iff none ts d).mp hd).1, hl⟩
  · apply hdeep.mpr
    by_contra h
    have hok : read ts = .ok d := (readWithin_eq_of_not_atLimit hn h).trans hd
    have hle := ((read_eq_ok_iff ts d).mp hok).2
    exact absurd hl (Nat.not_lt.mpr hle)

/-- The tokens of `def f(): f(f(..1`, with `n` calls open. -/
def deepCalls (n : Nat) : List Token :=
  List.map (Token.unplaced · "") ([.defKeyword, .identifier, .openParen, .closeParen, .colon] ++
    (List.replicate n [.identifier, .openParen]).flatten ++ [.integer])

set_option maxRecDepth 4000 in
theorem limit_stops_deepCalls :
    (∀ t ∈ deepCalls 128, t.span.Fits) ∧
      read (deepCalls 128) = .error (.tooDeep ⟨0, 0⟩) ∧
      ∃ k, AtLimit 128 (deepCalls 128) k ∧ ∀ j, AtLimit 128 (deepCalls 128) j → k ≤ j := by
  have hfit : ∀ t ∈ deepCalls 128, t.span.Fits := by
    intro t ht
    obtain ⟨kind, _, rfl⟩ := List.mem_map.mp ht
    simp [Token.unplaced, Span.Fits]
  have herr : read (deepCalls 128) = .error (.tooDeep ⟨0, 0⟩) := rfl
  obtain ⟨_, hleast, _, _⟩ := limit_is_the_only_departure (deepCalls 128) hfit
  obtain ⟨k, hk, hfirst, _⟩ := hleast _ herr
  exact ⟨hfit, herr, k, hk, hfirst⟩

end Definition

end DefLang
