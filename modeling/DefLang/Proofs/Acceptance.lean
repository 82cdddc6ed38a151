import DefLang.Proofs.Attempt
import DefLang.Proofs.Grammar

namespace DefLang

namespace Reading

/-- With no limit every number is within it. -/
def Within (limit : Option Nat) (n : Nat) : Prop :=
  ∀ m, limit = some m → n ≤ m

theorem Within.mono {limit : Option Nat} {k n : Nat} (h : Within limit n) (hk : k ≤ n) :
    Within limit k :=
  fun m hm => hk.trans (h m hm)

theorem Within.succ {limit : Option Nat} {n : Nat} (h : Within limit n) (hn : limit ≠ some n) :
    Within limit (n + 1) := by
  intro m hm
  have hle := h m hm
  have hne : n ≠ m := fun he => hn (he ▸ hm)
  omega

theorem Within.ne {limit : Option Nat} {n : Nat} (h : Within limit (n + 1)) : limit ≠ some n := by
  intro hm
  have hle := h n hm
  omega

theorem within_call_iff (limit : Option Nat) (depth : Nat) (name : String) (args : List Node) :
    Within limit (depth + (Node.call name args).levels) ↔
      Within limit (depth + 1) ∧ ∀ n ∈ args, Within limit (depth + 1 + n.levels) := by
  refine ⟨fun h => ⟨h.mono ?_, fun n hn => h.mono ?_⟩, fun h m hm => ?_⟩
  · have hp := (Node.call name args).levels_pos
    omega
  · have hd := (Node.deepest_le_iff args _).mp le_rfl n hn
    simp only [Node.levels]
    omega
  · have hle := h.1 m hm
    have hd : Node.deepest args ≤ m - (depth + 1) := by
      apply (Node.deepest_le_iff args _).mpr
      intro n hn
      have hle' := h.2 n hn m hm
      omega
    simp only [Node.levels]
    omega

/-- The expression that `place` has complete, if the next token does not open a call. -/
def Place.node? : Place → Option Node
  | .named name => some (.reference name)
  | .done node => some node
  | _ => none

namespace Body

theorem enter?_eq_some_iff (limit : Option Nat) (calls : List OpenCall) (t : Token) (b : Body) :
    enter? limit calls t = some b ↔ limit ≠ some calls.length ∧
      ((t.kind = .integer ∧
          b = ⟨calls, .done (.integer (String.ofList (Text.unpadded t.value.toList)))⟩) ∨
        (t.kind = .identifier ∧ b = ⟨calls, .named t.value⟩)) := by
  unfold enter?
  rw [Text.dropZeros_eq_unpadded]
  by_cases hl : limit = some calls.length
  · simp [hl]
  · cases ht : t.kind <;> simp [hl, eq_comm]

theorem leave?_eq_some_iff (calls : List OpenCall) (node : Node) (t : Token) (b : Body) :
    leave? calls node t = some b ↔ ∃ call outer, calls = call :: outer ∧
      ((t.kind = .comma ∧ b = ⟨⟨call.name, node :: call.args⟩ :: outer, .due⟩) ∨
        (t.kind = .closeParen ∧
          b = ⟨outer, .done (.call call.name (node :: call.args).reverse)⟩)) := by
  cases calls with
  | nil => simp [leave?]
  | cons call outer =>
    refine ⟨fun h => ⟨call, outer, rfl, ?_⟩, fun h => ?_⟩
    · cases ht : t.kind <;> simp_all [leave?]
    · obtain ⟨call, outer, hc, hb⟩ := h
      obtain ⟨rfl, rfl⟩ := List.cons.inj hc
      obtain ⟨ht, rfl⟩ | ⟨ht, rfl⟩ := hb <;> simp [leave?, ht]

theorem step?_opened (limit : Option Nat) (calls : List OpenCall) (name : String) (t : Token)
    (ht : t.kind ≠ .closeParen) :
    step? limit ⟨calls, .opened name⟩ t =
      enter? limit (⟨name, []⟩ :: calls) t := by
  simp [step?, ht]

theorem step?_of_node? (limit : Option Nat) {b : Body} {node : Node} {t : Token}
    (h : b.place.node? = some node) (ht : t.kind ≠ .openParen) :
    b.step? limit t = leave? b.calls node t := by
  obtain ⟨calls, place⟩ := b
  cases place <;> simp_all [Place.node?, step?]

theorem result?_eq_some_iff (b : Body) (node : Node) :
    b.result? = some node ↔ b.calls = [] ∧ b.place.node? = some node := by
  obtain ⟨calls, place⟩ := b
  cases calls <;> cases place <;> simp [result?, Place.node?]

end Body

namespace State

theorem foldlM_body (limit : Option Nat) (name : String) (params : List String) (ts : List Token)
    (b : Body) :
    ts.foldlM (step? limit) (body name params b) =
      (ts.foldlM (Body.step? limit) b).map (body name params) := by
  induction ts generalizing b with
  | nil => rfl
  | cons t ts ih =>
    simp only [List.foldlM_cons, step?, Option.bind_eq_bind]
    cases b.step? limit t with
    | none => rfl
    | some next => exact ih next

theorem foldlM_feed_eq_ok_iff (limit : Option Nat) (ts : List Token) (s s' : State) :
    ts.foldlM (feed limit) s = .ok s' ↔ ts.foldlM (step? limit) s = some s' := by
  induction ts generalizing s with
  | nil => simp [pure, Except.pure]
  | cons t ts ih =>
    simp only [List.foldlM_cons, feed]
    cases s.step? limit t with
    | none => simp [bind, Except.bind]
    | some next => exact ih next

theorem step?_endOfInput (limit : Option Nat) (s : State) {t : Token} (ht : t.kind = .endOfInput) :
    s.step? limit t = none := by
  cases s with
  | body name params b =>
    obtain ⟨calls, place⟩ := b
    cases place <;> cases calls <;> simp [step?, Body.step?, Body.enter?, Body.leave?, ht]
  | _ => simp [step?, ht]

theorem kind_ne_endOfInput {limit : Option Nat} {s s' : State} {ts : List Token}
    (h : ts.foldlM (step? limit) s = some s') : ∀ t ∈ ts, t.kind ≠ .endOfInput := by
  induction ts generalizing s with
  | nil => simp
  | cons t ts ih =>
    obtain ⟨next, hn, hrest⟩ := Option.bind_eq_some_iff.mp h
    intro u hu
    obtain rfl | hu := List.mem_cons.mp hu
    · intro hk
      rw [step?_endOfInput limit s hk] at hn
      cases hn
    · exact ih hrest u hu

theorem finish_eq_ok_iff (limit : Option Nat) (s : State) (span : Span) (d : Definition) :
    s.finish limit span = .ok d ↔ s.result? = some d := by
  unfold finish
  cases s.result? <;> simp

end State

/-- Items with a comma after each of them, newest first. -/
inductive Pending {α : Type} (Item : List Token → α → Prop) : List α → List Token → Prop where
  | nil : Pending Item [] []
  | cons {xs : List α} {us ts : List Token} {x : α} {c : Token} (hp : Pending Item xs us)
      (hx : Item ts x) (hc : c.kind = .comma) : Pending Item (x :: xs) (us ++ (ts ++ [c]))

theorem Pending.append {α : Type} {Item : List Token → α → Prop} {xs ys : List α}
    {us ts : List Token} (hp : Pending Item xs us) (hs : Grammar.Separated Item ts ys) :
    Grammar.Separated Item (us ++ ts) (xs.reverse ++ ys) := by
  induction hp generalizing ts ys with
  | nil => exact hs
  | cons hp hx hc ih =>
    have h := ih (.more hx hc hs)
    simpa using h

open Grammar (Expression)

/-- The tokens that led into open calls. -/
inductive Frames (limit : Option Nat) : List OpenCall → List Token → Prop where
  | nil : Frames limit [] []
  | cons {calls : List OpenCall} {args : List Node} {ts us : List Token} {f o : Token}
      (hs : Frames limit calls ts) (hf : f.kind = .identifier) (ho : o.kind = .openParen)
      (hp : Pending Expression args us) (hn : Within limit (calls.length + 1))
      (ha : ∀ n ∈ args, Within limit (calls.length + 1 + n.levels)) :
      Frames limit (⟨f.value, args⟩ :: calls) (ts ++ f :: o :: us)

theorem Frames.within {limit : Option Nat} {calls : List OpenCall} {ts : List Token}
    (h : Frames limit calls ts) : Within limit calls.length := by
  cases h with
  | nil => exact fun m _ => Nat.zero_le m
  | cons hs hf ho hp hn ha => exact hn

/-- The tokens that led to a partly read expression. -/
inductive Body.Read (limit : Option Nat) : Body → List Token → Prop where
  | due {calls : List OpenCall} {ts : List Token} (hs : Frames limit calls ts)
      (hn : calls = [] ∨ Within limit (calls.length + 1)) : Body.Read limit ⟨calls, .due⟩ ts
  | named {calls : List OpenCall} {ts : List Token} {f : Token} (hs : Frames limit calls ts)
      (hf : f.kind = .identifier) (hn : Within limit (calls.length + 1)) :
      Body.Read limit ⟨calls, .named f.value⟩ (ts ++ [f])
  | opened {calls : List OpenCall} {ts : List Token} {f o : Token} (hs : Frames limit calls ts)
      (hf : f.kind = .identifier) (ho : o.kind = .openParen)
      (hn : Within limit (calls.length + 1)) :
      Body.Read limit ⟨calls, .opened f.value⟩ (ts ++ [f, o])
  | done {calls : List OpenCall} {ts us : List Token} {n : Node} (hs : Frames limit calls ts)
      (he : Expression us n) (hn : Within limit (calls.length + n.levels)) :
      Body.Read limit ⟨calls, .done n⟩ (ts ++ us)

namespace Body

variable {limit : Option Nat} {b b' : Body} {calls : List OpenCall} {ts us : List Token} {t : Token}

theorem Read.of_enter? (hs : Frames limit calls ts) (h : enter? limit calls t = some b) :
    b.Read limit (ts ++ [t]) := by
  obtain ⟨hl, ⟨ht, rfl⟩ | ⟨ht, rfl⟩⟩ := (enter?_eq_some_iff limit calls t b).mp h
  · exact .done hs (.integer ht) (hs.within.succ hl)
  · exact .named hs ht (hs.within.succ hl)

theorem Read.of_leave? {n : Node} (hs : Frames limit calls ts) (he : Expression us n)
    (hn : Within limit (calls.length + n.levels)) (h : leave? calls n t = some b) :
    b.Read limit (ts ++ us ++ [t]) := by
  obtain ⟨call, outer, rfl, hb⟩ := (leave?_eq_some_iff calls n t b).mp h
  -- `n` becomes the newest argument of the innermost call
  cases hs with
  | cons hs hf ho hp hc ha =>
    rename_i args ts us' f o
    have hall : ∀ m ∈ n :: args, Within limit (outer.length + 1 + m.levels) := by
      intro m hm
      obtain rfl | hm := List.mem_cons.mp hm
      · exact hn
      · exact ha m hm
    obtain ⟨ht, rfl⟩ | ⟨ht, rfl⟩ := hb
    · have hroom : Within limit (outer.length + 1 + 1) :=
        hn.mono (Nat.add_le_add_left n.levels_pos _)
      have hr := Read.due (.cons hs hf ho (.cons hp he ht) hc hall) (.inr hroom)
      simpa using hr
    · have hw : Within limit (outer.length + (Node.call f.value (args.reverse ++ [n])).levels) :=
        (within_call_iff ..).mpr ⟨hc, fun m hm => hall m (by simpa [or_comm] using hm)⟩
      have hr := Read.done hs (.call hf ho (hp.append (.one he)) ht) hw
      simpa using hr

theorem Read.step (hr : b.Read limit ts) (h : b.step? limit t = some b') :
    b'.Read limit (ts ++ [t]) := by
  cases hr with
  | due hs hn => exact .of_enter? hs h
  | @named calls ts f hs hf hn =>
    by_cases ht : t.kind = .openParen
    · simp only [step?, ht, if_true, Option.some.injEq] at h
      subst h
      simpa using Read.opened hs hf ht hn
    · rw [step?_of_node? limit rfl ht] at h
      exact .of_leave? hs (.reference hf) hn h
  | @opened calls ts f o hs hf ho hn =>
    by_cases ht : t.kind = .closeParen
    · simp only [step?, ht, if_true, Option.some.injEq] at h
      subst h
      have hw := (within_call_iff limit calls.length f.value []).mpr ⟨hn, by simp⟩
      simpa using Read.done hs (.emptyCall hf ho ht) hw
    · rw [step?_opened limit _ _ t ht] at h
      -- only now is the opened call one of those around the reader
      have hs' : Frames limit (⟨f.value, []⟩ :: calls) (ts ++ [f, o]) :=
        .cons hs hf ho .nil hn (by simp)
      exact .of_enter? hs' h
  | @done calls ts us n hs he hn => exact .of_leave? hs he hn h

theorem Read.expression {n : Node} (hr : b.Read limit ts) (h : b.result? = some n) :
    Expression ts n ∧ Within limit n.levels := by
  obtain ⟨hcalls, hnode⟩ := (result?_eq_some_iff b n).mp h
  cases hr with
  | due hs hn => simp [Place.node?] at hnode
  | named hs hf hn =>
    subst hcalls
    cases hs
    obtain rfl := Option.some.inj hnode
    exact ⟨.reference hf, hn⟩
  | opened hs hf ho hn => simp [Place.node?] at hnode
  | done hs he hn =>
    subst hcalls
    cases hs
    obtain rfl := Option.some.inj hnode
    exact ⟨he, by simpa using hn⟩

end Body

/-- The tokens up to the parenthesis that opens the parameters. -/
inductive Opening : String → List Token → Prop where
  | mk {d f o : Token} (hd : d.kind = .defKeyword) (hf : f.kind = .identifier)
      (ho : o.kind = .openParen) : Opening f.value [d, f, o]

namespace State
open Grammar (Name Params)

/-- The tokens that led to a partly read definition. -/
inductive Read (limit : Option Nat) : State → List Token → Prop where
  | start : Read limit start []
  | keyword {d : Token} (hd : d.kind = .defKeyword) : Read limit keyword [d]
  | named {d f : Token} (hd : d.kind = .defKeyword) (hf : f.kind = .identifier) :
      Read limit (named f.value) [d, f]
  | paramsOpen {name : String} {ts : List Token} (hs : Opening name ts) :
      Read limit (paramsOpen name) ts
  | paramRead {name : String} {params : List String} {ts us : List Token} {p : Token}
      (hs : Opening name ts) (hp : Pending Name params us) (ht : p.kind = .identifier) :
      Read limit (paramRead name (p.value :: params)) (ts ++ (us ++ [p]))
  | paramDue {name : String} {params : List String} {ts us : List Token} (hs : Opening name ts)
      (hp : Pending Name params us) : Read limit (paramDue name params) (ts ++ us)
  | paramsClosed {name : String} {params : List String} {ts us : List Token} {c : Token}
      (hs : Opening name ts) (hp : Params us params) (hc : c.kind = .closeParen) :
      Read limit (paramsClosed name params) (ts ++ (us ++ [c]))
  | body {name : String} {params : List String} {b : Body} {ts us vs : List Token} {c l : Token}
      (hs : Opening name ts) (hp : Params us params) (hc : c.kind = .closeParen)
      (hl : l.kind = .colon) (hb : b.Read limit vs) :
      Read limit (body name params b) (ts ++ (us ++ c :: l :: vs))

theorem Read.step {limit : Option Nat} {s s' : State} {ts : List Token} {t : Token}
    (hr : s.Read limit ts) (h : s.step? limit t = some s') : s'.Read limit (ts ++ [t]) := by
  unfold step? at h
  split at h
  next ht =>
    obtain rfl := Option.some.inj h
    cases hr with | start => exact .keyword ht
  next ht =>
    obtain rfl := Option.some.inj h
    cases hr with | keyword hd => exact .named hd ht
  next ht =>
    obtain rfl := Option.some.inj h
    cases hr with | named hd hf => exact .paramsOpen (.mk hd hf ht)
  next ht =>
    obtain rfl := Option.some.inj h
    cases hr with | paramsOpen hs => exact .paramRead hs .nil ht
  next ht =>
    obtain rfl := Option.some.inj h
    cases hr with | paramsOpen hs => exact .paramsClosed hs .none ht
  next ht =>
    obtain rfl := Option.some.inj h
    cases hr with
    | paramRead hs hp hi =>
      rw [List.append_assoc, List.append_assoc]
      exact .paramDue hs (.cons hp (.identifier hi) ht)
  next ht =>
    obtain rfl := Option.some.inj h
    cases hr with
    | paramRead hs hp hi =>
      rw [List.append_assoc, List.reverse_cons]
      exact .paramsClosed hs (.some (hp.append (.one (.identifier hi)))) ht
  next ht =>
    obtain rfl := Option.some.inj h
    cases hr with
    | paramDue hs hp =>
      rw [List.append_assoc]
      exact .paramRead hs hp ht
  next ht =>
    obtain rfl := Option.some.inj h
    cases hr with
    | paramsClosed hs hp hc =>
      rw [List.append_assoc, List.append_assoc]
      exact .body hs hp hc ht (.due .nil (.inl rfl))
  next =>
    obtain ⟨b', hb', rfl⟩ := Option.map_eq_some_iff.mp h
    cases hr with
    | body hs hp hc hl hb =>
      rw [List.append_assoc, List.append_assoc]
      exact .body hs hp hc hl (hb.step hb')
  next => cases h

theorem Read.run {limit : Option Nat} {s s' : State} {ts us : List Token} (hr : s.Read limit ts)
    (h : us.foldlM (step? limit) s = some s') : s'.Read limit (ts ++ us) := by
  induction us generalizing s ts with
  | nil =>
    obtain rfl := Option.some.inj h
    simpa using hr
  | cons t us ih =>
    obtain ⟨next, hn, hrest⟩ := Option.bind_eq_some_iff.mp h
    simpa using ih (hr.step hn) hrest

theorem Read.definition {limit : Option Nat} {s : State} {ts : List Token} {d : Definition}
    (hr : s.Read limit ts) (h : s.result? = some d) :
    Grammar.Definition ts d ∧ Within limit d.body.levels := by
  cases hr with
  | body hs hp hc hl hb =>
    obtain ⟨n, hn, rfl⟩ := Option.map_eq_some_iff.mp h
    obtain ⟨he, hw⟩ := hb.expression hn
    cases hs with | mk hd hf ho => exact ⟨.mk hd hf ho hp hc hl he, hw⟩
  | _ => simp [result?] at h

end State

/-- A machine reads a list as it reads one item, if a comma after an item makes it ready for the
next one. It keeps the items newest first. -/
theorem run_separated {α σ : Type} {Item : List Token → α → Prop} (step : σ → Token → Option σ)
    (Ready Got : List α → σ → Prop)
    (item : ∀ us x xs s, Item us x → Ready xs s →
      ∃ s', us.foldlM step s = some s' ∧ Got (x :: xs) s')
    (comma : ∀ xs s c, Got xs s → c.kind = .comma → ∃ s', step s c = some s' ∧ Ready xs s')
    {ts : List Token} {ys xs : List α} {s : σ} (hs : Grammar.Separated Item ts ys)
    (hr : Ready xs s) : ∃ s', ts.foldlM step s = some s' ∧ Got (ys.reverse ++ xs) s' := by
  induction hs generalizing xs s with
  | one hx => exact item _ _ _ _ hx hr
  | more hx hc _ ih =>
    obtain ⟨s₁, h₁, hg⟩ := item _ _ _ _ hx hr
    obtain ⟨s₂, h₂, hr₂⟩ := comma _ _ _ hg hc
    obtain ⟨s₃, h₃, hg₃⟩ := ih hr₂
    refine ⟨s₃, ?_, by simpa using hg₃⟩
    simp only [List.foldlM_append, List.foldlM_cons, h₁, h₂, Option.bind_eq_bind, Option.bind_some,
      h₃]

namespace Body

/-- An expression inside `calls` may start here. -/
def Ready (limit : Option Nat) (calls : List OpenCall) (b : Body) : Prop :=
  ∀ t b', enter? limit calls t = some b' → b.step? limit t = some b'

theorem ready_due (limit : Option Nat) (calls : List OpenCall) : Ready limit calls ⟨calls, .due⟩ :=
  fun _ _ h => h

theorem ready_opened (limit : Option Nat) (calls : List OpenCall) (name : String) :
    Ready limit (⟨name, []⟩ :: calls) ⟨calls, .opened name⟩ := by
  intro t b' h
  have ht : t.kind ≠ .closeParen := by
    obtain ⟨_, ⟨ht, _⟩ | ⟨ht, _⟩⟩ := (enter?_eq_some_iff ..).mp h <;> simp [ht]
  rw [step?_opened limit calls name t ht]
  exact h

/-- A complete expression inside `calls`. -/
def Holds (calls : List OpenCall) (n : Node) (b : Body) : Prop :=
  b.calls = calls ∧ b.place.node? = some n

variable {limit : Option Nat} {b : Body} {calls : List OpenCall} {n : Node} {t : Token}

theorem Ready.integer (hr : Ready limit calls b) (ht : t.kind = .integer)
    (hl : limit ≠ some calls.length) :
    b.step? limit t = some
      ⟨calls, .done (.integer (String.ofList (Text.unpadded t.value.toList)))⟩ :=
  hr _ _ ((enter?_eq_some_iff ..).mpr ⟨hl, .inl ⟨ht, rfl⟩⟩)

theorem Ready.identifier (hr : Ready limit calls b) (ht : t.kind = .identifier)
    (hl : limit ≠ some calls.length) : b.step? limit t = some ⟨calls, .named t.value⟩ :=
  hr _ _ ((enter?_eq_some_iff ..).mpr ⟨hl, .inr ⟨ht, rfl⟩⟩)

theorem Holds.comma {call : OpenCall} (h : Holds (call :: calls) n b) (ht : t.kind = .comma) :
    b.step? limit t = some ⟨⟨call.name, n :: call.args⟩ :: calls, .due⟩ := by
  rw [step?_of_node? limit h.2 (by simp [ht]), h.1]
  exact (leave?_eq_some_iff ..).mpr ⟨call, calls, rfl, .inl ⟨ht, rfl⟩⟩

theorem Holds.closeParen {call : OpenCall} (h : Holds (call :: calls) n b)
    (ht : t.kind = .closeParen) :
    b.step? limit t = some ⟨calls, .done (.call call.name (n :: call.args).reverse)⟩ := by
  rw [step?_of_node? limit h.2 (by simp [ht]), h.1]
  exact (leave?_eq_some_iff ..).mpr ⟨call, calls, rfl, .inr ⟨ht, rfl⟩⟩

theorem step?_named_openParen {name : String} (ht : t.kind = .openParen) :
    step? limit ⟨calls, .named name⟩ t = some ⟨calls, .opened name⟩ := by
  simp [step?, ht]

theorem step?_opened_closeParen {name : String} (ht : t.kind = .closeParen) :
    step? limit ⟨calls, .opened name⟩ t = some ⟨calls, .done (.call name [])⟩ := by
  simp [step?, ht]

theorem run_expression {ts : List Token} (he : Expression ts n) (hr : Ready limit calls b)
    (hn : Within limit (calls.length + n.levels)) :
    ∃ b', ts.foldlM (step? limit) b = some b' ∧ Holds calls n b' := by
  induction he using Expression.induction generalizing calls b with
  | integer t ht => exact ⟨_, by simpa using hr.integer ht hn.ne, rfl, rfl⟩
  | reference t ht => exact ⟨_, by simpa using hr.identifier ht hn.ne, rfl, rfl⟩
  | emptyCall f o c hf ho hc =>
    refine ⟨⟨calls, .done (.call f.value [])⟩, ?_, rfl, rfl⟩
    simp [hr.identifier hf hn.ne, step?_named_openParen ho, step?_opened_closeParen hc]
  | call f o c ts args hf ho _ hc ih =>
    obtain ⟨hcall, hargs⟩ := (within_call_iff ..).mp hn
    -- the arguments are read one level further in, on top of the call's own frame
    obtain ⟨b', hb', node, nodes, hnodes, hb⟩ := run_separated (step? limit)
      (Ready limit <| ⟨f.value, ·⟩ :: calls)
      (fun xs s => ∃ x ys, xs = x :: ys ∧ Holds (⟨f.value, ys⟩ :: calls) x s)
      (fun us x xs s hx hs => by
        obtain ⟨s', hs', hg⟩ := hx.2.2 hs hx.1
        exact ⟨s', hs', x, xs, rfl, hg⟩)
      (fun xs s c hg hc => by
        obtain ⟨x, ys, rfl, hg⟩ := hg
        exact ⟨_, hg.comma hc, ready_due _ _⟩)
      (ih.imp fun us x hx h => And.intro (hargs x hx) h)
      (ready_opened limit calls f.value)
    have hlast : b'.step? limit c = some ⟨calls, .done (.call f.value args)⟩ := by
      rw [hb.closeParen hc, ← hnodes]
      simp
    refine ⟨⟨calls, .done (.call f.value args)⟩, ?_, rfl, rfl⟩
    simp [hr.identifier hf hcall.ne, step?_named_openParen ho, hb', hlast]

end Body

namespace State

theorem run_params {limit : Option Nat} {name : String} {params : List String} {ts : List Token}
    {c : Token} (hp : Grammar.Params ts params) (hc : c.kind = .closeParen) :
    (ts ++ [c]).foldlM (step? limit) (paramsOpen name) = some (paramsClosed name params) := by
  cases hp with
  | none => simp [step?, hc]
  | some hs =>
    obtain ⟨s, hrun, rfl⟩ := run_separated (step? limit)
      (fun xs s => (xs = [] ∧ s = paramsOpen name) ∨ s = paramDue name xs)
      (fun xs s => s = paramRead name xs)
      (fun us x xs s hx hs => by
        obtain ⟨ht⟩ := hx
        obtain ⟨rfl, rfl⟩ | rfl := hs <;> exact ⟨_, by simp [step?, ht], rfl⟩)
      (fun xs s c hg hc => by
        subst hg
        exact ⟨_, by simp [step?, hc], .inr rfl⟩)
      hs (.inl ⟨rfl, rfl⟩)
    rw [List.foldlM_append, hrun]
    simp [step?, hc]

theorem run_definition {limit : Option Nat} {ts : List Token} {d : Definition}
    (hd : Grammar.Definition ts d) (hn : Within limit d.body.levels) :
    ∃ s, ts.foldlM (step? limit) start = some s ∧ s.result? = some d := by
  obtain @⟨d, f, o, c, l, us, vs, params, n, hd, hf, ho, hp, hc, hl, hb⟩ := hd
  obtain ⟨b, hrun, hholds⟩ :=
    Body.run_expression hb (Body.ready_due limit []) (by simpa using hn)
  have hres : b.result? = some n := (Body.result?_eq_some_iff b n).mpr hholds
  refine ⟨body f.value params b, ?_, by simp [result?, hres]⟩
  have hopen : [d, f, o].foldlM (step? limit) start = some (paramsOpen f.value) := by
    simp [step?, hd, hf, ho]
  have hcolon :
      step? limit (paramsClosed f.value params) l = some (body f.value params .empty) := by
    simp [step?, hl]
  have hbody : vs.foldlM (step? limit) (body f.value params .empty) =
      some (body f.value params b) := by
    rw [foldlM_body]
    simp [Body.empty, hrun]
  have hsplit : d :: f :: o :: (us ++ c :: l :: vs) = [d, f, o] ++ ((us ++ [c]) ++ l :: vs) := by
    simp
  rw [hsplit, List.foldlM_append, hopen, Option.bind_eq_bind, Option.bind_some,
    List.foldlM_append, run_params hp hc, Option.bind_eq_bind, Option.bind_some,
    List.foldlM_cons, hcolon, Option.bind_eq_bind, Option.bind_some, hbody]

end State

end Reading

namespace Definition
open Reading

theorem readWithin_eq_ok_iff_run (limit : Option Nat) (ts : List Token) (d : Definition) :
    readWithin limit ts = .ok d ↔
      ∃ s, ts.foldlM (State.step? limit) .start = some s ∧ s.result? = some d := by
  rw [readWithin, bind_eq_ok_iff]
  simp only [State.foldlM_feed_eq_ok_iff, State.finish_eq_ok_iff]

/-- The reader accepts exactly the derivations that stay within its limit. -/
theorem readWithin_eq_ok_iff (limit : Option Nat) (ts : List Token) (d : Definition) :
    readWithin limit ts = .ok d ↔ Grammar.Definition ts d ∧ Within limit d.body.levels := by
  rw [readWithin_eq_ok_iff_run]
  refine ⟨fun h => ?_, fun h => State.run_definition h.1 h.2⟩
  obtain ⟨s, hs, hd⟩ := h
  exact (State.Read.start.run hs).definition hd

theorem read_eq_ok_iff (ts : List Token) (d : Definition) :
    read ts = .ok d ↔ Grammar.Definition ts d ∧ d.body.levels ≤ nestingLimit := by
  rw [read, readWithin_eq_ok_iff]
  simp [Within]

/-- A grammar without a limit on nesting has no two trees for the same tokens either. -/
theorem derivation_unique {ts : List Token} {d d' : Definition} (h : Grammar.Definition ts d)
    (h' : Grammar.Definition ts d') : d = d' := by
  -- without a limit the reader accepts both trees, and it gives one answer
  have hr := (readWithin_eq_ok_iff none ts d).mpr ⟨h, by simp [Within]⟩
  have hr' := (readWithin_eq_ok_iff none ts d').mpr ⟨h', by simp [Within]⟩
  exact Except.ok.inj (hr.symm.trans hr')

/-- Acceptance and the tree depend on kinds and values alone, so the tokens may be of any origin. -/
theorem read_accepts_exactly_the_grammar (ts : List Token) :
    (∀ d, read ts = .ok d ↔ Grammar.Definition ts d ∧ d.body.levels ≤ 128) ∧
      (∀ d d', Grammar.Definition ts d → Grammar.Definition ts d' → d = d') ∧
      ((∃ t ∈ ts, t.kind = .endOfInput) → ∀ d, read ts ≠ .ok d) := by
  refine ⟨read_eq_ok_iff ts, fun d d' => derivation_unique, fun h d hd => ?_⟩
  obtain ⟨t, ht, hk⟩ := h
  obtain ⟨s, hs, -⟩ := (readWithin_eq_ok_iff_run (some nestingLimit) ts d).mp hd
  exact State.kind_ne_endOfInput hs t ht hk

/-- The tokens of `def f(): g(00)`. -/
def zeroCall : List Token :=
  [⟨.defKeyword, "def", ⟨0, 3⟩⟩, ⟨.identifier, "f", ⟨4, 1⟩⟩, ⟨.openParen, "(", ⟨5, 1⟩⟩,
    ⟨.closeParen, ")", ⟨6, 1⟩⟩, ⟨.colon, ":", ⟨7, 1⟩⟩, ⟨.identifier, "g", ⟨9, 1⟩⟩,
    ⟨.openParen, "(", ⟨10, 1⟩⟩, ⟨.integer, "00", ⟨11, 2⟩⟩, ⟨.closeParen, ")", ⟨13, 1⟩⟩]

theorem read_accepts_exactly_zeroCall :
    Grammar.Definition zeroCall ⟨"f", [], .call "g" [.integer "0"]⟩ ∧
      (∀ d, Grammar.Definition zeroCall d → d = ⟨"f", [], .call "g" [.integer "0"]⟩) ∧
      ∀ d, read (zeroCall ++ [⟨.endOfInput, "", ⟨14, 0⟩⟩]) ≠ .ok d := by
  obtain ⟨hiff, hunique, _⟩ := read_accepts_exactly_the_grammar zeroCall
  obtain ⟨_, _, hend⟩ :=
    read_accepts_exactly_the_grammar (zeroCall ++ [⟨.endOfInput, "", ⟨14, 0⟩⟩])
  have htree := ((hiff ⟨"f", [], .call "g" [.integer "0"]⟩).mp rfl).1
  exact ⟨htree, fun d hd => hunique d _ hd htree,
    hend ⟨_, List.mem_append_right _ (List.mem_singleton_self _), rfl⟩⟩

end Definition

end DefLang
