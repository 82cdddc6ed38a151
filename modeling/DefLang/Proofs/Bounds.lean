import DefLang.Proofs.Descent

namespace DefLang.Descent
open Reading

/-- Where the first `k` tokens lead, if they can be read. -/
def stateAt (limit : Option Nat) (tokens : List Token) (k : Nat) : Option State :=
  (tokens.take k).foldlM (State.step? limit) .start

section
variable {limit : Option Nat} {tokens : List Token} {k : Nat} {s s' : State} {t : Token}

theorem kindAt_eq (ht : tokens[k]? = some t) : kindAt tokens k = t.kind := by
  simp [kindAt, ht]

theorem stateAt_succ (hs : stateAt limit tokens k = some s) (ht : tokens[k]? = some t)
    (hstep : s.step? limit t = some s') : stateAt limit tokens (k + 1) = some s' := by
  obtain ⟨hlt, rfl⟩ := List.getElem?_eq_some_iff.mp ht
  unfold stateAt at hs ⊢
  rw [List.take_succ_eq_append_getElem hlt, List.foldlM_append, hs]
  simpa using hstep

end

/-- After `k` tokens one of `kind` leads on to `next`, and without one there is an error. -/
structure Awaits (limit : Option Nat) (tokens : List Token) (k : Nat) (kind : Token.Kind)
    (next : Token → State) : Prop where
  stateAt_succ : ∀ t, tokens[k]? = some t → t.kind = kind →
    stateAt limit tokens (k + 1) = some (next t)
  read_eq_error : kindAt tokens k ≠ kind →
    Definition.readWithin limit tokens = .error (.expected kind (kindAt tokens k) (spanAt tokens k))

section
variable {limit : Option Nat} {tokens : List Token} {k : Nat} {s : State} {kind : Token.Kind}
  {next : Token → State}

theorem Awaits.of_kindAt (hs : stateAt limit tokens k = some s) (hk : kindAt tokens k = kind)
    (htake : ∀ t, t.kind = kind → s.step? limit t = some (next t)) :
    Awaits limit tokens k kind next where
  stateAt_succ t ht hkind := Descent.stateAt_succ hs ht (htake t hkind)
  read_eq_error hne := absurd hk hne

theorem Awaits.of_refusal (hs : stateAt limit tokens k = some s)
    (htake : ∀ t, t.kind = kind → s.step? limit t = some (next t))
    (hnone : ∀ t, tokens[k]? = some t → t.kind ≠ kind → s.step? limit t = none)
    (hend : s.result? = none)
    (hreason : ∀ found span, s.refusal limit found span = .expected kind found span) :
    Awaits limit tokens k kind next where
  stateAt_succ t ht hkind := Descent.stateAt_succ hs ht (htake t hkind)
  read_eq_error hne := by
    rw [Definition.readWithin_eq_refusal hs (fun t ht => hnone t ht (kindAt_eq ht ▸ hne))
      fun _ => hend, hreason]

/-- The kind of token that has to come next and where it leads, if only one kind may come. -/
def sole? : State → Option (Token.Kind × (Token → State))
  | .start => some (.defKeyword, fun _ => .keyword)
  | .keyword => some (.identifier, fun t => .named t.value)
  | .named name => some (.openParen, fun _ => .paramsOpen name)
  | .paramDue name params => some (.identifier, fun t => .paramRead name (t.value :: params))
  | .paramsClosed name params => some (.colon, fun _ => .body name params .empty)
  | _ => none

theorem Awaits.of_sole? (hs : stateAt limit tokens k = some s) (h : sole? s = some (kind, next)) :
    Awaits limit tokens k kind next := by
  cases s with
  | start | keyword | named | paramDue | paramsClosed =>
    obtain ⟨rfl, rfl⟩ : _ ∧ _ := by simpa [sole?] using h
    exact .of_refusal hs (fun t ht => by simp [State.step?, ht])
      (fun t _ ht => by simp [State.step?, ht]) rfl fun _ _ => rfl
  | paramsOpen | paramRead | body => cases h

end

section
variable {limit : Option Nat} {tokens : List Token} {α : Type} {r : Reader} {fuel : Nat}

theorem does_expect {kind : Token.Kind} {next : Token → State} (hr : r.Sound limit tokens.length)
    (h : Awaits limit tokens r.cursor.pos kind next) (hne : kind ≠ .endOfInput) :
    Does limit tokens (expect tokens kind) r fun t k =>
      k = r.cursor.pos + 1 ∧ stateAt limit tokens k = some (next t) := by
  apply Does.peek
  by_cases hk : kindAt tokens (r.cursor.pos + 0) = kind
  · rw [if_pos hk]
    refine (does_advance hr hk hne).imp ?_
    rintro t r' _ ⟨ht, hkind, hpos⟩
    refine ⟨hpos, ?_⟩
    rw [hpos]
    exact h.stateAt_succ t ht hkind
  · rw [if_neg hk]
    exact Does.here (Does.throw hr (h.read_eq_error hk))

theorem does_identifier (next : String → State) (hr : r.Sound limit tokens.length)
    (h : Awaits limit tokens r.cursor.pos .identifier fun t => next t.value) :
    Does limit tokens (identifier tokens) r fun name k =>
      k = r.cursor.pos + 1 ∧ stateAt limit tokens k = some (next name) :=
  (does_expect hr h (by decide)).bind fun _ _ hkeeps ht => Does.pure hkeeps.sound ht

theorem does_parenthesized {list : Run α} {s : State} (next : α → State)
    (hr : r.Sound limit tokens.length) (ho : Awaits limit tokens r.cursor.pos .openParen fun _ => s)
    (hlist : ∀ r', r.Keeps limit tokens.length r' → r.cursor.pos < r'.cursor.pos →
      stateAt limit tokens r'.cursor.pos = some s →
      Does limit tokens list r' fun xs k => Awaits limit tokens k .closeParen fun _ => next xs) :
    Does limit tokens (parenthesized tokens list) r fun xs k =>
      stateAt limit tokens k = some (next xs) := by
  refine (does_expect hr ho (by decide)).bind ?_
  rintro _ r₁ h₁ ⟨hpos, hs⟩
  refine (hlist r₁ h₁ (by omega) hs).bind fun xs r₂ h₂ hc => ?_
  exact (does_expect h₂.sound hc (by decide)).bind fun _ r₃ h₃ ht => Does.pure h₃.sound ht.2

/-- A list is read as one item is, if a comma after an item makes the next one due. Every comma
leaves fewer tokens, so that the fuel lasts. -/
theorem does_more {item : Run α} {xs : List α} (Got Due : List α → Nat → Prop)
    (hcomma : ∀ xs k t, Got xs k → tokens[k]? = some t → t.kind = .comma → Due xs (k + 1))
    (hitem : ∀ ys r', r.Keeps limit tokens.length r' → Due ys r'.cursor.pos →
      Does limit tokens item r' fun x k => Got (ys ++ [x]) k)
    (hr : r.Sound limit tokens.length) (hxs : Got xs r.cursor.pos)
    (hfuel : tokens.length < r.cursor.pos + fuel) :
    Does limit tokens (more tokens item fuel xs) r fun ys k =>
      Got ys k ∧ kindAt tokens k ≠ .comma := by
  induction fuel generalizing r xs with
  | zero => exact absurd hr.pos_le (Nat.not_le.mpr hfuel)
  | succ fuel ih =>
    apply Does.peek
    by_cases hk : kindAt tokens (r.cursor.pos + 0) = .comma
    · rw [if_pos hk]
      refine (does_advance hr hk (by decide)).bind ?_
      rintro t r₁ h₁ ⟨ht, hkind, hpos⟩
      have hdue : Due xs r₁.cursor.pos := hpos ▸ hcomma xs _ t hxs ht hkind
      refine (hitem xs r₁ h₁ hdue).bind fun x r₂ h₂ hgot => ?_
      have hle := h₂.pos_le
      exact ih (fun ys r' h => hitem ys r' ((h₁.trans h₂).trans h)) h₂.sound hgot (by omega)
    · rw [if_neg hk]
      exact Does.pure hr ⟨hxs, hk⟩

theorem does_params {name : String} (hr : r.Sound limit tokens.length)
    (hs : stateAt limit tokens r.cursor.pos = some (.paramsOpen name))
    (hfuel : tokens.length ≤ r.cursor.pos + fuel) :
    Does limit tokens (params tokens fuel) r fun names k =>
      Awaits limit tokens k .closeParen fun _ => .paramsClosed name names := by
  apply Does.peek
  split
  next hk =>
    refine (does_advance hr hk (by decide)).bind ?_
    rintro t r₁ h₁ ⟨ht, hkind, hpos⟩
    have hfirst : stateAt limit tokens r₁.cursor.pos =
        some (.paramRead name [t.value].reverse) := by
      rw [hpos]
      exact stateAt_succ hs ht (by simp [State.step?, hkind])
    refine (does_more (fun names k => stateAt limit tokens k = some (.paramRead name names.reverse))
      (fun names k => stateAt limit tokens k = some (.paramDue name names.reverse))
      ?_ ?_ h₁.sound hfirst (by omega)).imp ?_
    · exact fun names k c hgot hc hcomma => stateAt_succ hgot hc (by simp [State.step?, hcomma])
    · intro names r' h' hdue
      refine (does_identifier (fun x => .paramRead name (x :: names.reverse)) h'.sound
        (.of_sole? hdue rfl)).imp fun x _ _ hx => ?_
      simpa using hx.2
    · rintro names r' h' ⟨hgot, hne⟩
      refine .of_refusal hgot (fun t ht => by simp [State.step?, ht]) (fun t ht hkind => ?_) rfl
        fun _ _ => rfl
      rw [kindAt_eq ht] at hne
      simp [State.step?, hkind, hne]
  next hk =>
    exact Does.pure hr (.of_kindAt hs hk fun t ht => by simp [State.step?, ht])
  next h₁ h₂ =>
    refine Does.here (Does.throw hr (Definition.readWithin_eq_refusal hs (fun t ht => ?_)
      fun _ => rfl))
    have hi : t.kind ≠ .identifier := fun hi => h₁ ((kindAt_eq ht).trans hi)
    have hc : t.kind ≠ .closeParen := fun hc => h₂ ((kindAt_eq ht).trans hc)
    simp [State.step?, hi, hc]

end

section
variable {limit : Option Nat} {tokens : List Token} {name : String} {params : List String} {k : Nat}
  {b : Body} {calls : List OpenCall} {f : String} {xs : List Node} {node : Node} {t : Token}

/-- After `k` tokens an expression inside `calls` has to start. -/
structure Enters (limit : Option Nat) (tokens : List Token) (name : String) (params : List String)
    (k : Nat) (calls : List OpenCall) : Prop where
  stateAt_succ : ∀ t b, tokens[k]? = some t → Body.enter? limit calls t = some b →
    stateAt limit tokens (k + 1) = some (.body name params b)
  read_eq_error : (∀ t, tokens[k]? = some t → Body.enter? limit calls t = none) →
    Definition.readWithin limit tokens = .error
      (Body.noEntry limit calls.length (kindAt tokens k) (spanAt tokens k))

theorem Enters.of_stateAt (hs : stateAt limit tokens k = some (.body name params b))
    (hstep : ∀ t, tokens[k]? = some t →
      b.step? limit t = Body.enter? limit calls t)
    (hend : b.result? = none)
    (hreason : ∀ found span, b.refusal limit found span =
      Body.noEntry limit calls.length found span) :
    Enters limit tokens name params k calls where
  stateAt_succ t b' ht hb := by
    apply Descent.stateAt_succ hs ht
    simp [State.step?, hstep t ht, hb]
  read_eq_error hnone := by
    rw [← hreason]
    refine Definition.readWithin_eq_refusal hs (fun t ht => ?_) fun _ => ?_
    · simp [State.step?, hstep t ht, hnone t ht]
    · simp [State.result?, hend]

theorem enters_due (hs : stateAt limit tokens k = some (.body name params ⟨calls, .due⟩)) :
    Enters limit tokens name params k calls :=
  .of_stateAt hs (fun _ _ => rfl) (by cases calls <;> rfl) fun _ _ => rfl

theorem enters_opened (hs : stateAt limit tokens k = some (.body name params ⟨calls, .opened f⟩))
    (hk : kindAt tokens k ≠ .closeParen) : Enters limit tokens name params k (⟨f, []⟩ :: calls) :=
  .of_stateAt hs (fun t ht => Body.step?_opened _ _ _ t (kindAt_eq ht ▸ hk))
    (by cases calls <;> rfl) fun _ _ => rfl

/-- After `k` tokens `node` is complete inside `calls`, and the next token does not make a call
of it. -/
def Settled (limit : Option Nat) (tokens : List Token) (name : String) (params : List String)
    (k : Nat) (calls : List OpenCall) (node : Node) : Prop :=
  ∃ b, stateAt limit tokens k = some (.body name params b) ∧ b.Holds calls node ∧
    ∀ t, tokens[k]? = some t → b.step? limit t = Body.leave? calls node t

theorem settled_done (hs : stateAt limit tokens k = some (.body name params ⟨calls, .done node⟩)) :
    Settled limit tokens name params k calls node :=
  ⟨_, hs, ⟨rfl, rfl⟩, fun _ _ => rfl⟩

theorem settled_named (hs : stateAt limit tokens k = some (.body name params ⟨calls, .named f⟩))
    (hk : kindAt tokens k ≠ .openParen) : Settled limit tokens name params k calls (.reference f) :=
  ⟨_, hs, ⟨rfl, rfl⟩, fun _ ht => Body.step?_of_node? _ rfl (kindAt_eq ht ▸ hk)⟩

theorem refusal_of_holds (h : b.Holds calls node) (found : Token.Kind) (span : Span) :
    b.refusal limit found span = Body.noExit calls found span := by
  obtain ⟨calls', place⟩ := b
  obtain ⟨rfl, hnode⟩ := h
  cases place <;> simp_all [Place.node?, Body.refusal]

theorem Settled.comma (h : Settled limit tokens name params k (⟨f, xs⟩ :: calls) node)
    (ht : tokens[k]? = some t) (hkind : t.kind = .comma) :
    stateAt limit tokens (k + 1) = some (.body name params ⟨⟨f, node :: xs⟩ :: calls, .due⟩) := by
  obtain ⟨b, hs, hholds, _⟩ := h
  exact stateAt_succ hs ht (by simp [State.step?, hholds.comma hkind])

theorem Settled.awaits_closeParen (h : Settled limit tokens name params k (⟨f, xs⟩ :: calls) node)
    (hk : kindAt tokens k ≠ .comma) :
    Awaits limit tokens k .closeParen fun _ =>
      .body name params ⟨calls, .done (.call f (node :: xs).reverse)⟩ := by
  obtain ⟨b, hs, hholds, hstep⟩ := h
  refine .of_refusal hs (fun t ht => ?_) (fun t ht hkind => ?_) ?_ (refusal_of_holds hholds)
  · simp [State.step?, hholds.closeParen ht]
  · rw [kindAt_eq ht] at hk
    simp [State.step?, hstep t ht, Body.leave?]
  · simp [State.result?, Body.result?, hholds.1]

theorem Settled.read_eq_ok (h : Settled limit tokens name params k [] node)
    (hend : tokens[k]? = none) : Definition.readWithin limit tokens = .ok ⟨name, params, node⟩ := by
  obtain ⟨b, hs, hholds, _⟩ := h
  rw [stateAt, List.take_of_length_le (List.getElem?_eq_none_iff.mp hend)] at hs
  apply (Definition.readWithin_eq_ok_iff_run ..).mpr
  exact ⟨_, hs, by simp [State.result?, (Body.result?_eq_some_iff b node).mpr hholds]⟩

theorem Settled.read_eq_leftover (h : Settled limit tokens name params k [] node)
    (ht : tokens[k]? = some t) :
    Definition.readWithin limit tokens = .error (.leftover t.kind t.span) := by
  obtain ⟨b, hs, hholds, hstep⟩ := h
  have hread := Definition.readWithin_eq_refusal hs
    (fun u hu => by simp [State.step?, hstep u hu, Body.leave?]) (by simp [ht])
  rw [State.refusal, refusal_of_holds hholds] at hread
  simp only [kindAt, spanAt, ht] at hread
  exact hread

end

section
variable {limit : Option Nat} {tokens : List Token} {name : String} {params : List String}
  {r : Reader} {calls : List OpenCall} {f : String} {x : Run Node} {fuel : Nat}

/-- From index `k` on `x` reads an expression wherever one has to start. -/
def ReadsFrom (limit : Option Nat) (tokens : List Token) (name : String) (params : List String)
    (k : Nat) (x : Run Node) : Prop :=
  ∀ calls r, r.Sound limit tokens.length → k ≤ r.cursor.pos → r.cursor.depth = calls.length →
    Enters limit tokens name params r.cursor.pos calls →
    Does limit tokens x r fun node k' =>
      r.cursor.pos < k' ∧ Settled limit tokens name params k' calls node

theorem ReadsFrom.mono {j k : Nat} (h : ReadsFrom limit tokens name params j x) (hle : j ≤ k) :
    ReadsFrom limit tokens name params k x :=
  fun calls r hr hk => h calls r hr (hle.trans hk)

theorem does_args (hx : ReadsFrom limit tokens name params r.cursor.pos x)
    (hr : r.Sound limit tokens.length) (hdepth : r.cursor.depth = calls.length + 1)
    (hs : stateAt limit tokens r.cursor.pos = some (.body name params ⟨calls, .opened f⟩))
    (hfuel : tokens.length ≤ r.cursor.pos + fuel) :
    Does limit tokens (args tokens x fuel) r fun nodes k =>
      Awaits limit tokens k .closeParen fun _ =>
        .body name params ⟨calls, .done (.call f nodes)⟩ := by
  apply Does.peek
  by_cases hk : kindAt tokens (r.cursor.pos + 0) = .closeParen
  · rw [if_pos hk]
    exact Does.pure hr (.of_kindAt hs hk fun t ht => by simp [State.step?, Body.step?, ht])
  · rw [if_neg hk]
    refine (hx (⟨f, []⟩ :: calls) r hr le_rfl hdepth (enters_opened hs hk)).bind ?_
    rintro node r₁ h₁ ⟨hlt, hnode⟩
    refine (does_more
      (fun nodes k => ∃ node xs, nodes = xs.reverse ++ [node] ∧
        Settled limit tokens name params k (⟨f, xs⟩ :: calls) node)
      (fun nodes k => stateAt limit tokens k =
        some (.body name params ⟨⟨f, nodes.reverse⟩ :: calls, .due⟩))
      ?_ ?_ h₁.sound ⟨node, [], rfl, hnode⟩ (by omega)).imp ?_
    · rintro _ k t ⟨node, xs, rfl, hnode⟩ ht hkind
      simpa using hnode.comma ht hkind
    · intro nodes r' h' hdue
      have hstart := h₁.trans h'
      refine (hx (⟨f, nodes.reverse⟩ :: calls) r' h'.sound hstart.pos_le
        (hstart.depth_eq.trans hdepth) (enters_due hdue)).imp fun node _ _ hnode => ?_
      exact ⟨node, nodes.reverse, by simp, hnode.2⟩
    · rintro _ r' h' ⟨⟨node, xs, rfl, hnode⟩, hne⟩
      simpa using hnode.awaits_closeParen hne

theorem does_call (hx : ReadsFrom limit tokens name params r.cursor.pos x)
    (hr : r.Sound limit tokens.length) (hdepth : r.cursor.depth = calls.length + 1)
    (hs : stateAt limit tokens r.cursor.pos = some (.body name params ⟨calls, .named f⟩))
    (hk : kindAt tokens r.cursor.pos = .openParen)
    (hfuel : tokens.length ≤ r.cursor.pos + fuel) :
    Does limit tokens (parenthesized tokens (args tokens x fuel)) r fun nodes k =>
      stateAt limit tokens k = some (.body name params ⟨calls, .done (.call f nodes)⟩) := by
  have hopen : Awaits limit tokens r.cursor.pos .openParen fun _ =>
      .body name params ⟨calls, .opened f⟩ :=
    .of_kindAt hs hk fun t ht => by simp [State.step?, Body.step?_named_openParen ht]
  refine does_parenthesized (fun nodes => .body name params ⟨calls, .done (.call f nodes)⟩) hr
    hopen fun r₁ h₁ hlt hs₁ => ?_
  exact does_args (hx.mono hlt.le) h₁.sound (h₁.depth_eq.trans hdepth) hs₁ (by omega)

theorem Enters.does_identifier (h : Enters limit tokens name params r.cursor.pos calls)
    (hr : r.Sound limit tokens.length) (hlimit : limit ≠ some calls.length)
    (hk : kindAt tokens r.cursor.pos = .identifier) :
    Does limit tokens (identifier tokens) r fun f k =>
      k = r.cursor.pos + 1 ∧
        stateAt limit tokens k = some (.body name params ⟨calls, .named f⟩) := by
  refine Descent.does_identifier (fun f => .body name params ⟨calls, .named f⟩) hr
    ⟨fun t ht hkind => h.stateAt_succ t _ ht ?_, fun hne => absurd hk hne⟩
  simp [Body.enter?, hkind, hlimit]

theorem does_primary (hx : ReadsFrom limit tokens name params (r.cursor.pos + 1) x)
    (hr : r.Sound limit tokens.length) (hdepth : r.cursor.depth = calls.length + 1)
    (hlimit : limit ≠ some calls.length) (h : Enters limit tokens name params r.cursor.pos calls)
    (hfuel : tokens.length ≤ r.cursor.pos + fuel) :
    Does limit tokens (primary tokens x fuel) r fun node k =>
      r.cursor.pos < k ∧ Settled limit tokens name params k calls node := by
  apply Does.peek
  split
  next hk =>
    refine (does_advance hr hk (by decide)).bind ?_
    rintro t r₁ h₁ ⟨ht, hkind, hpos⟩
    refine Does.pure h₁.sound ⟨by omega, settled_done ?_⟩
    rw [hpos]
    exact h.stateAt_succ t _ ht (by simp [Body.enter?, hkind, hlimit])
  next hk =>
    apply Does.peek
    by_cases ho : kindAt tokens (r.cursor.pos + 1) = .openParen
    · rw [if_pos ho]
      refine (h.does_identifier hr hlimit hk).bind ?_
      rintro f r₁ h₁ ⟨hpos, hs⟩
      rw [← hpos] at hx ho
      refine (does_call hx h₁.sound (h₁.depth_eq.trans hdepth) hs ho (by omega)).bind
        fun nodes r₂ h₂ hs₂ => ?_
      have hle := h₂.pos_le
      exact Does.pure h₂.sound ⟨by omega, settled_done hs₂⟩
    · rw [if_neg ho]
      refine (h.does_identifier hr hlimit hk).bind ?_
      rintro f r₁ h₁ ⟨hpos, hs⟩
      rw [← hpos] at ho
      exact Does.pure h₁.sound ⟨by omega, settled_named hs ho⟩
  next h₁ h₂ =>
    refine Does.here (Does.throw hr ?_)
    rw [h.read_eq_error, Body.noEntry, if_neg (by simp [hlimit])]
    · rfl
    · intro t ht
      have hi : t.kind ≠ .integer := fun hi => h₁ ((kindAt_eq ht).trans hi)
      have hn : t.kind ≠ .identifier := fun hn => h₂ ((kindAt_eq ht).trans hn)
      simp [Body.enter?]

theorem readsFrom_expression {k : Nat} (hfuel : tokens.length < k + fuel) :
    ReadsFrom limit tokens name params k (expression limit tokens fuel) := by
  induction fuel generalizing k with
  | zero =>
    intro calls r hr hk
    have hle := hr.pos_le
    omega
  | succ fuel ih =>
    intro calls r hr hk hdepth h
    apply does_traced
    apply Does.get
    by_cases hlimit : limit = some r.cursor.depth
    · rw [if_pos hlimit]
      have hfull : limit = some calls.length := hdepth ▸ hlimit
      refine Does.here (Does.throw hr ?_)
      rw [h.read_eq_error fun t _ => by simp [Body.enter?, hfull], Body.noEntry, if_pos hfull]
    · rw [if_neg hlimit]
      -- the arguments start at least one token further on, and there is one unit of fuel less
      refine does_within hr hlimit fun r₁ h₁ hpos hdepth₁ => ?_
      rw [← hpos] at h ⊢
      exact does_primary (ih (by omega)) h₁ (hdepth₁.trans (by rw [hdepth])) (hdepth ▸ hlimit) h
        (by omega)

theorem does_definition {fuel : Nat} (hfuel : tokens.length < fuel) :
    Does limit tokens (definition limit tokens fuel) .start fun d k =>
      Settled limit tokens d.name d.params k [] d.body := by
  refine (does_expect .start (.of_sole? rfl rfl) (by decide)).bind ?_
  rintro _ r₁ h₁ ⟨_, hs₁⟩
  refine (does_identifier .named h₁.sound (.of_sole? hs₁ rfl)).bind ?_
  rintro name r₂ h₂ ⟨_, hs₂⟩
  refine (does_parenthesized (.paramsClosed name) h₂.sound (.of_sole? hs₂ rfl)
    fun r' h' _ hs' => does_params h'.sound hs' (by omega)).bind fun params r₃ h₃ hs₃ => ?_
  refine (does_expect h₃.sound (.of_sole? hs₃ rfl) (by decide)).bind ?_
  rintro _ r₄ h₄ ⟨_, hs₄⟩
  have hdepth : r₄.cursor.depth = 0 := (((h₁.trans h₂).trans h₃).trans h₄).depth_eq
  refine (readsFrom_expression (k := 0) (by omega) [] r₄ h₄.sound (Nat.zero_le _) hdepth
    (enters_due hs₄)).bind fun body r₅ h₅ hbody => ?_
  exact Does.pure h₅.sound hbody.2

theorem does_whole (hfuel : tokens.length < fuel) :
    Does limit tokens (whole limit tokens fuel) .start fun d _ =>
      Definition.readWithin limit tokens = .ok d := by
  refine (does_definition hfuel).bind fun d r h hd => ?_
  apply Does.get
  split
  next ht => exact Does.pure h.sound (hd.read_eq_ok ht)
  next t ht => exact Does.throw h.sound (hd.read_eq_leftover ht)

end

/-- With more fuel than tokens the reader ends, with the answer of `Definition.readWithin`. -/
theorem run_eq_readWithin (limit : Option Nat) {tokens : List Token} {fuel : Nat}
    (hfuel : tokens.length < fuel) :
    ∃ r, run limit tokens fuel = some (Definition.readWithin limit tokens, r) ∧
      r.Sound limit tokens.length := by
  have hwhole : Does limit tokens (whole limit tokens fuel) .start _ := does_whole hfuel
  obtain ⟨result, r, hends, hkeeps, hresult⟩ := hwhole
  have hread : Definition.readWithin limit tokens = result := by
    cases result with
    | ok d => exact hresult
    | error e => exact hresult
  exact ⟨r, hread ▸ hends, hkeeps.sound⟩

/-- With more fuel than tokens the reader ends, with the answer of `Definition.read`. On its way it
takes each token up to the place where it ends and none past the last one, leaves every expression
at the level where it entered, and never moves back. -/
theorem run_stays_within_bounds (tokens : List Token) (fuel : Nat) (hfuel : tokens.length < fuel) :
    ∃ r, run (some nestingLimit) tokens fuel = some (Definition.read tokens, r) ∧
      (∀ c, .reaches c ∈ r.events → c.pos ≤ tokens.length ∧ c.depth ≤ 128) ∧
      (∀ c, .takes c ∈ r.events → c.pos < tokens.length) ∧
      (∀ c c' ok, .returns c c' ok ∈ r.events →
        c'.depth = c.depth ∧ c.pos ≤ c'.pos ∧ (ok = true → c.pos < c'.pos)) ∧
      (r.events.Pairwise fun later earlier => earlier.pos ≤ later.pos) ∧
      r.events.findSome? Event.reached? = some r.cursor ∧
      r.events.filterMap Event.taken? = (List.range r.cursor.pos).reverse := by
  obtain ⟨r, hrun, hsound⟩ := run_eq_readWithin (some nestingLimit) hfuel
  have hevent := hsound.event
  refine ⟨r, hrun, fun c hc => ?_, fun c hc => hevent _ hc, fun c c' ok hc => hevent _ hc,
    hsound.ordered, hsound.newest, hsound.taken⟩
  obtain ⟨hpos, hdepth⟩ := hevent _ hc
  exact ⟨hpos, hdepth nestingLimit rfl⟩

theorem run_missingComma_stays_within_bounds :
    Definition.missingComma.length < 11 ∧
      ∃ r, run (some nestingLimit) Definition.missingComma 11 =
          some (.error (.expected .closeParen .integer ⟨13, 1⟩), r) ∧
        .returns ⟨7, 1⟩ ⟨8, 1⟩ true ∈ r.events ∧ .returns ⟨5, 0⟩ ⟨8, 0⟩ false ∈ r.events ∧
        (∀ c, .reaches c ∈ r.events → c.pos ≤ 10 ∧ c.depth ≤ 128) ∧
        (∀ c, .takes c ∈ r.events → c.pos < 10) ∧ r.cursor = ⟨8, 0⟩ ∧
        r.events.findSome? Event.reached? = some r.cursor ∧
        r.events.filterMap Event.taken? = [7, 6, 5, 4, 3, 2, 1, 0] := by
  have hfuel : Definition.missingComma.length < 11 := by decide
  obtain ⟨r, hrun, hreach, htake, _, _, hnewest, htaken⟩ :=
    run_stays_within_bounds Definition.missingComma 11 hfuel
  have hreader : (run (some nestingLimit) Definition.missingComma 11).map Prod.snd = some r := by
    rw [hrun]
    rfl
  have hcursor : r.cursor = ⟨8, 0⟩ := by
    have hmap := congrArg (Option.map Reader.cursor) hreader
    exact Option.some.inj (hmap.symm.trans rfl)
  have hevents : ((run (some nestingLimit) Definition.missingComma 11).map Prod.snd).elim []
      Reader.events = r.events := by
    rw [hreader]
    rfl
  refine ⟨hfuel, r, hrun, ?_, ?_, hreach, htake, hcursor, hnewest, ?_⟩
  · rw [← hevents]
    decide
  · rw [← hevents]
    decide
  · rw [htaken, hcursor]
    rfl

end DefLang.Descent
