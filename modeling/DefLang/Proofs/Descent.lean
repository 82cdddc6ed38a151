import DefLang.Proofs.Depth

namespace DefLang.Descent
open Reading

/-- How many tokens have been taken, and how many expressions the reader is inside of. -/
structure Cursor where
  pos : Nat
  depth : Nat
  deriving DecidableEq, Repr

/-- What a reader does: it takes the token at `c`, it gets to `c`, or it comes back at `c'` from an
expression that was to start at `c`. -/
inductive Event where
  | takes (c : Cursor)
  | reaches (c : Cursor)
  | returns (c c' : Cursor) (ok : Bool)
  deriving DecidableEq, Repr

/-- A reader with all that it has done, newest first. -/
structure Reader where
  cursor : Cursor
  events : List Event
  deriving DecidableEq, Repr

namespace Reader

def record (e : Event) (r : Reader) : Reader :=
  { r with events := e :: r.events }

/-- The only way to change the cursor. -/
def moveTo (c : Cursor) (r : Reader) : Reader :=
  record (.reaches c) { r with cursor := c }

def start : Reader :=
  moveTo { pos := 0, depth := 0 } { cursor := { pos := 0, depth := 0 }, events := [] }

def enter (r : Reader) : Reader :=
  r.moveTo { r.cursor with depth := r.cursor.depth + 1 }

/-- There is no level to leave outside of all expressions. -/
def leave? (r : Reader) : Option Reader :=
  match r.cursor.depth with
  | 0 => none
  | depth + 1 => some (r.moveTo { r.cursor with depth })

end Reader

/-- A reader gets stuck where a token or a level is asked for that does not exist, and where the
fuel is spent. -/
abbrev Run (α : Type) := Attempt GrammarError Reader α

/-- Keeps a record of where `x` comes back. -/
def traced {α : Type} (x : Run α) : Run α := ExceptT.mk do
  let c := (← get).cursor
  let result ← x.run
  modify fun r => r.record (.returns c r.cursor result.isOk)
  return result

section
variable (limit : Option Nat) (tokens : List Token)

/-- The kind of the token that is `ahead` places further on. -/
def peek (ahead : Nat) : Run Token.Kind :=
  return kindAt tokens ((← get).cursor.pos + ahead)

def here : Run Span :=
  return spanAt tokens (← get).cursor.pos

/-- Takes the next token without asking whether there is one. -/
def advance : Run Token := do
  let c := (← get).cursor
  modify (Reader.record (.takes c))
  match tokens[c.pos]? with
  | none => Attempt.stuck
  | some t =>
    modify (Reader.moveTo { c with pos := c.pos + 1 })
    return t

def expect (kind : Token.Kind) : Run Token := do
  let found ← peek tokens 0
  if found = kind then advance tokens
  else throw (.expected kind found (← here tokens))

/-- As long as there is a comma, one more item after `xs`. -/
def more {α : Type} (item : Run α) : Nat → List α → Run (List α)
  | 0, _ => Attempt.stuck
  | fuel + 1, xs => do
    if (← peek tokens 0) = .comma then
      let _ ← advance tokens
      let x ← item
      more item fuel (xs ++ [x])
    else return xs

def parenthesized {α : Type} (list : Run α) : Run α := do
  let _ ← expect tokens .openParen
  let xs ← list
  let _ ← expect tokens .closeParen
  return xs

def identifier : Run String :=
  return (← expect tokens .identifier).value

def params (fuel : Nat) : Run (List String) := do
  match ← peek tokens 0 with
  | .identifier =>
    let t ← advance tokens
    more tokens (identifier tokens) fuel [t.value]
  | .closeParen => return []
  | found => throw (.expectedOneOf [.identifier, .closeParen] found (← here tokens))

def args (expression : Run Node) (fuel : Nat) : Run (List Node) := do
  if (← peek tokens 0) = .closeParen then return []
  else
    let node ← expression
    more tokens expression fuel [node]

/-- An expression whose arguments are read by `expression`. -/
def primary (expression : Run Node) (fuel : Nat) : Run Node := do
  match ← peek tokens 0 with
  | .integer =>
    let t ← advance tokens
    return .integer (String.ofList (Text.dropZeros t.value.toList))
  | .identifier =>
    if (← peek tokens 1) = .openParen then
      let name ← identifier tokens
      return .call name (← parenthesized tokens (args tokens expression fuel))
    else return .reference (← identifier tokens)
  | found => throw (.expectedExpression found (← here tokens))

def expression : Nat → Run Node
  | 0 => Attempt.stuck
  | fuel + 1 => traced do
    if limit = some (← get).cursor.depth then throw (.tooDeep (← here tokens))
    else Attempt.within Reader.enter Reader.leave? (primary tokens (expression fuel) fuel)

def definition (fuel : Nat) : Run Definition := do
  let _ ← expect tokens .defKeyword
  let name ← identifier tokens
  let params ← parenthesized tokens (params tokens fuel)
  let _ ← expect tokens .colon
  let body ← expression limit tokens fuel
  return { name, params, body }

def whole (fuel : Nat) : Run Definition := do
  let d ← definition limit tokens fuel
  match tokens[(← get).cursor.pos]? with
  | none => return d
  | some t => throw (.leftover t.kind t.span)

/-- Reads one definition and nothing after it, token by token and with one call of a function for
each expression. Inside `limit` expressions no further one may start. -/
def run (fuel : Nat) : Option (Except GrammarError Definition × Reader) :=
  (whole limit tokens fuel).run.run Reader.start

end

/-! What a reader can do, and what follows for its position and its events. -/

namespace Event

/-- Where the reader is right after the event. -/
def pos : Event → Nat
  | takes c => c.pos
  | reaches c => c.pos
  | returns _ c' _ => c'.pos

def reached? : Event → Option Cursor
  | reaches c => some c
  | _ => none

/-- The index of the token that is taken. -/
def taken? : Event → Option Nat
  | takes c => some c.pos
  | _ => none

/-- What may happen with `n` tokens. -/
def Sound (limit : Option Nat) (n : Nat) : Event → Prop
  | takes c => c.pos < n
  | reaches c => c.pos ≤ n ∧ Within limit c.depth
  | returns c c' ok => c'.depth = c.depth ∧ c.pos ≤ c'.pos ∧ (ok = true → c.pos < c'.pos)

end Event

namespace Reader
variable {limit : Option Nat} {n : Nat} {r r' r'' : Reader}

/-- A reader of `n` tokens starts at the first one, takes one token after the other, changes its
level within the limit and comes back from expressions. -/
inductive Sound (limit : Option Nat) (n : Nat) : Reader → Prop where
  | start : Sound limit n start
  | take {r : Reader} (h : Sound limit n r) (hlt : r.cursor.pos < n) :
      Sound limit n
        ((r.record (.takes r.cursor)).moveTo { r.cursor with pos := r.cursor.pos + 1 })
  | level {r : Reader} {depth : Nat} (h : Sound limit n r) (hdepth : Within limit depth) :
      Sound limit n (r.moveTo { r.cursor with depth })
  | back {r : Reader} {c : Cursor} {ok : Bool} (h : Sound limit n r)
      (hreturn : (Event.returns c r.cursor ok).Sound limit n) :
      Sound limit n (r.record (.returns c r.cursor ok))

theorem Sound.pos_le (h : r.Sound limit n) : r.cursor.pos ≤ n := by
  induction h with
  | start => exact Nat.zero_le n
  | take _ hlt => exact hlt
  | level _ _ ih => exact ih
  | back _ _ ih => exact ih

theorem Sound.within (h : r.Sound limit n) : Within limit r.cursor.depth := by
  induction h with
  | start => exact fun m _ => Nat.zero_le m
  | take _ _ ih => exact ih
  | level _ hdepth => exact hdepth
  | back _ _ ih => exact ih

theorem Sound.event (h : r.Sound limit n) : ∀ e ∈ r.events, e.Sound limit n := by
  induction h with
  | start =>
    simp only [Reader.start, moveTo, record, List.forall_mem_singleton]
    exact ⟨Nat.zero_le n, fun m _ => Nat.zero_le m⟩
  | take h hlt ih =>
    simp only [moveTo, record, List.forall_mem_cons]
    exact ⟨⟨hlt, h.within⟩, hlt, ih⟩
  | level h hdepth ih =>
    simp only [moveTo, record, List.forall_mem_cons]
    exact ⟨⟨h.pos_le, hdepth⟩, ih⟩
  | back h hreturn ih =>
    simp only [record, List.forall_mem_cons]
    exact ⟨hreturn, ih⟩

theorem Sound.event_pos_le (h : r.Sound limit n) : ∀ e ∈ r.events, e.pos ≤ r.cursor.pos := by
  induction h with
  | start => simp [Reader.start, moveTo, record, Event.pos]
  | take _ _ ih =>
    simp only [moveTo, record, List.forall_mem_cons]
    exact ⟨le_rfl, Nat.le_succ _, fun e he => (ih e he).trans (Nat.le_succ _)⟩
  | level _ _ ih =>
    simp only [moveTo, record, List.forall_mem_cons]
    exact ⟨le_rfl, ih⟩
  | back _ _ ih =>
    simp only [record, List.forall_mem_cons]
    exact ⟨le_rfl, ih⟩

theorem Sound.ordered (h : r.Sound limit n) :
    r.events.Pairwise fun later earlier => earlier.pos ≤ later.pos := by
  induction h with
  | start => exact List.pairwise_singleton _ _
  | take h _ ih =>
    have hle := h.event_pos_le
    refine .cons ?_ (.cons hle ih)
    simp only [record, List.forall_mem_cons]
    exact ⟨Nat.le_succ _, fun e he => (hle e he).trans (Nat.le_succ _)⟩
  | level h _ ih => exact .cons h.event_pos_le ih
  | back h _ ih => exact .cons h.event_pos_le ih

/-- The cursor never changes without an event. -/
theorem Sound.newest (h : r.Sound limit n) : r.events.findSome? Event.reached? = some r.cursor := by
  induction h with
  | start => rfl
  | take => rfl
  | level => rfl
  | back _ _ ih => exact ih

/-- Each token in front of the cursor has been taken once, in the order of the tokens. -/
theorem Sound.taken (h : r.Sound limit n) :
    r.events.filterMap Event.taken? = (List.range r.cursor.pos).reverse := by
  induction h with
  | start => rfl
  | @take r _ _ ih =>
    have hrange : (List.range (r.cursor.pos + 1)).reverse =
        r.cursor.pos :: (List.range r.cursor.pos).reverse := by
      rw [List.range_succ, List.reverse_concat]
    exact (congrArg (r.cursor.pos :: ·) ih).trans hrange.symm
  | level _ _ ih => exact ih
  | back _ _ ih => exact ih

/-- What a piece of reading does to the reader, with or without an error. -/
structure Keeps (limit : Option Nat) (n : Nat) (r r' : Reader) : Prop where
  sound : r'.Sound limit n
  depth_eq : r'.cursor.depth = r.cursor.depth
  pos_le : r.cursor.pos ≤ r'.cursor.pos

theorem Keeps.refl (h : r.Sound limit n) : r.Keeps limit n r :=
  ⟨h, rfl, le_rfl⟩

theorem Keeps.trans (h : r.Keeps limit n r') (h' : r'.Keeps limit n r'') : r.Keeps limit n r'' :=
  ⟨h'.sound, h'.depth_eq.trans h.depth_eq, h.pos_le.trans h'.pos_le⟩

end Reader

/-- Started at `r`, `x` comes back: with a result and at a position for which `post` holds, or with
the error of `Definition.readWithin`. -/
def Does {α : Type} (limit : Option Nat) (tokens : List Token) (x : Run α) (r : Reader)
    (post : α → Nat → Prop) : Prop :=
  ∃ result r', x.Ends r result r' ∧ r.Keeps limit tokens.length r' ∧
    match result with
    | .ok a => post a r'.cursor.pos
    | .error e => Definition.readWithin limit tokens = .error e

section
variable {limit : Option Nat} {tokens : List Token} {α β : Type} {r : Reader} {x : Run α}
  {f : α → Run β} {a : α} {e : GrammarError} {mid post post' : α → Nat → Prop}

theorem Does.pure (hr : r.Sound limit tokens.length) (h : post a r.cursor.pos) :
    Does limit tokens (pure a) r post :=
  ⟨.ok a, r, rfl, .refl hr, h⟩

theorem Does.throw (hr : r.Sound limit tokens.length)
    (h : Definition.readWithin limit tokens = .error e) : Does limit tokens (throw e) r post :=
  ⟨.error e, r, rfl, .refl hr, h⟩

theorem Does.bind {post : β → Nat → Prop} (hx : Does limit tokens x r mid)
    (hf : ∀ a r', r.Keeps limit tokens.length r' → mid a r'.cursor.pos →
      Does limit tokens (f a) r' post) :
    Does limit tokens (x >>= f) r post := by
  obtain ⟨result, r', hends, hkeeps, hresult⟩ := hx
  cases result with
  | error e => exact ⟨.error e, r', hends.bind_error, hkeeps, hresult⟩
  | ok a =>
    obtain ⟨result', r'', hends', hkeeps', hresult'⟩ := hf a r' hkeeps hresult
    exact ⟨result', r'', hends.bind_ok hends', hkeeps.trans hkeeps', hresult'⟩

theorem Does.imp (hx : Does limit tokens x r post)
    (h : ∀ a r', r.Keeps limit tokens.length r' → post a r'.cursor.pos → post' a r'.cursor.pos) :
    Does limit tokens x r post' := by
  obtain ⟨result, r', hends, hkeeps, hresult⟩ := hx
  refine ⟨result, r', hends, hkeeps, ?_⟩
  cases result with
  | error e => exact hresult
  | ok a => exact h a r' hkeeps hresult

theorem Does.get {f : Reader → Run β} {post : β → Nat → Prop}
    (h : Does limit tokens (f r) r post) : Does limit tokens (get >>= f) r post :=
  h

theorem Does.peek {f : Token.Kind → Run β} {ahead : Nat} {post : β → Nat → Prop}
    (h : Does limit tokens (f (kindAt tokens (r.cursor.pos + ahead))) r post) :
    Does limit tokens (peek tokens ahead >>= f) r post :=
  h

theorem Does.here {f : Span → Run β} {post : β → Nat → Prop}
    (h : Does limit tokens (f (spanAt tokens r.cursor.pos)) r post) :
    Does limit tokens (here tokens >>= f) r post :=
  h

theorem does_advance {kind : Token.Kind} (hr : r.Sound limit tokens.length)
    (hkind : kindAt tokens r.cursor.pos = kind) (hne : kind ≠ .endOfInput) :
    Does limit tokens (advance tokens) r fun t k =>
      tokens[r.cursor.pos]? = some t ∧ t.kind = kind ∧ k = r.cursor.pos + 1 := by
  cases ht : tokens[r.cursor.pos]? with
  | none =>
    -- past the end there is no token of any other kind
    simp only [kindAt, ht] at hkind
    exact absurd hkind.symm hne
  | some t =>
    simp only [kindAt, ht] at hkind
    have hlt : r.cursor.pos < tokens.length := (List.getElem?_eq_some_iff.mp ht).1
    refine ⟨.ok t, _, ?_, ⟨hr.take hlt, rfl, Nat.le_succ _⟩, rfl, hkind, rfl⟩
    refine .bind_ok (a := r) rfl (.bind_ok (a := ()) rfl ?_)
    simp only [ht]
    rfl

theorem does_within (hr : r.Sound limit tokens.length) (hlimit : limit ≠ some r.cursor.depth)
    (hx : ∀ r', r'.Sound limit tokens.length → r'.cursor.pos = r.cursor.pos →
      r'.cursor.depth = r.cursor.depth + 1 → Does limit tokens x r' post) :
    Does limit tokens (x.within Reader.enter Reader.leave?) r post := by
  obtain ⟨result, r', hends, hkeeps, hresult⟩ := hx _ (hr.level (hr.within.succ hlimit)) rfl rfl
  have hback : r'.cursor.depth = r.cursor.depth + 1 := hkeeps.depth_eq
  have hleave : r'.leave? = some (r'.moveTo { r'.cursor with depth := r.cursor.depth }) := by
    simp [Reader.leave?, hback]
  exact ⟨result, _, hends.within hleave, ⟨hkeeps.sound.level hr.within, rfl, hkeeps.pos_le⟩,
    hresult⟩

theorem does_traced (hx : Does limit tokens x r fun a k => r.cursor.pos < k ∧ post a k) :
    Does limit tokens (traced x) r fun a k => r.cursor.pos < k ∧ post a k := by
  obtain ⟨result, r', hends, hkeeps, hresult⟩ := hx
  have hreturn : (Event.returns r.cursor r'.cursor result.isOk).Sound limit tokens.length := by
    refine ⟨hkeeps.depth_eq, hkeeps.pos_le, fun hok => ?_⟩
    cases result with
    | error e => cases hok
    | ok a => exact hresult.1
  refine ⟨result, _, ?_, ⟨hkeeps.sound.back hreturn, hkeeps.depth_eq, hkeeps.pos_le⟩, hresult⟩
  have hrun : x.run.run r = some (result, r') := hends
  simp [Attempt.Ends, traced, hrun]

end

end DefLang.Descent
