import DefLang.Proofs.Acceptance
import DefLang.Proofs.Emission
import DefLang.Proofs.Layout
import Mathlib.Data.List.Chain

namespace DefLang.Source
open Text

structure Name where
  text : String
  isName : IsName text.toList

structure Numeral where
  text : String
  isNumeral : IsNumeral text.toList

/-- An expression as it is written, with the zeros in front of its numerals. -/
inductive Expression where
  | integer (n : Numeral)
  | reference (x : Name)
  | call (f : Name) (args : List Expression)

/-- A definition as it is written. -/
structure Program where
  name : Name
  params : List Name
  body : Expression

namespace Expression

mutual

/-- A leaf or a call without arguments is one level, any other call one more than its deepest
argument. -/
def levels : Expression → Nat
  | integer _ => 1
  | reference _ => 1
  | call _ args => deepest args + 1

def deepest : List Expression → Nat
  | [] => 0
  | e :: es => max e.levels (deepest es)

end

mutual

/-- The texts of the tokens. -/
def texts : Expression → List (List Char)
  | integer n => [n.text.toList]
  | reference x => [x.text.toList]
  | call f args => f.text.toList :: ['('] :: ([[',']].intercalate (textsOf args) ++ [[')']])

def textsOf : List Expression → List (List (List Char))
  | [] => []
  | e :: es => e.texts :: textsOf es

end

mutual

/-- The script text: numerals lose the zeros in front, and there is no layout. -/
def script : Expression → String
  | integer n => String.ofList (unpadded n.text.toList)
  | reference x => x.text
  | call f args => f.text ++ "(" ++ ",".intercalate (scripts args) ++ ")"

def scripts : List Expression → List String
  | [] => []
  | e :: es => e.script :: scripts es

end

mutual

def toNode : Expression → Node
  | integer n => .integer (String.ofList (unpadded n.text.toList))
  | reference x => .reference x.text
  | call f args => .call f.text (toNodes args)

def toNodes : List Expression → List Node
  | [] => []
  | e :: es => e.toNode :: toNodes es

end

theorem textsOf_eq_map (es : List Expression) : textsOf es = es.map texts := by
  induction es with
  | nil => rfl
  | cons e es ih => rw [textsOf, ih, List.map_cons]

theorem toNodes_eq_map (es : List Expression) : toNodes es = es.map toNode := by
  induction es with
  | nil => rfl
  | cons e es ih => rw [toNodes, ih, List.map_cons]

theorem scripts_eq_map (es : List Expression) : scripts es = es.map script := by
  induction es with
  | nil => rfl
  | cons e es ih => rw [scripts, ih, List.map_cons]

@[elab_as_elim]
theorem induction {motive : Expression → Prop} (integer : ∀ n, motive (.integer n))
    (reference : ∀ x, motive (.reference x))
    (call : ∀ f args, (∀ e ∈ args, motive e) → motive (.call f args)) (e : Expression) :
    motive e := by
  refine @Expression.rec motive (fun es => ∀ e ∈ es, motive e) integer reference call ?_ ?_ e
  · simp
  · intro e es he hes e' he'
    obtain rfl | he' := List.mem_cons.mp he'
    · exact he
    · exact hes e' he'

theorem levels_toNode (e : Expression) : e.toNode.levels = e.levels := by
  induction e using induction with
  | integer n => rfl
  | reference x => rfl
  | call f args ih =>
    have hdeep : Node.deepest (toNodes args) = deepest args := by
      induction args with
      | nil => rfl
      | cons e es ihs =>
        rw [toNodes, Node.deepest, deepest, ih e (by simp),
          ihs fun e he => ih e (List.mem_cons_of_mem _ he)]
    rw [toNode, Node.levels, levels, hdeep]

theorem render_toNode (e : Expression) : e.toNode.render = e.script := by
  induction e using induction with
  | integer n => rfl
  | reference x => rfl
  | call f args ih =>
    have hall : (toNodes args).map Node.render = scripts args := by
      rw [toNodes_eq_map, scripts_eq_map, List.map_map]
      exact List.map_congr_left ih
    rw [toNode, Node.render, script, Node.renderAll_eq_map, hall]

theorem plain_toNode (e : Expression) : e.toNode.Plain := by
  induction e using induction with
  | integer n => trivial
  | reference x => trivial
  | call f args ih =>
    rw [toNode, Node.Plain, Node.allPlain_iff, toNodes_eq_map]
    simpa using ih

end Expression

namespace Program

/-- The texts of the tokens of `def NAME(PARAMS): BODY`. -/
def texts (p : Program) : List (List Char) :=
  ['d', 'e', 'f'] :: p.name.text.toList :: ['('] ::
    ([[',']].intercalate (p.params.map fun x => [x.text.toList]) ++
      [')'] :: [':'] :: p.body.texts)

def script (p : Program) : String :=
  "function " ++ p.name.text ++ "(" ++ ",".intercalate (p.params.map Name.text) ++
    ") \x7breturn " ++ p.body.script ++ "\x7d;"

def toDefinition (p : Program) : Definition where
  name := p.name.text
  params := p.params.map Name.text
  body := p.body.toNode

theorem script_toDefinition_eq_ok_iff (p : Program) (text : String) :
    p.toDefinition.script = .ok text ↔ p.body.levels ≤ nestingLimit ∧ text = p.script := by
  rw [Definition.script_eq_ok_iff]
  simp [toDefinition, script, Expression.plain_toNode, Expression.levels_toNode,
    Expression.render_toNode]

end Program

/-- Tokens with the given texts, each of the kind that its text has. -/
def Spelled (vs : List (List Char)) (ts : List Token) : Prop :=
  ts.map Token.text = vs ∧ ∀ t ∈ ts, t.kind.Fits t.text

theorem spelled_cons_iff (v : List Char) (vs : List (List Char)) (ts : List Token) :
    Spelled (v :: vs) ts ↔ ∃ t us, ts = t :: us ∧ t.text = v ∧ t.kind.Fits v ∧ Spelled vs us := by
  refine ⟨fun h => ?_, fun h => ?_⟩
  · obtain ⟨t, us, rfl, rfl, hus⟩ := List.map_eq_cons_iff.mp h.1
    exact ⟨t, us, rfl, rfl, h.2 t (by simp), hus, fun u hu => h.2 u (List.mem_cons_of_mem t hu)⟩
  · obtain ⟨t, us, rfl, rfl, ht, hus⟩ := h
    refine ⟨by rw [List.map_cons, hus.1], fun u hu => ?_⟩
    obtain rfl | hu := List.mem_cons.mp hu
    · exact ht
    · exact hus.2 u hu

theorem spelled_append_iff (vs ws : List (List Char)) (ts : List Token) :
    Spelled (vs ++ ws) ts ↔ ∃ us us', ts = us ++ us' ∧ Spelled vs us ∧ Spelled ws us' := by
  refine ⟨fun h => ?_, fun h => ?_⟩
  · obtain ⟨us, us', rfl, hus, hus'⟩ := List.map_eq_append_iff.mp h.1
    exact ⟨us, us', rfl, ⟨hus, fun t ht => h.2 t (List.mem_append_left us' ht)⟩,
      ⟨hus', fun t ht => h.2 t (List.mem_append_right us ht)⟩⟩
  · obtain ⟨us, us', rfl, hus, hus'⟩ := h
    refine ⟨by rw [List.map_append, hus.1, hus'.1], fun t ht => ?_⟩
    obtain ht | ht := List.mem_append.mp ht
    · exact hus.2 t ht
    · exact hus'.2 t ht

theorem spelled_nil_iff (ts : List Token) : Spelled [] ts ↔ ts = [] := by
  refine ⟨fun h => List.map_eq_nil_iff.mp h.1, fun h => ?_⟩
  subst h
  exact ⟨rfl, by simp⟩

theorem spelled_singleton_iff (v : List Char) (ts : List Token) :
    Spelled [v] ts ↔ ∃ t, ts = [t] ∧ t.text = v ∧ t.kind.Fits v := by
  simp [spelled_cons_iff, spelled_nil_iff]

/-- A list in the grammar is a list in the source if that holds of its items. -/
theorem exists_of_separated {α β : Type} {Item : List Token → α → Prop}
    {texts : β → List (List Char)} {value : β → α}
    (hitem : ∀ us x, Item us x → (∀ t ∈ us, t.kind.Fits t.text) →
      ∃ b, Spelled (texts b) us ∧ value b = x)
    {ts : List Token} {xs : List α} (hs : Grammar.Separated Item ts xs)
    (hf : ∀ t ∈ ts, t.kind.Fits t.text) :
    ∃ bs, bs ≠ [] ∧ Spelled ([[',']].intercalate (bs.map texts)) ts ∧ bs.map value = xs := by
  induction hs with
  | one hx =>
    obtain ⟨b, hb, rfl⟩ := hitem _ _ hx hf
    exact ⟨[b], by simp, by simpa using hb, rfl⟩
  | @more ts us c x xs hx hc hs ih =>
    obtain ⟨b, hb, rfl⟩ := hitem _ _ hx fun t ht => hf t (by simp [ht])
    obtain ⟨bs, hne, hbs, rfl⟩ := ih fun t ht => hf t (by simp [ht])
    have hcf : c.kind.Fits c.text := hf c (by simp)
    have hct : c.text = [','] := by rwa [hc] at hcf
    refine ⟨b :: bs, by simp, ?_, rfl⟩
    rw [List.map_cons, List.intercalate_cons_of_ne_nil (by simpa using hne), List.append_assoc,
      spelled_append_iff]
    refine ⟨ts, c :: us, rfl, hb, ?_⟩
    exact (spelled_cons_iff ..).mpr ⟨c, us, rfl, hct, hct ▸ hcf, hbs⟩

theorem separated_of_spelled {α β : Type} {Item : List Token → α → Prop}
    {texts : β → List (List Char)} {value : β → α} {bs : List β}
    (hitem : ∀ b ∈ bs, ∀ us, Spelled (texts b) us → Item us (value b)) (hne : bs ≠ [])
    {ts : List Token} (h : Spelled ([[',']].intercalate (bs.map texts)) ts) :
    Grammar.Separated Item ts (bs.map value) := by
  induction bs generalizing ts with
  | nil => exact (hne rfl).elim
  | cons b bs ih =>
    by_cases hbs : bs = []
    · subst hbs
      exact .one (hitem b (by simp) ts (by simpa using h))
    · rw [List.map_cons, List.intercalate_cons_of_ne_nil (by simpa using hbs), List.append_assoc,
        spelled_append_iff] at h
      obtain ⟨us, us', rfl, hus, hus'⟩ := h
      obtain ⟨c, us', rfl, _, hc, hrest⟩ := (spelled_cons_iff ..).mp hus'
      exact .more (hitem b (by simp) us hus) (hc.kind_eq rfl)
        (ih (fun b hb => hitem b (List.mem_cons_of_mem _ hb)) hbs hrest)

theorem exists_call {f o c : Token} {us : List Token} {args : List Expression}
    (hf : f.kind = .identifier) (ho : o.kind = .openParen) (hc : c.kind = .closeParen)
    (hargs : Spelled ([[',']].intercalate (args.map Expression.texts)) us)
    (hfits : ∀ t ∈ f :: o :: (us ++ [c]), t.kind.Fits t.text) :
    ∃ x : Name, x.text = f.value ∧
      Spelled (Expression.call x args).texts (f :: o :: (us ++ [c])) := by
  have hft : Token.Kind.identifier.Fits f.text := hf ▸ hfits f (by simp)
  have hot : Token.Kind.openParen.Fits o.text := ho ▸ hfits o (by simp)
  have hct : Token.Kind.closeParen.Fits c.text := hc ▸ hfits c (by simp)
  refine ⟨⟨f.value, hft⟩, rfl, ?_, hfits⟩
  rw [Expression.texts, Expression.textsOf_eq_map, ← hargs.1]
  simp only [List.map_cons, List.map_append, List.map_nil]
  rw [hot, hct]
  rfl

/-- Tokens that fit their kinds and make an expression are the tokens of a written one. -/
theorem exists_expression {ts : List Token} {n : Node} (h : Grammar.Expression ts n)
    (hfits : ∀ t ∈ ts, t.kind.Fits t.text) :
    ∃ e : Expression, Spelled e.texts ts ∧ e.toNode = n := by
  induction h using Grammar.Expression.induction with
  | integer t ht =>
    have hfit : Token.Kind.integer.Fits t.text := ht ▸ hfits t (by simp)
    exact ⟨.integer ⟨t.value, hfit⟩, ⟨rfl, hfits⟩, rfl⟩
  | reference t ht =>
    have hfit : Token.Kind.identifier.Fits t.text := ht ▸ hfits t (by simp)
    exact ⟨.reference ⟨t.value, hfit⟩, ⟨rfl, hfits⟩, rfl⟩
  | emptyCall f o c hf ho hc =>
    have hnil : Spelled ([[',']].intercalate (([] : List Expression).map Expression.texts)) [] :=
      ⟨rfl, by simp⟩
    obtain ⟨x, hx, hcall⟩ := exists_call hf ho hc hnil hfits
    exact ⟨.call x [], hcall, by rw [Expression.toNode, hx, Expression.toNodes]⟩
  | call f o c ts args hf ho _ hc ih =>
    obtain ⟨es, _, hes, rfl⟩ := exists_of_separated (fun us n h hus => h.2 hus) ih
      fun t ht => hfits t (by simp [ht])
    obtain ⟨x, hx, hcall⟩ := exists_call hf ho hc hes hfits
    exact ⟨.call x es, hcall, by rw [Expression.toNode, hx, Expression.toNodes_eq_map]⟩

/-- The tokens of a written expression make its tree. -/
theorem grammar_expression (e : Expression) {ts : List Token} (h : Spelled e.texts ts) :
    Grammar.Expression ts e.toNode := by
  induction e using Expression.induction generalizing ts with
  | integer n =>
    obtain ⟨t, rfl, ht, hk⟩ := (spelled_singleton_iff ..).mp h
    have hkind : t.kind = .integer := hk.kind_eq n.isNumeral
    have hd := Grammar.Expression.integer hkind
    rw [← Token.text, ht] at hd
    exact hd
  | reference x =>
    obtain ⟨t, rfl, ht, hk⟩ := (spelled_singleton_iff ..).mp h
    have hkind : t.kind = .identifier := hk.kind_eq x.isName
    have hvalue : t.value = x.text := String.toList_injective ht
    have hd := Grammar.Expression.reference hkind
    rw [hvalue] at hd
    exact hd
  | call f args ih =>
    obtain ⟨tf, us, rfl, htf, hf, hus⟩ := (spelled_cons_iff ..).mp h
    obtain ⟨o, us, rfl, _, ho, hus⟩ := (spelled_cons_iff ..).mp hus
    obtain ⟨us, us', rfl, hargs, hclose⟩ := (spelled_append_iff ..).mp hus
    obtain ⟨c, rfl, _, hc⟩ := (spelled_singleton_iff ..).mp hclose
    have hfk : tf.kind = .identifier := hf.kind_eq f.isName
    have hok : o.kind = .openParen := ho.kind_eq rfl
    have hck : c.kind = .closeParen := hc.kind_eq rfl
    rw [Expression.toNode, ← String.toList_injective htf]
    -- the grammar has a rule of its own for a call without arguments
    by_cases hne : args = []
    · subst hne
      obtain rfl := (spelled_nil_iff ..).mp hargs
      exact .emptyCall hfk hok hck
    · rw [Expression.textsOf_eq_map] at hargs
      rw [Expression.toNodes_eq_map]
      exact .call hfk hok (separated_of_spelled (fun e he us => ih e he) hne hargs) hck

theorem exists_name {ts : List Token} {name : String} (h : Grammar.Name ts name)
    (hfits : ∀ t ∈ ts, t.kind.Fits t.text) :
    ∃ x : Name, Spelled [x.text.toList] ts ∧ x.text = name := by
  obtain @⟨t, ht⟩ := h
  have hfit : Token.Kind.identifier.Fits t.text := ht ▸ hfits t (by simp)
  exact ⟨⟨t.value, hfit⟩, ⟨rfl, hfits⟩, rfl⟩

theorem exists_program {ts : List Token} {d : Definition} (h : Grammar.Definition ts d)
    (hfits : ∀ t ∈ ts, t.kind.Fits t.text) :
    ∃ p : Program, Spelled p.texts ts ∧ p.toDefinition = d := by
  obtain @⟨d, f, o, c, l, us, vs, params, body, hd, hf, ho, hp, hc, hl, hb⟩ := h
  obtain ⟨e, he, rfl⟩ := exists_expression hb fun t ht => hfits t (by simp [ht])
  obtain ⟨xs, hxs, rfl⟩ : ∃ xs : List Name,
      Spelled ([[',']].intercalate (xs.map fun x => [x.text.toList])) us ∧
        xs.map Name.text = params := by
    cases hp with
    | none => exact ⟨[], ⟨rfl, by simp⟩, rfl⟩
    | some hs =>
      obtain ⟨xs, _, hxs⟩ := exists_of_separated (fun _ _ => exists_name) hs
        fun t ht => hfits t (by simp [ht])
      exact ⟨xs, hxs⟩
  have hdt : Token.Kind.defKeyword.Fits d.text := hd ▸ hfits d (by simp)
  have hft : Token.Kind.identifier.Fits f.text := hf ▸ hfits f (by simp)
  have hot : Token.Kind.openParen.Fits o.text := ho ▸ hfits o (by simp)
  have hct : Token.Kind.closeParen.Fits c.text := hc ▸ hfits c (by simp)
  have hlt : Token.Kind.colon.Fits l.text := hl ▸ hfits l (by simp)
  refine ⟨⟨⟨f.value, hft⟩, xs, e⟩, ⟨?_, hfits⟩, rfl⟩
  rw [Program.texts, ← hxs.1, ← he.1]
  simp only [List.map_cons, List.map_append]
  rw [hdt, hot, hct, hlt]
  rfl

theorem grammar_definition (p : Program) {ts : List Token} (h : Spelled p.texts ts) :
    Grammar.Definition ts p.toDefinition := by
  obtain ⟨d, us, rfl, _, hd, hus⟩ := (spelled_cons_iff ..).mp h
  obtain ⟨f, us, rfl, hft, hf, hus⟩ := (spelled_cons_iff ..).mp hus
  obtain ⟨o, us, rfl, _, ho, hus⟩ := (spelled_cons_iff ..).mp hus
  obtain ⟨us, us', rfl, hparams, hus⟩ := (spelled_append_iff ..).mp hus
  obtain ⟨c, us', rfl, _, hc, hus⟩ := (spelled_cons_iff ..).mp hus
  obtain ⟨l, us', rfl, _, hl, hbody⟩ := (spelled_cons_iff ..).mp hus
  have hp : Grammar.Params us (p.params.map Name.text) := by
    by_cases hne : p.params = []
    · rw [hne] at hparams ⊢
      obtain rfl := (spelled_nil_iff ..).mp hparams
      exact .none
    · refine .some (separated_of_spelled (fun x _ us hus => ?_) hne hparams)
      obtain ⟨t, rfl, ht, hk⟩ := (spelled_singleton_iff ..).mp hus
      have hkind : t.kind = .identifier := hk.kind_eq x.isName
      rw [← String.toList_injective ht]
      exact .identifier hkind
  have hfk : f.kind = .identifier := hf.kind_eq p.name.isName
  rw [Program.toDefinition, ← String.toList_injective hft]
  exact .mk (hd.kind_eq rfl) hfk (ho.kind_eq rfl) hp (hc.kind_eq rfl) (hl.kind_eq rfl)
    (grammar_expression p.body hbody)

end DefLang.Source
