import DefLang.Tree.Reading
import Mathlib.Data.List.TakeWhile

namespace DefLang

mutual

/-- How deeply calls are nested: one level for a leaf or a call without arguments, and one more
than the deepest argument for any other call. -/
def Node.levels : Node → Nat
  | .definition .. => 1
  | .integer _ => 1
  | .call _ args => Node.deepest args + 1
  | .reference _ => 1

def Node.deepest : List Node → Nat
  | [] => 0
  | node :: nodes => max node.levels (Node.deepest nodes)

end

theorem Node.levels_pos (node : Node) : 0 < node.levels := by
  cases node <;> simp [Node.levels]

theorem Node.deepest_le_iff (nodes : List Node) (k : Nat) :
    Node.deepest nodes ≤ k ↔ ∀ node ∈ nodes, node.levels ≤ k := by
  induction nodes with
  | nil => simp [Node.deepest]
  | cons node nodes ih => rw [Node.deepest, Nat.max_le, ih, List.forall_mem_cons]

/-- A numeral without the zeros in front of it, or one zero where there is nothing else. -/
def Text.unpadded (digits : List Char) : List Char :=
  if digits.all (· == '0') then ['0'] else digits.dropWhile (· == '0')

theorem Text.dropZeros_eq_unpadded (digits : List Char) : dropZeros digits = unpadded digits := by
  have hz : digits.dropWhile (· == '0') = [] ↔ digits.all (· == '0') = true := by
    simp
  unfold dropZeros unpadded
  split
  next h => rw [if_pos (hz.mp h)]
  next h => rw [if_neg fun hall => h (hz.mpr hall)]

/-- A token of no particular place. -/
def Token.unplaced (kind : Kind) (value : String) : Token :=
  { kind, value, span := { offset := 0, length := 0 } }

namespace Grammar

/-- One item or more, with a comma between any two of them. -/
inductive Separated {α : Type} (Item : List Token → α → Prop) : List Token → List α → Prop where
  | one {ts : List Token} {x : α} (hx : Item ts x) : Separated Item ts [x]
  | more {ts us : List Token} {c : Token} {x : α} {xs : List α} (hx : Item ts x)
      (hc : c.kind = .comma) (hs : Separated Item us xs) : Separated Item (ts ++ c :: us) (x :: xs)

inductive Name : List Token → String → Prop where
  | identifier {t : Token} (ht : t.kind = .identifier) : Name [t] t.value

inductive Params : List Token → List String → Prop where
  | none : Params [] []
  | some {ts : List Token} {names : List String} (hs : Separated Name ts names) : Params ts names

/-- The tokens of an expression, with its tree. -/
inductive Expression : List Token → Node → Prop where
  | integer {t : Token} (ht : t.kind = .integer) :
      Expression [t] (.integer (String.ofList (Text.unpadded t.value.toList)))
  | reference {t : Token} (ht : t.kind = .identifier) : Expression [t] (.reference t.value)
  | emptyCall {f o c : Token} (hf : f.kind = .identifier) (ho : o.kind = .openParen)
      (hc : c.kind = .closeParen) : Expression [f, o, c] (.call f.value [])
  | call {f o c : Token} {ts : List Token} {args : List Node} (hf : f.kind = .identifier)
      (ho : o.kind = .openParen) (hs : Separated Expression ts args) (hc : c.kind = .closeParen) :
      Expression (f :: o :: (ts ++ [c])) (.call f.value args)

/-- The tokens of a whole definition, with its tree. -/
inductive Definition : List Token → DefLang.Definition → Prop where
  | mk {d f o c l : Token} {ts us : List Token} {params : List String} {body : Node}
      (hd : d.kind = .defKeyword) (hf : f.kind = .identifier) (ho : o.kind = .openParen)
      (hp : Params ts params) (hc : c.kind = .closeParen) (hl : l.kind = .colon)
      (hb : Expression us body) :
      Definition (d :: f :: o :: (ts ++ c :: l :: us)) { name := f.value, params, body }

/-- The arguments of a call come with the induction hypothesis of each of them. -/
theorem Expression.induction {motive : (ts : List Token) → (n : Node) → Expression ts n → Prop}
    (integer : ∀ (t : Token) (ht : t.kind = .integer), motive _ _ (.integer ht))
    (reference : ∀ (t : Token) (ht : t.kind = .identifier), motive _ _ (.reference ht))
    (emptyCall : ∀ (f o c : Token) (hf : f.kind = .identifier) (ho : o.kind = .openParen)
      (hc : c.kind = .closeParen), motive _ _ (.emptyCall hf ho hc))
    (call : ∀ (f o c : Token) (ts : List Token) (args : List Node) (hf : f.kind = .identifier)
      (ho : o.kind = .openParen) (hs : Separated Expression ts args) (hc : c.kind = .closeParen),
      Separated (fun us n => ∃ h : Expression us n, motive us n h) ts args →
        motive _ _ (.call hf ho hs hc))
    {ts : List Token} {n : Node} (h : Expression ts n) : motive ts n h := by
  refine @Expression.rec motive
    (fun ts ns _ => Separated (fun us n => ∃ h : Expression us n, motive us n h) ts ns)
    (fun {t} => integer t) (fun {t} => reference t) (fun {f o c} => emptyCall f o c)
    ?_ ?_ ?_ ts n h
  · intro f o c ts args hf ho hs hc ih
    exact call f o c ts args hf ho hs hc ih
  · intro ts x hx ih
    exact .one ⟨hx, ih⟩
  · intro ts us c x xs hx hc _ ih ihs
    exact .more ⟨hx, ih⟩ hc ihs

theorem Separated.imp {α : Type} {Item Item' : List Token → α → Prop} {ts : List Token}
    {xs : List α} (hs : Separated Item ts xs) (h : ∀ us x, x ∈ xs → Item us x → Item' us x) :
    Separated Item' ts xs := by
  induction hs with
  | one hx => exact .one (h _ _ (by simp) hx)
  | more hx hc _ ih =>
    exact .more (h _ _ (by simp) hx) hc (ih fun us x hm => h us x (List.mem_cons_of_mem _ hm))

end Grammar

end DefLang
