import DefLang.Compile
import DefLang.Proofs.Attempt
import DefLang.Proofs.Grammar

namespace DefLang

mutual

/-- No definition stands inside the expression. -/
def Node.Plain : Node → Prop
  | .definition .. => False
  | .integer _ => True
  | .call _ args => Node.AllPlain args
  | .reference _ => True

def Node.AllPlain : List Node → Prop
  | [] => True
  | node :: nodes => node.Plain ∧ Node.AllPlain nodes

end

mutual

/-- The text of a plain expression of any depth. -/
def Node.render : Node → String
  | .definition .. => ""
  | .integer digits => digits
  | .call name args => name ++ "(" ++ ",".intercalate (Node.renderAll args) ++ ")"
  | .reference name => name

def Node.renderAll : List Node → List String
  | [] => []
  | node :: nodes => node.render :: Node.renderAll nodes

end

theorem Node.allPlain_iff (nodes : List Node) :
    Node.AllPlain nodes ↔ ∀ node ∈ nodes, node.Plain := by
  induction nodes with
  | nil => simp [Node.AllPlain]
  | cons node nodes ih => simp [Node.AllPlain, ih]

theorem Node.renderAll_eq_map (nodes : List Node) :
    Node.renderAll nodes = nodes.map Node.render := by
  induction nodes with
  | nil => rfl
  | cons node nodes ih => rw [Node.renderAll, ih, List.map_cons]

mutual

theorem Node.expression_eq_ok_iff (levels : Nat) (node : Node) (text : String) :
    node.expression levels = .ok text ↔
      node.Plain ∧ node.levels ≤ levels ∧ text = node.render := by
  cases levels with
  | zero =>
    have hpos := node.levels_pos
    simp only [Node.expression, reduceCtorEq, false_iff]
    omega
  | succ levels =>
    cases node with
    | definition name params body => simp [Node.expression, Node.Plain]
    | integer digits => simp [Node.expression, Node.Plain, Node.levels, Node.render, eq_comm]
    | reference name => simp [Node.expression, Node.Plain, Node.levels, Node.render, eq_comm]
    | call name args =>
      have ih := Node.expressions_eq_ok_iff levels args
      simp only [Node.expression, bind_eq_ok_iff, ih, Node.Plain, Node.levels, Node.render,
        Nat.add_le_add_iff_right]
      refine ⟨fun h => ?_, fun h => ⟨_, ⟨h.1, h.2.1, rfl⟩, by rw [h.2.2]; rfl⟩⟩
      obtain ⟨texts, ⟨hplain, hdeep, rfl⟩, htext⟩ := h
      exact ⟨hplain, hdeep, (Except.ok.inj htext).symm⟩
termination_by structural node

theorem Node.expressions_eq_ok_iff (levels : Nat) (nodes : List Node) (texts : List String) :
    Node.expressions levels nodes = .ok texts ↔
      Node.AllPlain nodes ∧ Node.deepest nodes ≤ levels ∧ texts = Node.renderAll nodes := by
  cases nodes with
  | nil => simp [Node.expressions, Node.AllPlain, Node.deepest, Node.renderAll, eq_comm]
  | cons node nodes =>
    have ih := Node.expression_eq_ok_iff levels node
    have ihs := Node.expressions_eq_ok_iff levels nodes
    simp only [Node.expressions, bind_eq_ok_iff, ih, ihs, Node.AllPlain, Node.deepest, Nat.max_le,
      Node.renderAll]
    refine ⟨fun h => ?_, fun h => ?_⟩
    · obtain ⟨text, ⟨hplain, hlevels, rfl⟩, texts, ⟨hplains, hdeep, rfl⟩, htexts⟩ := h
      exact ⟨⟨hplain, hplains⟩, ⟨hlevels, hdeep⟩, (Except.ok.inj htexts).symm⟩
    · obtain ⟨⟨hplain, hplains⟩, ⟨hlevels, hdeep⟩, rfl⟩ := h
      exact ⟨_, ⟨hplain, hlevels, rfl⟩, _, ⟨hplains, hdeep, rfl⟩, rfl⟩
termination_by structural nodes

end

theorem Definition.script_eq_ok_iff (d : Definition) (text : String) :
    d.script = .ok text ↔ d.body.Plain ∧ d.body.levels ≤ nestingLimit ∧
      text = "function " ++ d.name ++ "(" ++ ",".intercalate d.params ++ ") \x7breturn " ++
        d.body.render ++ "\x7d;" := by
  simp only [Definition.script, bind_eq_ok_iff, Node.expression_eq_ok_iff]
  refine ⟨fun h => ?_, fun h => ⟨_, ⟨h.1, h.2.1, rfl⟩, by rw [h.2.2]; rfl⟩⟩
  obtain ⟨body, ⟨hplain, hlevels, rfl⟩, htext⟩ := h
  exact ⟨hplain, hlevels, (Except.ok.inj htext).symm⟩

theorem compile_eq_ok_iff_stages (source text : String) :
    compile source = .ok text ↔ ∃ ts d, Token.scan source.toList = .ok ts ∧
      Definition.read ts = .ok d ∧ d.script = .ok text := by
  simp only [compile, bind_eq_ok_iff, mapError_eq_ok_iff]
  refine ⟨fun h => ?_, fun h => ?_⟩
  · obtain ⟨ts, hts, d, hd, htext⟩ := h
    exact ⟨ts, d, hts, hd, htext⟩
  · obtain ⟨ts, d, hts, hd, htext⟩ := h
    exact ⟨ts, hts, d, hd, htext⟩

theorem compile_eq_error_iff_stages (source : String) (e : Failure) :
    compile source = .error e ↔
      (∃ e', Token.scan source.toList = .error e' ∧ .scan e' = e) ∨
        ∃ ts, Token.scan source.toList = .ok ts ∧
          ((∃ e', Definition.read ts = .error e' ∧ .grammar e' = e) ∨
            ∃ d, Definition.read ts = .ok d ∧ ∃ e', d.script = .error e' ∧ .script e' = e) := by
  simp only [compile, bind_eq_error_iff, mapError_eq_ok_iff, mapError_eq_error_iff]

end DefLang
