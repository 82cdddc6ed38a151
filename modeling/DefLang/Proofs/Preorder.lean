import DefLang.Proofs.Emission

namespace DefLang

mutual

/-- The nodes of an expression in preorder, each with its level: arguments are one level further in
than their call. A definition counts as a node, and what is inside it does not. -/
def Node.preorder : Nat → Node → List (Nat × Node)
  | level, .definition name params body => [(level, .definition name params body)]
  | level, .integer digits => [(level, .integer digits)]
  | level, .call name args => (level, .call name args) :: Node.preorderAll (level + 1) args
  | level, .reference name => [(level, .reference name)]
termination_by structural _ node => node

def Node.preorderAll : Nat → List Node → List (Nat × Node)
  | _, [] => []
  | level, node :: nodes => node.preorder level ++ Node.preorderAll level nodes
termination_by structural _ nodes => nodes

end

def Node.isDefinition : Node → Bool
  | .definition .. => true
  | _ => false

/-- A node that has no script: it is on the first level past the limit, or it is a definition. -/
def Node.atFault (p : Nat × Node) : Bool :=
  p.1 == nestingLimit + 1 || p.2.isDefinition

/-- What comes of a tree whose first node at fault, if any, is given: `script` or an error. -/
inductive Verdict {α : Type} (script : α) : Option (Nat × Node) → Except ScriptError α → Prop where
  | fine : Verdict script none (.ok script)
  | tooDeep (node : Node) :
      Verdict script (some (nestingLimit + 1, node)) (.error (.tooDeep nestingLimit))
  | misplaced (level : Nat) (node : Node) (hlevel : level ≤ nestingLimit)
      (hnode : node.isDefinition = true) :
      Verdict script (some (level, node)) (.error (.unexpectedNode "def" "an expression"))

namespace Verdict

variable {α β γ : Type} {a : α} {first rest : Option (Nat × Node)} {x : Except ScriptError α}

theorem map (h : Verdict a first x) (f : α → β) :
    Verdict (f a) first (do let a ← x; return f a) := by
  cases h with
  | fine => exact .fine
  | tooDeep node => exact .tooDeep node
  | misplaced level node hlevel hnode => exact .misplaced level node hlevel hnode

/-- The first of two trees that is at fault decides. -/
theorem seq {b : β} {y : Except ScriptError β} (h : Verdict a first x) (h' : Verdict b rest y)
    (f : α → β → γ) : Verdict (f a b) (first.or rest) (do let a ← x; let b ← y; return f a b) := by
  cases h with
  | fine => exact h'.map (f a)
  | tooDeep node => exact .tooDeep node
  | misplaced level node hlevel hnode => exact .misplaced level node hlevel hnode

end Verdict

theorem Node.atFault_of_le {level : Nat} (h : level ≤ nestingLimit) (node : Node) :
    Node.atFault (level, node) = node.isDefinition := by
  have hne : (level == nestingLimit + 1) = false := beq_eq_false_iff_ne.mpr (by omega)
  rw [Node.atFault, hne, Bool.false_or]

theorem Node.exists_preorder_eq (level : Nat) (node : Node) :
    ∃ rest, node.preorder level = (level, node) :: rest := by
  cases node <;> exact ⟨_, rfl⟩

mutual

theorem Node.verdict_expression (levels level : Nat) (node : Node)
    (h : level + levels = nestingLimit + 1) :
    Verdict node.render ((node.preorder level).find? Node.atFault) (node.expression levels) := by
  -- no levels are left exactly on the first level past the limit
  cases levels with
  | zero =>
    obtain ⟨rest, hrest⟩ := node.exists_preorder_eq level
    obtain rfl : level = nestingLimit + 1 := h
    rw [hrest, List.find?_cons_of_pos (by simp [Node.atFault]), Node.expression]
    exact .tooDeep node
  | succ levels =>
    have hlevel : level ≤ nestingLimit := by omega
    have hfault := Node.atFault_of_le hlevel
    cases node with
    | integer digits =>
      simp only [Node.preorder, List.find?_cons, hfault, Node.isDefinition]
      exact .fine
    | reference name =>
      simp only [Node.preorder, List.find?_cons, hfault, Node.isDefinition]
      exact .fine
    | definition name params body =>
      simp only [Node.preorder, List.find?_cons, hfault, Node.isDefinition]
      exact .misplaced level _ hlevel rfl
    | call name args =>
      simp only [Node.preorder, List.find?_cons, hfault, Node.isDefinition]
      exact (Node.verdict_expressions levels (level + 1) args (by omega)).map
        fun texts => name ++ "(" ++ ",".intercalate texts ++ ")"
termination_by structural node

theorem Node.verdict_expressions (levels level : Nat) (nodes : List Node)
    (h : level + levels = nestingLimit + 1) :
    Verdict (Node.renderAll nodes) ((Node.preorderAll level nodes).find? Node.atFault)
      (Node.expressions levels nodes) := by
  cases nodes with
  | nil => exact .fine
  | cons node nodes =>
    rw [Node.preorderAll, List.find?_append]
    exact (Node.verdict_expression levels level node h).seq
      (Node.verdict_expressions levels level nodes h) List.cons
termination_by structural nodes

end

theorem Definition.verdict_script (d : Definition) :
    Verdict ("function " ++ d.name ++ "(" ++ ",".intercalate d.params ++ ") \x7breturn " ++
        d.body.render ++ "\x7d;")
      ((d.body.preorder 1).find? Node.atFault) d.script :=
  (d.body.verdict_expression nestingLimit 1 (Nat.add_comm 1 nestingLimit)).map fun body =>
    "function " ++ d.name ++ "(" ++ ",".intercalate d.params ++ ") \x7breturn " ++ body ++ "\x7d;"

theorem Node.exists_split_of_find?_atFault {nodes : List (Nat × Node)} {p : Nat × Node}
    (h : nodes.find? Node.atFault = some p) :
    ∃ before after, nodes = before ++ p :: after ∧
      ∀ q ∈ before, q.1 ≠ nestingLimit + 1 ∧ q.2.isDefinition = false := by
  obtain ⟨_, before, after, hsplit, hbefore⟩ := List.find?_eq_some_iff_append.mp h
  refine ⟨before, after, hsplit, fun q hq => ?_⟩
  simpa [Node.atFault] using hbefore q hq

/-- A definition has the script that its tree spells, unless a node of the body is at fault. Then
the first such node in preorder decides which error it is. -/
theorem Definition.script_follows_the_first_fault (d : Definition) :
    (d.body.Plain ∧ d.body.levels ≤ 128 →
      d.script = .ok ("function " ++ d.name ++ "(" ++ ",".intercalate d.params ++
        ") \x7breturn " ++ d.body.render ++ "\x7d;")) ∧
    (¬ (d.body.Plain ∧ d.body.levels ≤ 128) →
      ∃ before level node after, d.body.preorder 1 = before ++ (level, node) :: after ∧
        (∀ p ∈ before, p.1 ≠ 129 ∧ p.2.isDefinition = false) ∧
        (level = 129 ∧ d.script = .error (.tooDeep 128) ∨
          level ≤ 128 ∧ node.isDefinition = true ∧
            d.script = .error (.unexpectedNode "def" "an expression"))) ∧
    d.toNode.script = d.script := by
  refine ⟨fun h => ?_, fun h => ?_, rfl⟩
  · exact (d.script_eq_ok_iff _).mpr ⟨h.1, h.2, rfl⟩
  · have hnot : ∀ text, d.script ≠ .ok text := by
      intro text htext
      obtain ⟨hplain, hlevels, _⟩ := (d.script_eq_ok_iff text).mp htext
      exact h ⟨hplain, hlevels⟩
    have hverdict := d.verdict_script
    generalize hfirst : (d.body.preorder 1).find? Node.atFault = first at hverdict
    generalize d.script = result at hnot hverdict
    cases hverdict with
    | fine => exact (hnot _ rfl).elim
    | tooDeep node =>
      obtain ⟨before, after, hsplit, hbefore⟩ := Node.exists_split_of_find?_atFault hfirst
      exact ⟨before, _, node, after, hsplit, hbefore, .inl ⟨rfl, rfl⟩⟩
    | misplaced level node hlevel hnode =>
      obtain ⟨before, after, hsplit, hbefore⟩ := Node.exists_split_of_find?_atFault hfirst
      exact ⟨before, level, node, after, hsplit, hbefore, .inr ⟨hlevel, hnode, rfl⟩⟩

/-- A definition among the arguments of a call. -/
example : Definition.script
    ⟨"f", [], .call "g" [.integer "1", .definition "h" [] (.reference "x"), .reference "y"]⟩ =
    .error (.unexpectedNode "def" "an expression") := rfl

end DefLang
