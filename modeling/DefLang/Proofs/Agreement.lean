import DefLang.Proofs.Acceptance
import DefLang.Proofs.Emission

namespace DefLang

/-- A numeral with no zero in front of other digits. The digits may be any characters. -/
def Text.IsNormal (digits : List Char) : Prop :=
  digits = ['0'] ∨ digits ≠ [] ∧ digits.head? ≠ some '0'

theorem Text.isNormal_unpadded (digits : List Char) : IsNormal (unpadded digits) := by
  unfold unpadded
  split
  next => exact .inl rfl
  next h =>
    have hne : digits.dropWhile (· == '0') ≠ [] := by simpa using h
    refine .inr ⟨hne, fun hz => ?_⟩
    have hnot := List.head?_dropWhile_not (· == '0') digits
    rw [hz] at hnot
    simp at hnot

theorem Text.unpadded_of_isNormal {digits : List Char} (h : IsNormal digits) :
    unpadded digits = digits := by
  obtain rfl | ⟨hne, hz⟩ := h
  · rfl
  · obtain ⟨c, cs, rfl⟩ := List.exists_cons_of_ne_nil hne
    have hc : c ≠ '0' := by simpa using hz
    simp [unpadded, hc]

mutual

/-- The texts of all integers in a tree, from left to right. -/
def Node.numerals : Node → List String
  | .definition _ _ body => body.numerals
  | .integer digits => [digits]
  | .call _ args => Node.allNumerals args
  | .reference _ => []

def Node.allNumerals : List Node → List String
  | [] => []
  | node :: nodes => node.numerals ++ Node.allNumerals nodes

end

theorem Node.mem_allNumerals_iff (nodes : List Node) (digits : String) :
    digits ∈ Node.allNumerals nodes ↔ ∃ node ∈ nodes, digits ∈ node.numerals := by
  induction nodes with
  | nil => simp [Node.allNumerals]
  | cons node nodes ih => simp [Node.allNumerals, ih]

/-- Every integer in the tree is written without zeros in front. -/
def Node.Normal (node : Node) : Prop :=
  ∀ digits ∈ node.numerals, Text.IsNormal digits.toList

theorem Node.normal_call_iff (name : String) (args : List Node) :
    (Node.call name args).Normal ↔ ∀ node ∈ args, node.Normal := by
  simp only [Node.Normal, Node.numerals, Node.mem_allNumerals_iff]
  constructor
  · intro h node hnode digits hdigits
    exact h digits ⟨node, hnode, hdigits⟩
  · rintro h digits ⟨node, hnode, hdigits⟩
    exact h node hnode digits hdigits

theorem Node.plain_call_iff (name : String) (args : List Node) :
    (Node.call name args).Plain ↔ ∀ node ∈ args, node.Plain := by
  rw [Node.Plain, Node.allPlain_iff]

@[elab_as_elim]
theorem Node.induction {motive : Node → Prop}
    (definition : ∀ name params body, motive body → motive (.definition name params body))
    (integer : ∀ digits, motive (.integer digits))
    (call : ∀ name args, (∀ node ∈ args, motive node) → motive (.call name args))
    (reference : ∀ name, motive (.reference name)) (node : Node) : motive node := by
  refine @Node.rec motive (fun nodes => ∀ node ∈ nodes, motive node) definition integer call
    reference ?_ ?_ node
  · simp
  · intro node nodes hnode hnodes other hother
    obtain rfl | hother := List.mem_cons.mp hother
    · exact hnode
    · exact hnodes other hother

namespace Grammar

theorem Separated.exists_item {α : Type} {Item : List Token → α → Prop} {ts : List Token}
    {xs : List α} (hs : Separated Item ts xs) : ∀ x ∈ xs, ∃ us, Item us x := by
  induction hs with
  | one hx =>
    intro x hm
    obtain rfl := List.mem_singleton.mp hm
    exact ⟨_, hx⟩
  | more hx hc hs ih =>
    intro x hm
    obtain rfl | hm := List.mem_cons.mp hm
    · exact ⟨_, hx⟩
    · exact ih x hm

theorem exists_separated {α : Type} {Item : List Token → α → Prop} {xs : List α}
    (h : ∀ x ∈ xs, ∃ ts, Item ts x) (hne : xs ≠ []) : ∃ ts, Separated Item ts xs := by
  induction xs with
  | nil => exact (hne rfl).elim
  | cons x xs ih =>
    obtain ⟨ts, hx⟩ := h x (by simp)
    by_cases hxs : xs = []
    · subst hxs
      exact ⟨ts, .one hx⟩
    · obtain ⟨us, hus⟩ := ih (fun y hy => h y (List.mem_cons_of_mem x hy)) hxs
      exact ⟨ts ++ .unplaced .comma "," :: us, .more hx rfl hus⟩

/-- The reader's trees hold no definition and only numerals that it has stripped itself. -/
theorem Expression.plain_normal {ts : List Token} {node : Node} (h : Expression ts node) :
    node.Plain ∧ node.Normal := by
  induction h using Expression.induction with
  | integer t ht =>
    refine ⟨trivial, fun digits hdigits => ?_⟩
    obtain rfl := List.mem_singleton.mp hdigits
    rw [String.toList_ofList]
    exact Text.isNormal_unpadded t.value.toList
  | reference t ht => exact ⟨trivial, by simp [Node.Normal, Node.numerals]⟩
  | emptyCall f o c hf ho hc =>
    exact ⟨trivial, by simp [Node.Normal, Node.numerals, Node.allNumerals]⟩
  | call f o c ts args hf ho hs hc ih =>
    rw [Node.plain_call_iff, Node.normal_call_iff]
    refine ⟨fun node hnode => ?_, fun node hnode => ?_⟩
    · obtain ⟨us, hus, hplain, _⟩ := ih.exists_item node hnode
      exact hplain
    · obtain ⟨us, hus, _, hnormal⟩ := ih.exists_item node hnode
      exact hnormal

theorem exists_expression (node : Node) (hplain : node.Plain) (hnormal : node.Normal) :
    ∃ ts, Expression ts node := by
  induction node using Node.induction with
  | definition name params body ih => exact hplain.elim
  | integer digits =>
    have hd := Expression.integer (t := .unplaced .integer digits) rfl
    have hkeep := Text.unpadded_of_isNormal (hnormal digits (by simp [Node.numerals]))
    simp only [Token.unplaced, hkeep, String.ofList_toList] at hd
    exact ⟨_, hd⟩
  | reference name => exact ⟨_, Expression.reference (t := .unplaced .identifier name) rfl⟩
  | call name args ih =>
    rw [Node.plain_call_iff] at hplain
    rw [Node.normal_call_iff] at hnormal
    -- any spelling of the call will do, but one without arguments has a rule of its own
    by_cases hne : args = []
    · subst hne
      exact ⟨_, Expression.emptyCall (f := .unplaced .identifier name)
        (o := .unplaced .openParen "(") (c := .unplaced .closeParen ")") rfl rfl rfl⟩
    · obtain ⟨ts, hs⟩ := exists_separated
        (fun arg harg => ih arg harg (hplain arg harg) (hnormal arg harg)) hne
      exact ⟨_, Expression.call (f := .unplaced .identifier name)
        (o := .unplaced .openParen "(") (c := .unplaced .closeParen ")") rfl rfl hs rfl⟩

theorem exists_params (params : List String) : ∃ ts, Params ts params := by
  by_cases hne : params = []
  · subst hne
    exact ⟨[], .none⟩
  · have hname (x : String) : ∃ ts, Name ts x :=
      ⟨_, Name.identifier (t := .unplaced .identifier x) rfl⟩
    obtain ⟨ts, hs⟩ := exists_separated (fun x _ => hname x) hne
    exact ⟨ts, .some hs⟩

/-- Without a limit on nesting, these are the trees that some tokens make. -/
theorem exists_definition_iff (d : DefLang.Definition) :
    (∃ ts, Definition ts d) ↔ d.body.Plain ∧ d.body.Normal := by
  constructor
  · rintro ⟨ts, h⟩
    obtain @⟨_, _, _, _, _, _, _, _, _, _, _, _, _, _, _, hb⟩ := h
    exact hb.plain_normal
  · rintro ⟨hplain, hnormal⟩
    obtain ⟨us, hp⟩ := exists_params d.params
    obtain ⟨vs, hb⟩ := exists_expression d.body hplain hnormal
    exact ⟨_, Definition.mk (d := .unplaced .defKeyword "def") (f := .unplaced .identifier d.name)
      (o := .unplaced .openParen "(") (c := .unplaced .closeParen ")") (l := .unplaced .colon ":")
      rfl rfl rfl hp rfl rfl hb⟩

end Grammar

theorem Definition.exists_script_iff (d : Definition) :
    (∃ text, d.script = .ok text) ↔ d.body.Plain ∧ d.body.levels ≤ nestingLimit := by
  simp [Definition.script_eq_ok_iff]

theorem Definition.exists_read_iff (d : Definition) :
    (∃ ts, Definition.read ts = .ok d) ↔ (∃ text, d.script = .ok text) ∧ d.body.Normal := by
  simp only [Definition.read_eq_ok_iff, exists_and_right, Grammar.exists_definition_iff,
    Definition.exists_script_iff]
  exact and_right_comm

theorem compile_ne_script_error (source : String) (e : ScriptError) :
    compile source ≠ .error (.script e) := by
  intro he
  obtain ⟨_, _, h⟩ | ⟨ts, _, ⟨_, _, h⟩ | ⟨d, hd, e', hscript, _⟩⟩ :=
    (compile_eq_error_iff_stages source _).mp he
  · cases h
  · cases h
  · obtain ⟨⟨text, htext⟩, _⟩ := d.exists_read_iff.mp ⟨ts, hd⟩
    rw [htext] at hscript
    cases hscript

/-- The reader and the generator count nesting alike: the trees that can be read are those that have
a script, but for integers that no reading leaves as they are. So a source that can be read has a
script. -/
theorem read_reaches_exactly_the_scripted_trees :
    (∀ d : Definition, (∃ ts, Definition.read ts = .ok d) ↔
      (∃ text, d.script = .ok text) ∧ ∀ digits ∈ d.body.numerals, Text.IsNormal digits.toList) ∧
    ∀ source e, compile source ≠ .error (.script e) :=
  ⟨Definition.exists_read_iff, compile_ne_script_error⟩

end DefLang
