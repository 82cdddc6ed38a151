import DefLang.Proofs.Attempt
import DefLang.Script

namespace DefLang.Writing

/-- The text written so far, and how many expressions the writer is inside of. -/
structure Writer where
  out : String
  depth : Nat
  deriving DecidableEq, Repr

namespace Writer

def start : Writer :=
  { out := "", depth := 0 }

def enter (w : Writer) : Writer :=
  { w with depth := w.depth + 1 }

/-- There is no level to leave outside of all expressions. -/
def leave? (w : Writer) : Option Writer :=
  match w.depth with
  | 0 => none
  | depth + 1 => some { w with depth }

end Writer

/-- An error leaves behind what was written before it. -/
abbrev Run (α : Type) := Attempt ScriptError Writer α

def put (text : String) : Run Unit :=
  modify fun w => { w with out := w.out ++ text }

def leveled (x : Run Unit) : Run Unit := do
  if (← get).depth = nestingLimit then throw (.tooDeep nestingLimit)
  else x.within Writer.enter Writer.leave?

/-- What comes in front of the argument with this index. -/
def separator (index : Nat) : Run Unit :=
  if 0 < index then put "," else return ()

mutual

def visit : Node → Run Unit
  | .integer digits => leveled (put digits)
  | .reference name => leveled (put name)
  | .call name args => leveled do
    put name
    put "("
    visitArgs 0 args
    put ")"
  | .definition name params body =>
    leveled (throw (.unexpectedNode (Node.definition name params body).kindName "an expression"))
termination_by structural node => node

/-- The arguments of a call, of which the first has this index. -/
def visitArgs : Nat → List Node → Run Unit
  | _, [] => return ()
  | index, arg :: args => do
    separator index
    visit arg
    visitArgs (index + 1) args
termination_by structural _ args => args

end

def visitDefinition (d : Definition) : Run Unit := do
  put "function "
  put d.name
  put "("
  put (",".intercalate d.params)
  put ") \x7breturn "
  visit d.body
  put "\x7d;"

/-- What `x` has written from the start, if it comes back without an error. -/
def written (x : Run Unit) : Option (Except ScriptError String) := do
  let (result, w) ← x.run.run .start
  return result.map fun _ => w.out

def script : Node → Option (Except ScriptError String)
  | .definition name params body => written (visitDefinition { name, params, body })
  | node => some (.error (.unexpectedNode node.kindName "def"))

/-- Started at `w`, `x` comes back to the level of `w`. It has written `text` after all that was
there, or with an error some part of it. -/
def Writes (x : Run Unit) (w : Writer) : Except ScriptError String → Prop
  | .ok text => x.Ends w (.ok ()) { w with out := w.out ++ text }
  | .error e => ∃ part, x.Ends w (.error e) { w with out := w.out ++ part }

section
variable {x y : Run Unit} {w : Writer} {a b : Except ScriptError String}

theorem writes_nothing (w : Writer) : Writes (pure ()) w (.ok "") := by
  simp only [Writes, String.append_empty]
  rfl

theorem writes_put (text : String) (w : Writer) : Writes (put text) w (.ok text) :=
  rfl

theorem writes_throw (e : ScriptError) (w : Writer) : Writes (throw e) w (.error e) :=
  ⟨"", by rw [String.append_empty]; rfl⟩

theorem Writes.seq (hx : Writes x w a) (hy : ∀ out, Writes y { w with out } b) :
    Writes (do x; y) w (do let s ← a; let t ← b; return s ++ t) := by
  cases a with
  | error e =>
    obtain ⟨part, hx⟩ := hx
    exact ⟨part, hx.bind_error⟩
  | ok s =>
    have hy := hy (w.out ++ s)
    cases b with
    | error e =>
      obtain ⟨part, hy⟩ := hy
      refine ⟨s ++ part, ?_⟩
      rw [← String.append_assoc]
      exact hx.bind_ok hy
    | ok t =>
      have hends := Attempt.Ends.bind_ok (f := fun _ => y) hx hy
      rw [String.append_assoc] at hends
      exact hends

theorem Writes.leveled (hlt : w.depth < nestingLimit) (hx : Writes x w.enter a) :
    Writes (leveled x) w a := by
  have hends : ∀ result out, x.Ends w.enter result { w.enter with out } →
      (Writing.leveled x).Ends w result { w with out } := by
    intro result out hx
    refine Attempt.Ends.bind_ok (a := w) rfl ?_
    rw [if_neg (Nat.ne_of_lt hlt)]
    exact hx.within rfl
  cases a with
  | error e =>
    obtain ⟨part, hx⟩ := hx
    exact ⟨part, hends _ _ hx⟩
  | ok text => exact hends _ _ hx

theorem Writes.written_eq (hx : Writes x .start a) : written x = some a := by
  cases a with
  | error e =>
    obtain ⟨part, hx⟩ := hx
    have hrun : x.run.run .start = _ := hx
    rw [written, hrun]
    rfl
  | ok text =>
    have hrun : x.run.run .start = _ := hx
    rw [written, hrun, Writer.start, String.empty_append]
    rfl

theorem writes_tooDeep (x : Run Unit) (h : w.depth = nestingLimit) :
    Writes (leveled x) w (.error (.tooDeep nestingLimit)) := by
  refine ⟨"", Attempt.Ends.bind_ok (a := w) rfl ?_⟩
  rw [if_pos h, String.append_empty]
  rfl

end

/-- What stands in front of an argument. -/
def mark (index : Nat) : String :=
  if 0 < index then "," else ""

/-- Arguments of which the first has this index, with what stands in front of each. -/
def joined (index : Nat) : List String → String
  | [] => ""
  | text :: texts => mark index ++ (text ++ joined (index + 1) texts)

theorem joined_zero (texts : List String) : joined 0 texts = ",".intercalate texts := by
  have hlater : ∀ (texts : List String) (index : Nat) (text : String),
      text ++ joined (index + 1) texts = ",".intercalate (text :: texts) := by
    intro texts
    induction texts with
    | nil => simp [joined]
    | cons next texts ih =>
      intro index text
      rw [joined, ih (index + 1) next, String.intercalate_cons_cons]
      simp [mark, String.append_assoc]
  cases texts with
  | nil => rfl
  | cons text texts =>
    rw [joined, hlater]
    exact String.empty_append

theorem writes_separator (index : Nat) (w : Writer) :
    Writes (separator index) w (.ok (mark index)) := by
  unfold separator mark
  split
  next => exact writes_put "," w
  next => exact writes_nothing w

mutual

theorem writes_visit (node : Node) (w : Writer) (hw : w.depth ≤ nestingLimit) :
    Writes (visit node) w (node.expression (nestingLimit - w.depth)) := by
  cases hl : nestingLimit - w.depth with
  | zero =>
    have hfull : w.depth = nestingLimit := by omega
    cases node <;> exact writes_tooDeep _ hfull
  | succ levels =>
    have hlt : w.depth < nestingLimit := by omega
    cases node with
    | integer digits => exact (writes_put digits _).leveled hlt
    | reference name => exact (writes_put name _).leveled hlt
    | definition name params body => exact (writes_throw _ _).leveled hlt
    | call name args =>
      have hlevels : nestingLimit - (w.depth + 1) = levels := by omega
      have hargs : ∀ out, Writes (visitArgs 0 args) { w.enter with out }
          ((Node.expressions levels args).map (joined 0)) :=
        fun out => hlevels ▸ writes_visitArgs args 0 { w.enter with out } hlt
      have hcall := Writes.leveled hlt ((writes_put name _).seq fun _ => (writes_put "(" _).seq
        fun out => (hargs out).seq fun _ => writes_put ")" _)
      rw [visit, Node.expression]
      cases h : Node.expressions levels args with
      | error e =>
        rw [h] at hcall
        exact hcall
      | ok texts =>
        rw [h] at hcall
        change Writes _ w (.ok (name ++ "(" ++ ",".intercalate texts ++ ")"))
        rw [← joined_zero, String.append_assoc, String.append_assoc]
        exact hcall
termination_by structural node

/-- What one argument writes, all of them write one after the other. -/
theorem writes_visitArgs (args : List Node) (index : Nat) (w : Writer)
    (hw : w.depth ≤ nestingLimit) :
    Writes (visitArgs index args) w
      ((Node.expressions (nestingLimit - w.depth) args).map (joined index)) := by
  cases args with
  | nil => exact writes_nothing w
  | cons arg args =>
    have harg : ∀ out, Writes (visit arg) { w with out }
        (arg.expression (nestingLimit - w.depth)) :=
      fun out => writes_visit arg { w with out } hw
    have hargs : ∀ out, Writes (visitArgs (index + 1) args) { w with out }
        ((Node.expressions (nestingLimit - w.depth) args).map (joined (index + 1))) :=
      fun out => writes_visitArgs args (index + 1) { w with out } hw
    have hall := (writes_separator index w).seq fun out => (harg out).seq hargs
    rw [visitArgs, Node.expressions]
    cases hfirst : arg.expression (nestingLimit - w.depth) with
    | error e =>
      rw [hfirst] at hall
      exact hall
    | ok text =>
      rw [hfirst] at hall
      cases hlater : Node.expressions (nestingLimit - w.depth) args with
      | error e =>
        rw [hlater] at hall
        exact hall
      | ok texts =>
        rw [hlater] at hall
        exact hall
termination_by structural args

end

theorem writes_visitDefinition (d : Definition) : Writes (visitDefinition d) .start d.script := by
  have hbody : ∀ out, Writes (visit d.body) { Writer.start with out }
      (d.body.expression nestingLimit) :=
    fun out => writes_visit d.body { Writer.start with out } (Nat.zero_le nestingLimit)
  have hall := (writes_put "function " .start).seq fun _ => (writes_put d.name _).seq
    fun _ => (writes_put "(" _).seq fun _ => (writes_put (",".intercalate d.params) _).seq
    fun _ => (writes_put ") \x7breturn " _).seq fun out => (hbody out).seq
    fun _ => writes_put "\x7d;" _
  rw [visitDefinition, Definition.script]
  cases h : d.body.expression nestingLimit with
  | error e =>
    rw [h] at hall
    exact hall
  | ok body =>
    rw [h] at hall
    change Writes _ _ (.ok ("function " ++ d.name ++ "(" ++ ",".intercalate d.params ++
      ") \x7breturn " ++ body ++ "\x7d;"))
    simp only [String.append_assoc]
    exact hall

/-- The writer never gets stuck, and leaves the script behind. -/
theorem written_visitDefinition (d : Definition) : written (visitDefinition d) = some d.script :=
  (writes_visitDefinition d).written_eq

theorem script_eq (node : Node) : script node = some node.script := by
  cases node with
  | definition name params body => exact written_visitDefinition { name, params, body }
  | integer | call | reference => rfl

end DefLang.Writing
