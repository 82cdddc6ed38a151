namespace DefLang

section
variable {ε ε' α β : Type}

theorem bind_eq_ok_iff (x : Except ε α) (f : α → Except ε β) (b : β) :
    x >>= f = .ok b ↔ ∃ a, x = .ok a ∧ f a = .ok b := by
  cases x <;> simp [bind, Except.bind]

theorem bind_eq_error_iff (x : Except ε α) (f : α → Except ε β) (e : ε) :
    x >>= f = .error e ↔ x = .error e ∨ ∃ a, x = .ok a ∧ f a = .error e := by
  cases x <;> simp [bind, Except.bind]

theorem mapError_eq_ok_iff (f : ε → ε') (x : Except ε α) (a : α) :
    x.mapError f = .ok a ↔ x = .ok a := by
  cases x with
  | error e => exact ⟨nofun, nofun⟩
  | ok b =>
    change Except.ok b = .ok a ↔ _
    simp

theorem mapError_eq_error_iff (f : ε → ε') (x : Except ε α) (e' : ε') :
    x.mapError f = .error e' ↔ ∃ e, x = .error e ∧ f e = e' := by
  cases x with
  | error e =>
    change Except.error (f e) = .error e' ↔ _
    simp
  | ok b => exact ⟨nofun, fun ⟨_, h, _⟩ => nomatch h⟩

end

/-- A computation on a state. An error keeps the state, and there is nothing at all where the
computation gets stuck. -/
abbrev Attempt (ε σ α : Type) := ExceptT ε (StateT σ Option) α

namespace Attempt
variable {ε σ α β : Type}

def stuck : Attempt ε σ α :=
  ExceptT.mk fun _ => none

/-- Changes the state by `enter`, and by `leave` when `x` has come back with or without an error. -/
def within (enter : σ → σ) (leave : σ → Option σ) (x : Attempt ε σ α) : Attempt ε σ α :=
  ExceptT.mk do
    modify enter
    let result ← x.run
    match leave (← get) with
    | none => fun _ => none
    | some s =>
      set s
      return result

/-- Started at `s`, `x` comes back with `result` and leaves `s'` behind. -/
def Ends (x : Attempt ε σ α) (s : σ) (result : Except ε α) (s' : σ) : Prop :=
  x.run.run s = some (result, s')

variable {x : Attempt ε σ α} {f : α → Attempt ε σ β} {s s' s'' : σ} {a : α} {e : ε}
  {result : Except ε α} {result' : Except ε β}

theorem Ends.bind_ok (hx : x.Ends s (.ok a) s') (hf : (f a).Ends s' result' s'') :
    (x >>= f).Ends s result' s'' := by
  rw [Ends, ExceptT.run_bind, StateT.run_bind, hx]
  exact hf

theorem Ends.bind_error (hx : x.Ends s (.error e) s') : (x >>= f).Ends s (.error e) s' := by
  rw [Ends, ExceptT.run_bind, StateT.run_bind, hx]
  rfl

theorem Ends.within {enter : σ → σ} {leave : σ → Option σ} (hx : x.Ends (enter s) result s')
    (hleave : leave s' = some s'') : (x.within enter leave).Ends s result s'' := by
  have hrun : x.run.run (enter s) = some (result, s') := hx
  simp [Ends, Attempt.within, hrun, hleave]

end Attempt

end DefLang
