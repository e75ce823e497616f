import ReversibleLogic.Compile.Lowering

/-!
# Computations that succeed

A computation that may fail succeeds exactly when its steps do. These statements take a successful run of a sequence apart into
the runs of its steps, for computations with and without a state.
-/

namespace ReversibleLogic

/-! ## Without a state -/

namespace Outcome

variable {ε α β : Type}

/-- A sequence of two steps succeeds when the first does and the second does on its result. -/
theorem bind_eq_ok {x : Except ε α} {f : α → Except ε β} {b : β} :
    (x >>= f) = .ok b ↔ ∃ a, x = .ok a ∧ f a = .ok b := by
  cases x with
  | ok a => simp [bind, Except.bind]
  | error e => simp [bind, Except.bind]

/-- A sequence of two steps fails when the first does, or when the second does on the result of the first. -/
theorem bind_eq_error {x : Except ε α} {f : α → Except ε β} {e : ε} :
    (x >>= f) = .error e ↔ x = .error e ∨ ∃ a, x = .ok a ∧ f a = .error e := by
  cases x with
  | ok a => simp [bind, Except.bind]
  | error e => simp [bind, Except.bind]

/-- A sequence goes on with the result of its first step. -/
theorem bind_of_eq_ok {x : Except ε α} {a : α} (h : x = .ok a) (f : α → Except ε β) : (x >>= f) = f a := by
  rw [h]
  rfl

theorem pure_eq_ok {a b : α} : (pure a : Except ε α) = .ok b ↔ a = b := by
  simp [pure, Except.pure]

theorem throw_eq_ok {e : ε} {b : α} : (throw e : Except ε α) = .ok b ↔ False := by
  simp [throw, throwThe, MonadExceptOf.throw]

/-- Naming the error otherwise does not change a success. -/
theorem mapError_eq_ok {ε' : Type} {x : Except ε α} {f : ε → ε'} {b : α} : x.mapError f = .ok b ↔ x = .ok b := by
  cases x with
  | ok a => exact ⟨fun h => congrArg Except.ok (Except.ok.inj h), fun h => congrArg Except.ok (Except.ok.inj h)⟩
  | error e => exact ⟨fun h => (nomatch h), fun h => (nomatch h)⟩

theorem toOption_eq_some {x : Except ε α} {b : α} : x.toOption = some b ↔ x = .ok b := by
  cases x with
  | ok a => exact ⟨fun h => congrArg Except.ok (Option.some.inj h), fun h => congrArg some (Except.ok.inj h)⟩
  | error e => exact ⟨fun h => (nomatch h), fun h => (nomatch h)⟩

theorem exists_of_isOk {x : Except ε α} (h : x.isOk = true) : ∃ a, x = .ok a := by
  cases x with
  | ok a => exact ⟨a, rfl⟩
  | error e => cases h

end Outcome

/-! ## Steps of a compilation -/

namespace Lowering

variable {α β : Type} {w w' : Workspace}

/-- A sequence of two steps succeeds when the first does and the second does from where the first ends. -/
theorem bind_eq_ok {m : Lowering α} {f : α → Lowering β} {r : β × Workspace} :
    (m >>= f) w = .ok r ↔ ∃ a w₁, m w = .ok (a, w₁) ∧ f a w₁ = .ok r := by
  change (m w >>= fun p => f p.1 p.2) = .ok r ↔ _
  rw [Outcome.bind_eq_ok]
  constructor
  · rintro ⟨⟨a, w₁⟩, h₁, h₂⟩
    exact ⟨a, w₁, h₁, h₂⟩
  · rintro ⟨a, w₁, h₁, h₂⟩
    exact ⟨(a, w₁), h₁, h₂⟩

/-- A sequence goes on from where its first step ends. -/
theorem bind_of_eq_ok {m : Lowering α} {a : α} (h : m w = .ok (a, w')) (f : α → Lowering β) : (m >>= f) w = f a w' := by
  change (m w >>= fun p => f p.1 p.2) = f a w'
  rw [h]
  rfl

theorem pure_eq_ok {a b : α} : (pure a : Lowering α) w = .ok (b, w') ↔ a = b ∧ w = w' := by
  change (Except.ok (a, w) : Except CompileError _) = .ok (b, w') ↔ _
  simp

/-- A step whose result is mapped runs as the step does. -/
theorem map_eq_ok {f : α → β} {m : Lowering α} {b : β} :
    (f <$> m) w = .ok (b, w') ↔ ∃ a, m w = .ok (a, w') ∧ f a = b := by
  change (m >>= fun a => pure (f a)) w = .ok (b, w') ↔ _
  rw [bind_eq_ok]
  constructor
  · rintro ⟨a, w₁, h₁, h₂⟩
    obtain ⟨rfl, rfl⟩ := pure_eq_ok.1 h₂
    exact ⟨a, h₁, rfl⟩
  · rintro ⟨a, h₁, rfl⟩
    exact ⟨a, w', h₁, rfl⟩

/-- Reading the workspace gives the workspace. -/
theorem get_bind {f : Workspace → Lowering β} : (get >>= f) w = f w w := rfl

/-- A change of the workspace always succeeds. -/
theorem modify_eq_ok {f : Workspace → Workspace} {u : Unit} :
    (modify f : Lowering Unit) w = .ok (u, w') ↔ f w = w' := by
  change (Except.ok ((), f w) : Except CompileError _) = .ok (u, w') ↔ _
  simp

theorem throw_eq_ok {e : CompileError} {r : α × Workspace} : (throw e : Lowering α) w = .ok r ↔ False := by
  change (Except.error e : Except CompileError _) = .ok r ↔ _
  simp

/-- An operation on the circuit changes nothing else. -/
theorem onCircuit_eq_ok {f : Circuit → Circuit × α} {a : α} :
    Workspace.onCircuit f w = .ok (a, w') ↔ (f w.circuit).2 = a ∧ { w with circuit := (f w.circuit).1 } = w' := by
  unfold Workspace.onCircuit
  simp

/-- A call on the circuit that may be refused succeeds when it is not, and leaves the rest of the workspace. -/
theorem emit_eq_ok {f : Circuit → Circuit × Except CircuitError Unit} {u : Unit} :
    Workspace.emit f w = .ok (u, w') ↔ ∃ c, f w.circuit = (c, .ok ()) ∧ { w with circuit := c } = w' := by
  unfold Workspace.emit
  obtain ⟨c, answer⟩ := f w.circuit
  cases answer with
  | ok _ => simp
  | error e => simp

end Lowering

end ReversibleLogic
