import ReversibleLogic.Proofs.Circuit.Operations
import ReversibleLogic.Proofs.Value

/-!
# What a workspace knows

A workspace claims a great deal about the circuit it has built: that the qubit of a symbol holds the symbol's value, that the
qubit of a memo entry holds the value of its expression, that free scratch qubits hold 0. `Sound` collects these claims, for
given values of the symbols and of the qubits at the start.

While the value of a symbol is made on the symbol's own qubit, that qubit holds neither the old nor the new value. `Sound` takes
the qubit that is being overwritten as a parameter and claims nothing about what is noted for it.

Each elementary step of a compilation keeps the claims: appending an operation, taking and releasing scratch qubits, noting and
forgetting values, adding a qubit for a constant.
-/

namespace ReversibleLogic

namespace Memo

/-- What the memo gives is one of its entries. -/
theorem mem_of_get? {m : Memo} {e : Expression} {q : Qubit} (h : m.get? e = some q) : (e, q) ∈ m.entries := by
  obtain ⟨before, after, he, _⟩ := List.lookup_eq_some_iff.1 h
  rw [he]
  simp

theorem mem_insert {m : Memo} {e : Expression} {q : Qubit} {b : Expression × Qubit}
    (h : b ∈ (m.insert e q).entries) : b = (e, q) ∨ b ∈ m.entries := by
  simp only [insert, List.mem_cons, List.mem_filter] at h
  exact h.imp_right And.left

theorem mem_eraseQubit {m : Memo} {q : Qubit} {b : Expression × Qubit} :
    b ∈ (m.eraseQubit q).entries ↔ b ∈ m.entries ∧ b.2 ≠ q := by
  simp [eraseQubit]

theorem mem_eraseSymbol {m : Memo} {s : Symbol} {b : Expression × Qubit} :
    b ∈ (m.eraseSymbol s).entries ↔ b ∈ m.entries ∧ b.1.mentions s = false := by
  simp [eraseSymbol]

theorem mem_qubits {m : Memo} {q : Qubit} : q ∈ m.qubits ↔ ∃ e, (e, q) ∈ m.entries := by
  simp [qubits]

end Memo

namespace Workspace

/-- The qubit that holds the constant, once there is one. -/
def constQubit (w : Workspace) : Bool → Option Qubit
  | true => w.trueQubit
  | false => w.falseQubit

/-- The qubit is in the register and not free. -/
def InUse (w : Workspace) (q : Qubit) : Prop := q < w.circuit.numQubits ∧ q ∉ w.circuit.free

/-- The qubit is a scratch qubit without a name whose value nobody has given up. -/
def Loose (w : Workspace) (q : Qubit) : Prop :=
  q ∈ w.circuit.ancillas ∧ q ∉ w.circuit.bound ∧ q ∉ w.circuit.free ∧ q ∉ w.circuit.marked

/-- What the workspace says is true, when `ρ` gives the values of the symbols and the qubits start with the values `s₀`. Nothing
is claimed about what is noted for the qubit `x`. -/
structure Sound (ρ : Valuation) (s₀ : Bits) (x : Option Qubit) (w : Workspace) : Prop where
  /-- The register has the scratch qubits. -/
  ancilla_lt : ∀ q ∈ w.circuit.ancillas, q < w.circuit.numQubits
  /-- The register has the qubits with names. -/
  bound_lt : ∀ q ∈ w.circuit.bound, q < w.circuit.numQubits
  /-- Free qubits are scratch qubits without a name and without a mark. -/
  free_scratch : ∀ q ∈ w.circuit.free, q ∈ w.circuit.ancillas ∧ q ∉ w.circuit.bound ∧ q ∉ w.circuit.marked
  /-- Marked qubits are scratch qubits without a name. -/
  marked_scratch : ∀ q ∈ w.circuit.marked, q ∈ w.circuit.ancillas ∧ q ∉ w.circuit.bound
  /-- The qubit of a symbol has a name. -/
  env_bound : ∀ s q, w.env.get? s = some q → q ∈ w.circuit.bound
  /-- The qubit of a memo entry is in use. -/
  memo_inUse : ∀ b ∈ w.memo.entries, w.InUse b.2
  /-- The qubit of a constant has a name, is no scratch qubit, and holds the constant. -/
  const_value : ∀ v q, w.constQubit v = some q →
    q ∈ w.circuit.bound ∧ q ∉ w.circuit.ancillas ∧ w.circuit.final s₀ q = v
  /-- Every symbol with a value has a qubit. -/
  env_total : ∀ s, (ρ s).isSome = true → (w.env.get? s).isSome = true
  /-- The qubit of a symbol holds the symbol's value. -/
  env_value : ∀ s q, w.env.get? s = some q → x ≠ some q → ρ s = some (w.circuit.final s₀ q)
  /-- The qubit of a memo entry holds the value of its expression. -/
  memo_value : ∀ b ∈ w.memo.entries, x ≠ some b.2 → b.1.eval ρ = .ok (w.circuit.final s₀ b.2)
  /-- Free qubits, and those that the register does not have yet, hold 0. -/
  zero : ∀ q, q ∈ w.circuit.free ∨ w.circuit.numQubits ≤ q → w.circuit.final s₀ q = false

/-- Nothing is noted for the qubit, unless it is the one that is being overwritten. -/
structure Unnoted (x : Option Qubit) (w : Workspace) (q : Qubit) : Prop where
  /-- The qubit holds no constant. -/
  const : ∀ v, w.constQubit v ≠ some q
  /-- No symbol has the qubit. -/
  env : ∀ s, w.env.get? s = some q → x = some q
  /-- No memo entry has the qubit. -/
  memo : ∀ b ∈ w.memo.entries, b.2 = q → x = some q

/-- Notes do not depend on the circuit. -/
theorem Unnoted.onCircuit {x : Option Qubit} {w : Workspace} {q : Qubit} (h : Unnoted x w q) (c : Circuit) :
    Unnoted x { w with circuit := c } q :=
  ⟨h.const, h.env, h.memo⟩

namespace Sound

variable {ρ : Valuation} {s₀ : Bits} {x : Option Qubit} {w : Workspace}

/-- The qubit of a symbol is in use. -/
theorem env_inUse (h : Sound ρ s₀ x w) {s : Symbol} {q : Qubit} (hs : w.env.get? s = some q) : w.InUse q :=
  ⟨h.bound_lt q (h.env_bound s q hs), fun hf => (h.free_scratch q hf).2.1 (h.env_bound s q hs)⟩

/-- The qubit of a constant is in use. -/
theorem const_inUse (h : Sound ρ s₀ x w) {v : Bool} {q : Qubit} (hv : w.constQubit v = some q) : w.InUse q :=
  ⟨h.bound_lt q (h.const_value v q hv).1, fun hf => (h.free_scratch q hf).2.1 (h.const_value v q hv).1⟩

/-- Nothing is noted for a qubit that is not in use. -/
theorem unnoted_of_not_inUse (h : Sound ρ s₀ x w) {q : Qubit} (hq : ¬w.InUse q) : Unnoted x w q where
  const _ hv := hq (h.const_inUse hv)
  env _ hs := absurd (h.env_inUse hs) hq
  memo b hb he := absurd (he ▸ h.memo_inUse b hb) hq

/-! ### Elementary steps -/

/-- An operation on a qubit in use for which nothing is noted leaves every claim true. -/
theorem record (h : Sound ρ s₀ x w) {e : LogEntry} (he : e.Reversible) (hu : w.InUse e.target)
    (hn : Unnoted x w e.target) : Sound ρ s₀ x { w with circuit := w.circuit.record e } := by
  have hkeep : ∀ q, q ≠ e.target → (w.circuit.record e).final s₀ q = w.circuit.final s₀ q := fun q hq => by
    rw [Circuit.final_record he, Function.update_of_ne hq]
  refine ⟨h.ancilla_lt, h.bound_lt, h.free_scratch, h.marked_scratch, h.env_bound, h.memo_inUse, ?_, h.env_total, ?_, ?_, ?_⟩
  · intro v q hv
    have hne : q ≠ e.target := fun he => hn.const v (he ▸ hv)
    obtain ⟨h1, h2, h3⟩ := h.const_value v q hv
    exact ⟨h1, h2, (hkeep q hne).trans h3⟩
  · intro s q hs hx
    have hne : q ≠ e.target := fun he => hx (he ▸ hn.env s (he ▸ hs))
    exact (h.env_value s q hs hx).trans (congrArg some (hkeep q hne).symm)
  · intro b hb hx
    have hne : b.2 ≠ e.target := fun he => hx (he ▸ hn.memo b hb he)
    exact (h.memo_value b hb hx).trans (congrArg Except.ok (hkeep b.2 hne).symm)
  · intro q hq
    have hne : q ≠ e.target := by
      rintro rfl
      rcases hq with hq | hq
      · exact hu.2 hq
      · exact Nat.not_lt.2 hq hu.1
    exact (hkeep q hne).trans (h.zero q hq)

/-- Taking a scratch qubit leaves every claim true. -/
theorem take (h : Sound ρ s₀ x w) {c : Circuit} {q : Qubit} (ht : Circuit.Taken w.circuit c q) :
    Sound ρ s₀ x { w with circuit := c } := by
  obtain ⟨hg, -, -, -, hb, hm⟩ := ht.same
  have hfinal : c.final s₀ = w.circuit.final s₀ := by rw [Circuit.final, Circuit.final, hg]
  have hle : w.circuit.numQubits ≤ c.numQubits := by
    obtain ⟨L, hL⟩ := ht.labels
    simp [Circuit.numQubits, hL]
  have hlt : ∀ p, p < w.circuit.numQubits → p < c.numQubits := fun p hp => Nat.lt_of_lt_of_le hp hle
  refine ⟨?_, ?_, ?_, ?_, ?_, ?_, ?_, h.env_total, ?_, ?_, ?_⟩
  · intro p hp
    rcases (ht.ancillas p).1 hp with hp | rfl
    · exact hlt p (h.ancilla_lt p hp)
    · exact ht.lt
  · intro p hp
    exact hlt p (h.bound_lt p (hb ▸ hp))
  · intro p hp
    obtain ⟨h1, h2, h3⟩ := h.free_scratch p ((ht.free p).1 hp).1
    exact ⟨(ht.ancillas p).2 (Or.inl h1), hb ▸ h2, hm ▸ h3⟩
  · intro p hp
    obtain ⟨h1, h2⟩ := h.marked_scratch p (hm ▸ hp)
    exact ⟨(ht.ancillas p).2 (Or.inl h1), hb ▸ h2⟩
  · intro s p hs
    exact hb ▸ h.env_bound s p hs
  · intro b hb'
    obtain ⟨h1, h2⟩ := h.memo_inUse b hb'
    exact ⟨hlt b.2 h1, fun hf => h2 ((ht.free b.2).1 hf).1⟩
  · intro v p hv
    obtain ⟨h1, h2, h3⟩ := h.const_value v p hv
    refine ⟨hb ▸ h1, fun hp => ?_, hfinal ▸ h3⟩
    -- a constant's qubit has a name, so it was neither free nor new
    rcases (ht.ancillas p).1 hp with hp | rfl
    · exact h2 hp
    · rcases ht.source with hf | hf
      · exact (h.free_scratch p hf).2.1 h1
      · exact Nat.not_lt.2 hf (h.bound_lt p h1)
  · exact fun s p hs hx => hfinal ▸ h.env_value s p hs hx
  · exact fun b hb' hx => hfinal ▸ h.memo_value b hb' hx
  · intro p hp
    change c.final s₀ p = false
    rw [hfinal]
    refine h.zero p (hp.imp (fun hf => ((ht.free p).1 hf).1) fun hn => Nat.le_trans hle hn)

/-- Marking qubits in use, if they are scratch qubits without a name, leaves every claim true. -/
theorem mark (h : Sound ρ s₀ x w) {m : QubitSet}
    (hm : ∀ q ∈ m, q ∈ w.circuit.marked ∨ w.InUse q ∧ w.circuit.isDisposable q = true) :
    Sound ρ s₀ x { w with circuit := { w.circuit with marked := m } } := by
  refine ⟨h.ancilla_lt, h.bound_lt, ?_, ?_, h.env_bound, h.memo_inUse, h.const_value, h.env_total, h.env_value, h.memo_value,
    h.zero⟩
  · intro q hq
    obtain ⟨h1, h2, h3⟩ := h.free_scratch q hq
    refine ⟨h1, h2, fun hmem => ?_⟩
    rcases hm q hmem with hmem | ⟨hu, -⟩
    · exact h3 hmem
    · exact hu.2 hq
  · intro q hq
    rcases hm q hq with hq | ⟨-, hd⟩
    · exact h.marked_scratch q hq
    · simpa [Circuit.isDisposable] using hd

/-- A memo with no new entries leaves every claim true. -/
theorem shrinkMemo (h : Sound ρ s₀ x w) {m : Memo} (hm : ∀ b ∈ m.entries, b ∈ w.memo.entries) :
    Sound ρ s₀ x { w with memo := m } :=
  ⟨h.ancilla_lt, h.bound_lt, h.free_scratch, h.marked_scratch, h.env_bound, fun b hb => h.memo_inUse b (hm b hb),
    h.const_value, h.env_total, h.env_value, fun b hb => h.memo_value b (hm b hb), h.zero⟩

/-- A value may be noted for the qubit that holds it. -/
theorem note (h : Sound ρ s₀ x w) {e : Expression} {q : Qubit} (hu : w.InUse q)
    (hv : x ≠ some q → e.eval ρ = .ok (w.circuit.final s₀ q)) :
    Sound ρ s₀ x { w with memo := w.memo.insert e q } := by
  refine ⟨h.ancilla_lt, h.bound_lt, h.free_scratch, h.marked_scratch, h.env_bound, ?_, h.const_value, h.env_total,
    h.env_value, ?_, h.zero⟩
  · intro b hb
    rcases Memo.mem_insert hb with rfl | hb
    · exact hu
    · exact h.memo_inUse b hb
  · intro b hb hx
    rcases Memo.mem_insert hb with rfl | hb
    · exact hv hx
    · exact h.memo_value b hb hx

/-- A qubit may be added, with or without a name. -/
theorem addQubit (h : Sound ρ s₀ x w) (name : Option Symbol) :
    Sound ρ s₀ x { w with circuit := (w.circuit.addQubit name).1 } := by
  have hlt : ∀ p, p < w.circuit.numQubits → p < (w.circuit.addQubit name).1.numQubits := fun p hp => by
    rw [Circuit.numQubits_addQubit]
    exact Nat.lt_succ_of_lt hp
  have hbound : ∀ p, p ∈ (w.circuit.addQubit name).1.bound → p ∈ w.circuit.bound ∨ p = w.circuit.numQubits :=
    fun p hp => Circuit.mem_bound_addQubit hp
  have hfree : (w.circuit.addQubit name).1.free = w.circuit.free := by cases name <;> rfl
  have hanc : (w.circuit.addQubit name).1.ancillas = w.circuit.ancillas := by cases name <;> rfl
  have hmark : (w.circuit.addQubit name).1.marked = w.circuit.marked := by cases name <;> rfl
  have hfinal : (w.circuit.addQubit name).1.final s₀ = w.circuit.final s₀ := by cases name <;> rfl
  have hmono : ∀ p ∈ w.circuit.bound, p ∈ (w.circuit.addQubit name).1.bound := fun p hp =>
    Circuit.bound_subset_addQubit hp
  -- a scratch qubit is not the new one, so it gets no name
  have hstay : ∀ p ∈ w.circuit.ancillas, p ∉ w.circuit.bound → p ∉ (w.circuit.addQubit name).1.bound := by
    intro p hp hnb hb
    rcases hbound p hb with hb | rfl
    · exact hnb hb
    · exact Nat.lt_irrefl _ (h.ancilla_lt _ hp)
  refine ⟨?_, ?_, ?_, ?_, ?_, ?_, ?_, h.env_total, ?_, ?_, ?_⟩
  · intro p hp
    exact hlt p (h.ancilla_lt p (hanc ▸ hp))
  · intro p hp
    rcases hbound p hp with hp | rfl
    · exact hlt p (h.bound_lt p hp)
    · exact Circuit.numQubits_addQubit w.circuit name ▸ Nat.lt_succ_self _
  · intro p hp
    obtain ⟨h1, h2, h3⟩ := h.free_scratch p (hfree ▸ hp)
    exact ⟨hanc ▸ h1, hstay p h1 h2, hmark ▸ h3⟩
  · intro p hp
    obtain ⟨h1, h2⟩ := h.marked_scratch p (hmark ▸ hp)
    exact ⟨hanc ▸ h1, hstay p h1 h2⟩
  · exact fun s p hs => hmono p (h.env_bound s p hs)
  · intro b hb
    obtain ⟨h1, h2⟩ := h.memo_inUse b hb
    exact ⟨hlt b.2 h1, hfree ▸ h2⟩
  · intro v p hv
    obtain ⟨h1, h2, h3⟩ := h.const_value v p hv
    exact ⟨hmono p h1, hanc ▸ h2, hfinal ▸ h3⟩
  · exact fun s p hs hx => hfinal ▸ h.env_value s p hs hx
  · exact fun b hb hx => hfinal ▸ h.memo_value b hb hx
  · intro p hp
    change (w.circuit.addQubit name).1.final s₀ p = false
    rw [hfinal]
    refine h.zero p (hp.imp (fun hf => hfree ▸ hf) fun hn => ?_)
    rw [Circuit.numQubits_addQubit] at hn
    exact Nat.le_of_succ_le hn

end Sound

end Workspace

end ReversibleLogic
