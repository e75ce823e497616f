import ReversibleLogic.Compile.Assignments
import ReversibleLogic.Proofs.Lowering.Residue

/-!
# Driving scratch qubits back to 0

After an assignment the operations on the marked qubits are made once more, the newest first. If the operations since the last
time were orderly and the marked qubits were at 0 then, they are at 0 again and may be taken, and no other qubit has changed.
-/

namespace ReversibleLogic

namespace Memo

theorem mem_foldl_eraseQubit {l : List Qubit} {b : Expression × Qubit} : ∀ {m : Memo},
    b ∈ (l.foldl eraseQubit m).entries ↔ b ∈ m.entries ∧ b.2 ∉ l := by
  induction l with
  | nil => simp
  | cons q l ih =>
    intro m
    rw [List.foldl_cons, ih, mem_eraseQubit, List.mem_cons, not_or, and_assoc]

end Memo

namespace Circuit

/-- Operations that are made once more are appended. -/
theorem gates_replayAll (c : Circuit) (l : List LogEntry) : c.gates ⊆ (c.replayAll l).gates := by
  unfold replayAll
  generalize l.reverse = entries
  induction entries generalizing c with
  | nil => exact List.Subset.refl _
  | cons e entries ih => exact List.Subset.trans (List.subset_append_left _ _) (ih (c.replay e))

/-- Driving qubits back takes back no gate. -/
theorem gates_uncompute_nil (c : Circuit) : c.gates ⊆ (c.uncompute []).1.gates := by
  unfold uncompute
  dsimp only [List.foldl_nil]
  split
  · exact List.Subset.refl _
  · exact gates_replayAll { c with marked := .empty, computed := c.computed.filter fun e => !decide (e.target ∈ c.marked) } _

end Circuit

namespace Workspace

variable {ρ : Valuation} {s₀ s₁ : Bits} {x : Option Qubit} {w w' : Workspace} {E C : List LogEntry}

/-- Reclaiming drives the marked qubits back and forgets what they held. -/
theorem reclaim_eq_ok {u : Unit} (hrev : ∀ e ∈ w.circuit.computed, e.Reversible) (h : reclaim w = .ok (u, w')) :
    w' = { w with circuit := w.circuit.reclaimed, memo := w.circuit.marked.toList.foldl Memo.eraseQubit w.memo } := by
  obtain ⟨m, w₁, hu, hm⟩ := Lowering.bind_eq_ok.1 h
  obtain ⟨rfl, rfl⟩ := Lowering.onCircuit_eq_ok.1 hu
  rw [Circuit.uncompute_nil_eq fun e he => (hrev e he).reverse_eq] at hm
  exact (Lowering.modify_eq_ok.1 hm).symm

/-- Reclaiming leaves nothing behind. -/
theorem Supplied.reclaim {u : Unit} (hw : w.Stocked) (h : reclaim w = .ok (u, w')) : Supplied (fun _ => false) w w' := by
  obtain ⟨m, w₁, hu, hm⟩ := Lowering.bind_eq_ok.1 h
  obtain ⟨rfl, rfl⟩ := Lowering.onCircuit_eq_ok.1 hu
  obtain rfl := Lowering.modify_eq_ok.1 hm
  refine .same hw w.circuit.gates_uncompute_nil (fun b hb => ?_) fun v => by cases v <;> rfl
  exact (Memo.mem_foldl_eraseQubit.1 hb).1

/-- If the operations `E` since the values `s₁` were orderly, then reclaiming puts the marked qubits back to these values, and
leaves all others as they are. -/
theorem final_reclaimed (c : Circuit) (hE : ∀ e ∈ E, e.Reversible) (ho : Orderly E) (hc : c.computed = C ++ E)
    (hC : ∀ e ∈ C, e.target ∉ c.marked) (hfinal : c.final s₀ = actLog E s₁) (q : Qubit) :
    c.reclaimed.final s₀ q = if q ∈ c.marked then s₁ q else c.final s₀ q := by
  have hundo : (c.computed.filter fun e => decide (e.target ∈ c.marked)) =
      E.filter fun e => decide (e.target ∈ c.marked) := by
    rw [hc, List.filter_append, List.filter_eq_nil_iff.2 (by simpa using hC), List.nil_append]
  have hact : c.reclaimed.final s₀ =
      actLog (E.filter fun e => decide (e.target ∈ c.marked)).reverse (actLog E s₁) := by
    rw [← hfinal, ← hundo]
    exact actGates_append _ _ _
  rw [hact, actLog_rewind (M := fun p => decide (p ∈ c.marked)) hE (ho.rewindable _), hfinal]
  simp only [decide_eq_true_eq]

/-- Reclaiming leaves every claim true, if the marked qubits come to hold 0 by it and no other qubit changes. -/
theorem Sound.reclaim (h : Sound ρ s₀ x w)
    (hfinal : ∀ q, w.circuit.reclaimed.final s₀ q = if q ∈ w.circuit.marked then false else w.circuit.final s₀ q) :
    Sound ρ s₀ x
      { w with circuit := w.circuit.reclaimed, memo := w.circuit.marked.toList.foldl Memo.eraseQubit w.memo } := by
  have hkeep : ∀ q, q ∉ w.circuit.marked → w.circuit.reclaimed.final s₀ q = w.circuit.final s₀ q := fun q hq => by
    rw [hfinal, if_neg hq]
  have hbound : ∀ q ∈ w.circuit.bound, q ∉ w.circuit.marked := fun q hb hm => (h.marked_scratch q hm).2 hb
  refine ⟨h.ancilla_lt, h.bound_lt, ?_, by simp [Circuit.reclaimed], h.env_bound, ?_, ?_, h.env_total, ?_, ?_, ?_⟩
  · intro q hq
    refine ⟨?_, ?_, QubitSet.not_mem_empty q⟩
    · rcases QubitSet.mem_union.1 hq with hq | hq
      · exact (h.free_scratch q hq).1
      · exact (h.marked_scratch q hq).1
    · rcases QubitSet.mem_union.1 hq with hq | hq
      · exact (h.free_scratch q hq).2.1
      · exact (h.marked_scratch q hq).2
  · intro b hb
    obtain ⟨hb, hn⟩ := Memo.mem_foldl_eraseQubit.1 hb
    obtain ⟨hlt, hf⟩ := h.memo_inUse b hb
    exact ⟨hlt, fun hu => (QubitSet.mem_union.1 hu).elim hf hn⟩
  · intro v q hv
    obtain ⟨h1, h2, h3⟩ := h.const_value v q hv
    exact ⟨h1, h2, (hkeep q (hbound q h1)).trans h3⟩
  · intro s q hs hx
    exact (h.env_value s q hs hx).trans (congrArg some (hkeep q (hbound q (h.env_bound s q hs))).symm)
  · intro b hb hx
    obtain ⟨hb, hn⟩ := Memo.mem_foldl_eraseQubit.1 hb
    exact (h.memo_value b hb hx).trans (congrArg Except.ok (hkeep b.2 hn).symm)
  · intro q hq
    change w.circuit.reclaimed.final s₀ q = false
    rw [hfinal]
    split
    · rfl
    · next hm => exact h.zero q (hq.imp_left fun hu => (QubitSet.mem_union.1 hu).resolve_right hm)

end Workspace

end ReversibleLogic
