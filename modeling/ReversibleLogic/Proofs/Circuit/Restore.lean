import ReversibleLogic.Proofs.Circuit.Invariant

/-!
# Uncomputing everything but some qubits

`uncomputeAll` makes the operations of the history backwards, but for those on the qubits to keep. So the circuit is not simply
run backwards: while the other qubits go back through their past values, the kept qubits stay at their last one. An operation
that is made backwards still finds what it depends on if no kept qubit has changed since (`Circuit.Spares`).
-/

namespace ReversibleLogic.Circuit

variable {c : Circuit} {keep : List Qubit}

/-- No operation changes a kept qubit after an operation on a qubit outside of `keep` has read it. -/
def Spares (c : Circuit) (keep : List Qubit) : Prop :=
  c.history.Pairwise fun e f => e.target ∉ keep → f.target ∈ keep → f.target ∉ e.controls

instance (c : Circuit) (keep : List Qubit) : Decidable (c.Spares keep) := inferInstanceAs (Decidable (c.history.Pairwise _))

/-- Uncomputing everything but some qubits restores all others. Take any circuit that calls have built from gates of the NOT
family and barriers, and qubits to keep none of which is changed after an operation on another qubit has read it. Then, from all
values of the qubits, every qubit that is not kept ends with the value it started with, and every kept qubit with the value it had
before the call. -/
theorem uncomputeAll_restores (h : c.Built fun k => k.isBlackBox = false) (hkeep : c.Spares keep) (row : List Bool)
    (hrow : row.length = c.numQubits) :
    ∃ s s', c.simulate row = .ok s ∧ (c.uncomputeAll keep).1.simulate row = .ok s' ∧
      (∀ q, q ∉ keep → s'[q]? = row[q]?) ∧ ∀ q ∈ keep, s'[q]? = s[q]? := by
  have hc := h.consistent
  have hc' := hc.uncomputeAll keep
  have hnum : (c.uncomputeAll keep).1.numQubits = c.numQubits := by rw [uncomputeAll_eq hc.reverse_eq]; rfl
  obtain ⟨s, hs, hsize, hbits⟩ := simulate_eq (fun g hg => (hc.gates g hg).fits)
    (fun g hg => hc.isBlackBox_eq_false (fun _ hk => hk) (Or.inl hg)) (Nat.le_of_eq hrow)
  obtain ⟨s', hs', hsize', hbits'⟩ := simulate_eq (fun g hg => (hc'.gates g hg).fits)
    (fun g hg => hc'.isBlackBox_eq_false (fun _ hk => hk) (Or.inl hg)) (Nat.le_of_eq (hrow.trans hnum.symm))
  have hrev : ∀ e ∈ c.history, e.Reversible := fun e he => (hc.entries e he).1.reversible_of fun g hg =>
    hc.isBlackBox_eq_false (fun _ hk => hk) (Or.inr (List.mem_flatMap.2 ⟨e, he, hg⟩))
  have hfinal := final_uncomputeAll hrev (hc.action .idle (.ofRow row)) hkeep
  refine ⟨s, s', hs, hs', fun q hq => ?_, fun q hq => ?_⟩
  · by_cases hlt : q < row.length
    · have hstart : row[q]? = some (Bits.ofRow row q) := by simp [Bits.ofRow, hlt]
      rw [hstart, Register.getElem?_eq_some_bits (by rw [hsize', hnum, ← hrow]; exact hlt), hbits', hfinal, if_neg hq]
    · rw [List.getElem?_eq_none (Nat.not_lt.1 hlt),
        Array.getElem?_eq_none (by rw [hsize', hnum, ← hrow]; exact Nat.not_lt.1 hlt)]
  · exact Register.getElem?_congr (hsize'.trans (hnum.trans hsize.symm)) (by rw [hbits', hbits, hfinal, if_pos hq])

/-- Two qubits are added to a third one and a copy of it is taken, under flips; a scratch qubit has been uncomputed before. -/
def copied : Circuit :=
  [.takeAncilla, .append (.cx 0 4), .append (.ccx 1 4 2), .uncompute [4], .append (.cx 0 2),
    .appendConjugated 2 (.cx 2 3)].foldl Command.after (.ofSize "copied" 4)

/-- If the copy is kept, it stays and the third qubit goes back to its value. -/
theorem uncomputeAll_restores_copied : copied.Built (fun k => k.isBlackBox = false) ∧ copied.Spares [3] ∧
    ∃ s s', copied.simulate [true, false, false, false, true] = .ok s ∧ s[2]? = some true ∧
      (copied.uncomputeAll [3]).1.simulate [true, false, false, false, true] = .ok s' ∧ s'[2]? = some false ∧ s'[3]? = s[3]? := by
  have hbuilt : copied.Built fun k => k.isBlackBox = false := (Built.ofSize "copied" 4).calls (by decide)
  have hspares : copied.Spares [3] := by decide +kernel
  have hbit : ((copied.simulate [true, false, false, false, true]).toOption.bind fun s => s[2]?) = some true := by decide +kernel
  obtain ⟨s, s', hs, hs', hrestored, hkept⟩ := uncomputeAll_restores hbuilt hspares
    [true, false, false, false, true] (by decide +kernel)
  rw [hs] at hbit
  exact ⟨hbuilt, hspares, s, s', hs, hbit, hs', hrestored 2 (by decide), hkept 3 (by decide)⟩

end ReversibleLogic.Circuit
