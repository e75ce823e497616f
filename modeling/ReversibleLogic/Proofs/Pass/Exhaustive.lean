import ReversibleLogic.Proofs.Pass.Verification

/-!
# The verification is exhaustive

A truth table goes through the values of its inputs as a verification does, but numbers its rows with the bits in the opposite
order. Each of the two meets all values: the rows of a table are all bits that the inputs can have, with what they lead to
(`Circuit.truthTable_eq_ok`). So a circuit passes the verification exactly when no state with 0 off the inputs shows garbage in a
simulation, and exactly when no row of the table over all qubits does (`Pass.verification_exhaustive`).
-/

namespace ReversibleLogic

variable {c : Circuit} {inputs outputs : List Qubit}

/-! ## Truth tables -/

/-- A list is mapped without an error if every element is. -/
theorem mapM_eq_ok {ε α β : Type} {f : α → Except ε β} {g : α → β} {l : List α} (h : ∀ a ∈ l, f a = .ok (g a)) :
    l.mapM f = .ok (l.map g) := by
  induction l with
  | nil => rfl
  | cons a l ih =>
    rw [List.mapM_cons, h a List.mem_cons_self, ih fun b hb => h b (List.mem_cons_of_mem a hb)]
    rfl

namespace Circuit

/-- The bits of a row of a table stand in the opposite order. -/
theorem rowBits_eq_reverse (k row : Nat) : rowBits k row = ((List.range k).map row.testBit).reverse := by
  refine List.ext_getElem (by simp [rowBits]) fun i _ _ => ?_
  simp [rowBits]

theorem length_rowBits (k row : Nat) : (rowBits k row).length = k := by simp [rowBits]

/-- Any bits are those of a row of a table. -/
theorem exists_rowBits_eq (bits : List Bool) : ∃ row, row < Nat.pow 2 bits.length ∧ rowBits bits.length row = bits := by
  obtain ⟨row, hlt, hrow⟩ := exists_row_eq bits.reverse
  rw [List.length_reverse] at hlt hrow
  exact ⟨row, hlt, by rw [rowBits_eq_reverse, hrow, List.reverse_reverse]⟩

/-- Qubits of the register pass the check. -/
theorem checkAllRange_eq_ok {qs : List Qubit} (h : ∀ q ∈ qs, q < c.numQubits) : c.checkAllRange qs = .ok () := by
  induction qs with
  | nil => rfl
  | cons q qs ih =>
    exact Outcome.bind_eq_ok.2 ⟨(), checkRange_eq_ok_iff.2 (h q List.mem_cons_self),
      ih fun p hp => h p (List.mem_cons_of_mem q hp)⟩

/-- A circuit without black boxes whose gates fit its register has a truth table. Its rows are all bits for the inputs, with the
values that the gates lead to from them. -/
theorem truthTable_eq_ok (hfit : ∀ g ∈ c.gates, g.Fits c.numQubits) (hbox : ∀ g ∈ c.gates, g.kind.isBlackBox = false)
    (hinputs : ∀ q ∈ inputs, q < c.numQubits) (houtputs : ∀ q ∈ outputs, q < c.numQubits)
    (hlen : inputs.length ≤ maxTableInputs) :
    ∃ table, c.truthTable inputs outputs = .ok table ∧ ∀ r, r ∈ table ↔
      r.1.length = inputs.length ∧ r.2 = outputs.map (c.final (.ofValues (inputs.zip r.1))) := by
  have hrow : ∀ row, c.tableRow inputs outputs row = .ok (rowBits inputs.length row,
      outputs.map (c.final (.ofValues (inputs.zip (rowBits inputs.length row))))) := by
    intro row
    obtain ⟨s, hs, -, hbits⟩ := simulateWith_zip_eq hfit hbox hinputs (rowBits inputs.length row)
    refine Outcome.bind_eq_ok.2 ⟨s, hs, Outcome.pure_eq_ok.2 ?_⟩
    rw [← hbits]
    exact congrArg _ (List.map_congr_left fun q _ => Array.getD_eq_getD_getElem?)
  refine ⟨(List.range (Nat.pow 2 inputs.length)).map fun row => (rowBits inputs.length row,
      outputs.map (c.final (.ofValues (inputs.zip (rowBits inputs.length row))))), ?_, fun r => ?_⟩
  · refine Outcome.bind_eq_ok.2 ⟨(), checkAllRange_eq_ok houtputs, ?_⟩
    rw [if_neg (Nat.not_lt.2 hlen)]
    exact mapM_eq_ok fun row _ => hrow row
  · rw [List.mem_map]
    refine ⟨?_, fun ⟨hr, hvalues⟩ => ?_⟩
    · rintro ⟨row, -, rfl⟩
      exact ⟨length_rowBits _ row, rfl⟩
    · obtain ⟨row, hlt, hbits⟩ := exists_rowBits_eq r.1
      rw [hr] at hlt hbits
      refine ⟨row, List.mem_range.2 hlt, ?_⟩
      rw [hbits, ← hvalues]

end Circuit

/-! ## Garbage in states and in tables -/

theorem Bits.ofRow_eq_true_iff {row : List Bool} {q : Qubit} : ofRow row q = true ↔ row[q]? = some true := by
  rw [ofRow]
  cases row[q]? <;> simp

/-- What is known of all values that are 0 off the inputs is known of all bits for the inputs. -/
theorem forall_zero_off_iff (hnodup : inputs.Nodup) {P : Bits → Prop} :
    (∀ b : Bits, (∀ q, q ∉ inputs → b q = false) → P b) ↔
      ∀ bits : List Bool, bits.length = inputs.length → P (.ofValues (inputs.zip bits)) := by
  refine ⟨fun h bits _ => h _ fun q hq => Bits.ofValues_zip_of_not_mem hq, fun h b hzero => ?_⟩
  rw [Bits.eq_ofValues_zip hnodup hzero]
  exact h _ (List.length_map b)

namespace Circuit.LeavesClean

/-- No garbage, in terms of final values that are read off somewhere. -/
theorem iff_read (hinputs : ∀ q ∈ inputs, q < c.numQubits) {b : Bits} {read : Qubit → Option Bool}
    (hread : ∀ q, q < c.numQubits → read q = some (c.final b q)) : c.LeavesClean inputs outputs b ↔
      (∀ q ∈ inputs, q ∉ outputs → read q = some (b q)) ∧
      ∀ q, q < c.numQubits → q ∉ inputs → q ∉ outputs → read q = some false := by
  refine and_congr (forall₃_congr fun q hq _ => ?_) (forall₄_congr fun q hq _ _ => ?_)
  · rw [hread q (hinputs q hq), Option.some_inj]
  · rw [hread q hq, Option.some_inj]

/-- No garbage, in a row of a table over all qubits. -/
theorem iff_table (hnodup : inputs.Nodup) (hinputs : ∀ q ∈ inputs, q < c.numQubits) {bits : List Bool}
    (hlen : bits.length = inputs.length) : c.LeavesClean inputs outputs (.ofValues (inputs.zip bits)) ↔
      (∀ (i : Nat) (q : Qubit), inputs[i]? = some q → q ∉ outputs →
        ((List.range c.numQubits).map (c.final (.ofValues (inputs.zip bits))))[q]? = bits[i]?) ∧
      ∀ q, q < c.numQubits → q ∉ inputs → q ∉ outputs →
        ((List.range c.numQubits).map (c.final (.ofValues (inputs.zip bits))))[q]? = some false := by
  have hread : ∀ q, q < c.numQubits → ((List.range c.numQubits).map (c.final (.ofValues (inputs.zip bits))))[q]? =
      some (c.final (.ofValues (inputs.zip bits)) q) := fun q hq => by simp [hq]
  refine (iff_read hinputs hread).trans (and_congr_left fun _ => ⟨fun h i q hi hout => ?_, fun h q hq hout => ?_⟩)
  · rw [h q (List.mem_of_getElem? hi) hout, Bits.getElem?_eq_ofValues_zip hnodup hlen hi]
  · obtain ⟨i, hi⟩ := List.mem_iff_getElem?.1 hq
    rw [h i q hi hout, Bits.getElem?_eq_ofValues_zip hnodup hlen hi]

/-- No garbage, in a simulation from a full state. -/
theorem iff_simulate (hfit : ∀ g ∈ c.gates, g.Fits c.numQubits) (hbox : ∀ g ∈ c.gates, g.kind.isBlackBox = false)
    (hinputs : ∀ q ∈ inputs, q < c.numQubits) {row : List Bool} (hrow : row.length = c.numQubits) :
    c.LeavesClean inputs outputs (.ofRow row) ↔ ∃ s, c.simulate row = .ok s ∧
      (∀ q ∈ inputs, q ∉ outputs → s[q]? = row[q]?) ∧
      ∀ q, q < c.numQubits → q ∉ inputs → q ∉ outputs → s[q]? = some false := by
  obtain ⟨s, hs, hsize, hbits⟩ := simulate_eq hfit hbox (Nat.le_of_eq hrow)
  have hread : ∀ q, q < c.numQubits → s[q]? = some (c.final (.ofRow row) q) := fun q hq => by
    rw [Register.getElem?_eq_some_bits (hsize ▸ hq), hbits]
  have hstart : ∀ q ∈ inputs, row[q]? = some (Bits.ofRow row q) := fun q hq => by
    simp [Bits.ofRow, hrow, hinputs q hq]
  refine (iff_read hinputs hread).trans ⟨fun h => ⟨s, hs, fun q hq hout => ?_, h.2⟩, fun h => ?_⟩
  · rw [h.1 q hq hout, hstart q hq]
  · obtain ⟨t, ht, hkept, hclean⟩ := h
    obtain rfl := Except.ok.inj (hs.symm.trans ht)
    exact ⟨fun q hq hout => (hkept q hq hout).trans (hstart q hq), hclean⟩

end Circuit.LeavesClean

/-! ## The verification -/

/-- A row that can be run either passes or fails the verification. -/
theorem verifyRows_cases (hrun : ∀ row, ∃ s, c.simulateWith (inputValues inputs row) = .ok s) {n : Nat} :
    ∀ {row : Nat}, verifyRows c inputs outputs row n = .ok () ∨
      ∃ reason, verifyRows c inputs outputs row n = .error (.passFailed "uncompute_verification" reason) := by
  induction n with
  | zero => exact Or.inl rfl
  | succ n ih =>
    intro row
    obtain ⟨s, hs⟩ := hrun row
    rw [verifyRows, Outcome.bind_of_eq_ok (Outcome.mapError_eq_ok.2 hs)]
    cases hrow : rowProblem inputs outputs row s with
    | none => exact ih
    | some reason => exact Or.inr ⟨reason, rfl⟩

namespace Pass

/-- The pass accepts exactly where the check does, with the smaller of the two limits. -/
theorem run_verification_eq_ok_iff {maxInputs : Nat} : (verification inputs outputs maxInputs).run c = .ok c ↔
    verifyUncomputed c inputs outputs (min maxInputs inputLimit) = .ok () := by
  refine ⟨fun h => ?_, fun h => Outcome.bind_eq_ok.2 ⟨(), h, rfl⟩⟩
  obtain ⟨_, hverify, -⟩ := Outcome.bind_eq_ok.1 h
  exact hverify

/-- The verification is sound and complete. On a circuit of valid gates without black boxes, for distinct inputs in the register
and no more of them than the limit allows, it returns the circuit or fails as a verification. It returns it exactly if, from
every full state with 0 off the inputs, the circuit leaves each input that is no output at its bit and each qubit that is neither
at 0; and exactly if every row of the truth table over all qubits shows that. -/
theorem verification_exhaustive {maxInputs : Nat} (hvalid : ∀ g ∈ c.gates, c.validate g = .ok ())
    (hbox : ∀ g ∈ c.gates, g.kind.isBlackBox = false) (hnodup : inputs.Nodup) (hinputs : ∀ q ∈ inputs, q < c.numQubits)
    (hlimit : inputs.length ≤ min maxInputs inputLimit) :
    ((verification inputs outputs maxInputs).run c = .ok c ∨ ∃ reason,
      (verification inputs outputs maxInputs).run c = .error (.passFailed "uncompute_verification" reason)) ∧
    ((verification inputs outputs maxInputs).run c = .ok c ↔
      ∀ row : List Bool, row.length = c.numQubits → (∀ q : Qubit, row[q]? = some true → q ∈ inputs) →
        ∃ s, c.simulate row = .ok s ∧ (∀ q ∈ inputs, q ∉ outputs → s[q]? = row[q]?) ∧
          ∀ q, q < c.numQubits → q ∉ inputs → q ∉ outputs → s[q]? = some false) ∧
    ∃ table, c.truthTable inputs (List.range c.numQubits) = .ok table ∧
      ((verification inputs outputs maxInputs).run c = .ok c ↔
        ∀ r ∈ table, (∀ (i : Nat) (q : Qubit), inputs[i]? = some q → q ∉ outputs → r.2[q]? = r.1[i]?) ∧
          ∀ q, q < c.numQubits → q ∉ inputs → q ∉ outputs → r.2[q]? = some false) := by
  have hfit : ∀ g ∈ c.gates, g.Fits c.numQubits := fun g hg => Circuit.validate_eq_ok_iff.1 (hvalid g hg)
  have hverify : (verification inputs outputs maxInputs).run c = .ok c ↔
      ∀ b : Bits, (∀ q, q ∉ inputs → b q = false) → c.LeavesClean inputs outputs b :=
    run_verification_eq_ok_iff.trans (verifyUncomputed_eq_ok_iff hfit hbox hnodup hinputs hlimit)
  refine ⟨?_, ?_, ?_⟩
  · have hrun : ∀ row, ∃ s, c.simulateWith (inputValues inputs row) = .ok s := fun row => by
      obtain ⟨s, hs, -⟩ := simulateWith_zip_eq hfit hbox hinputs ((List.range inputs.length).map row.testBit)
      exact ⟨s, inputValues_eq_zip inputs row ▸ hs⟩
    rw [verification, run, verifyUncomputed, if_neg (Nat.not_lt.2 hlimit)]
    rcases verifyRows_cases hrun with h | ⟨reason, h⟩
    · exact Or.inl (by rw [h]; rfl)
    · exact Or.inr ⟨reason, by rw [h]; rfl⟩
  · refine hverify.trans ⟨fun h row hrow hzero => ?_, fun h b hzero => ?_⟩
    · refine (Circuit.LeavesClean.iff_simulate hfit hbox hinputs hrow).1 (h _ fun q hq => ?_)
      cases hbit : Bits.ofRow row q with
      | false => rfl
      | true => exact absurd (hzero q (Bits.ofRow_eq_true_iff.1 hbit)) hq
    · obtain ⟨row, hrow, rfl⟩ := Bits.exists_ofRow fun q hq => hzero q fun hmem => Nat.not_lt.2 hq (hinputs q hmem)
      refine (Circuit.LeavesClean.iff_simulate hfit hbox hinputs hrow).2 (h row hrow fun q hq => ?_)
      by_contra hmem
      exact absurd (Bits.ofRow_eq_true_iff.2 hq) (Bool.eq_false_iff.1 (hzero q hmem))
  · obtain ⟨table, htable, hrows⟩ := Circuit.truthTable_eq_ok hfit hbox hinputs (fun q hq => List.mem_range.1 hq)
      (Nat.le_trans hlimit (Nat.le_trans (Nat.min_le_right _ _) (by decide)))
    refine ⟨table, htable, (hverify.trans (forall_zero_off_iff hnodup)).trans ⟨fun h r hr => ?_, fun h bits hlen => ?_⟩⟩
    · obtain ⟨hlen, hvalues⟩ := (hrows r).1 hr
      rw [hvalues]
      exact (Circuit.LeavesClean.iff_table hnodup hinputs hlen).1 (h r.1 hlen)
    · exact (Circuit.LeavesClean.iff_table hnodup hinputs hlen).2 (h (bits, _) ((hrows (bits, _)).2 ⟨hlen, rfl⟩))

/-- A scratch qubit holds a copy of one input while it is needed, and the other input, which is an output too, is flipped. -/
def borrowed : Circuit where
  name := "borrowed"
  labels := ["a", "y", "b", "copy"]
  gates := [.cx 2 3, .ccx 0 3 1, .cx 2 3, .x 0]

/-- The circuit passes, so from both inputs set it leaves the one that is no output set and the copy at 0. Without the flipped
input among the outputs it fails. -/
theorem verification_exhaustive_borrowed : (verification [2, 0] [0, 1] 16).run borrowed = .ok borrowed ∧
    (∃ s, borrowed.simulate [true, false, true, false] = .ok s ∧ s[2]? = some true ∧ s[3]? = some false) ∧
    ∃ reason, (verification [2, 0] [1] 16).run borrowed = .error (.passFailed "uncompute_verification" reason) := by
  have hvalid : ∀ g ∈ borrowed.gates, borrowed.validate g = .ok () := by decide +kernel
  have hbox : ∀ g ∈ borrowed.gates, g.kind.isBlackBox = false := by decide
  have hpass : ((verification [2, 0] [0, 1] 16).run borrowed).isOk = true := by decide +kernel
  have hfail : ((verification [2, 0] [1] 16).run borrowed).isOk = false := by decide +kernel
  obtain ⟨hcases, hiff, -⟩ := @verification_exhaustive borrowed [2, 0] [0, 1] 16 hvalid hbox (by decide) (by decide) (by decide)
  obtain ⟨hcases', -⟩ := @verification_exhaustive borrowed [2, 0] [1] 16 hvalid hbox (by decide) (by decide) (by decide)
  have hrun : (verification [2, 0] [0, 1] 16).run borrowed = .ok borrowed := by
    refine hcases.resolve_right fun ⟨reason, h⟩ => ?_
    rw [h] at hpass
    cases hpass
  have hset : ∀ q : Nat, q < 4 → [true, false, true, false][q]? = some true → q ∈ [2, 0] := by decide
  obtain ⟨s, hs, hkept, hclean⟩ := hiff.1 hrun [true, false, true, false] rfl fun q hq =>
    hset q (List.getElem?_eq_some_iff.1 hq).1 hq
  refine ⟨hrun, ⟨s, hs, hkept 2 (by decide) (by decide), hclean 3 (by decide) (by decide) (by decide)⟩, ?_⟩
  refine hcases'.resolve_left fun h => ?_
  rw [h] at hfail
  cases hfail

end Pass

end ReversibleLogic
