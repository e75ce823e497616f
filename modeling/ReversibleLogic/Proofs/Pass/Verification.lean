import ReversibleLogic.Pass
import ReversibleLogic.Proofs.Optimize.Compare

/-!
# What the verification of a circuit looks at

A verification runs the circuit on every row of values for its inputs. A run with given values starts at these values and at 0
everywhere else (`Circuit.simulateWith_eq`), and a row passes exactly when each input that is no output has kept its value and
each qubit that is neither is at 0 (`rowProblem_eq_none_iff`). The rows are all values that the inputs can have
(`exists_row_eq`), so the circuit passes exactly when it leaves no garbage from any values that are 0 off the inputs
(`verifyUncomputed_eq_ok_iff`).
-/

namespace ReversibleLogic

/-! ## Runs with given values -/

/-- The values with which a run with given values starts: all others are 0. -/
def Bits.ofValues (values : List (Qubit × Bool)) : Bits := values.foldl (fun b v => Function.update b v.1 v.2) fun _ => false

namespace Bits

variable {values : List (Qubit × Bool)} {inputs : List Qubit} {bits : List Bool} {q : Qubit}

/-- Setting other qubits leaves a qubit as it is. -/
theorem foldl_update_of_forall_ne : ∀ {b : Bits}, (∀ v ∈ values, v.1 ≠ q) →
    values.foldl (fun b v => Function.update b v.1 v.2) b q = b q := by
  induction values with
  | nil => exact fun _ => rfl
  | cons v values ih =>
    intro b h
    rw [List.foldl_cons, ih fun u hu => h u (List.mem_cons_of_mem v hu)]
    exact Function.update_of_ne (h v List.mem_cons_self).symm _ _

/-- Of qubits that are given once, each has its value. -/
theorem foldl_update_of_mem {v : Qubit × Bool} : ∀ {b : Bits}, (values.map Prod.fst).Nodup → v ∈ values →
    values.foldl (fun b v => Function.update b v.1 v.2) b v.1 = v.2 := by
  induction values with
  | nil => exact fun _ hv => nomatch hv
  | cons u values ih =>
    intro b hnodup hv
    obtain ⟨hu, hnodup⟩ := List.nodup_cons.1 hnodup
    rw [List.foldl_cons]
    rcases List.mem_cons.1 hv with rfl | hv
    · have hne : ∀ w ∈ values, w.1 ≠ v.1 := fun w hw he => hu (he ▸ List.mem_map_of_mem hw)
      rw [foldl_update_of_forall_ne hne]
      exact Function.update_self _ _ _
    · exact ih hnodup hv

/-- A qubit that is no input starts at 0. -/
theorem ofValues_zip_of_not_mem (hq : q ∉ inputs) : ofValues (inputs.zip bits) q = false :=
  foldl_update_of_forall_ne fun _ hv he => hq (he ▸ (List.of_mem_zip hv).1)

/-- An input starts with its bit. -/
theorem ofValues_zip_of_mem (hnodup : inputs.Nodup) (hlen : bits.length = inputs.length) {v : Qubit × Bool}
    (hv : v ∈ inputs.zip bits) : ofValues (inputs.zip bits) v.1 = v.2 := by
  have hkeys : ((inputs.zip bits).map Prod.fst).Nodup := by rwa [List.map_fst_zip hlen.ge]
  exact foldl_update_of_mem hkeys hv

/-- Of distinct inputs, each has the bit at its place. -/
theorem getElem?_eq_ofValues_zip (hnodup : inputs.Nodup) (hlen : bits.length = inputs.length) {i : Nat}
    (hi : inputs[i]? = some q) : bits[i]? = some (ofValues (inputs.zip bits) q) := by
  have hlt : i < bits.length := hlen ▸ (List.getElem?_eq_some_iff.1 hi).1
  have hbit : bits[i]? = some bits[i] := List.getElem?_eq_getElem hlt
  have hmem : (q, bits[i]) ∈ inputs.zip bits := List.mem_of_getElem? (List.getElem?_zip_eq_some.2 ⟨hi, hbit⟩)
  rw [hbit, ofValues_zip_of_mem hnodup hlen hmem]

/-- All values that are 0 off the inputs are given by bits for the inputs. -/
theorem eq_ofValues_zip {b : Bits} (hnodup : inputs.Nodup) (hzero : ∀ q, q ∉ inputs → b q = false) :
    b = ofValues (inputs.zip (inputs.map b)) := by
  funext q
  by_cases hq : q ∈ inputs
  · obtain ⟨i, hi⟩ := List.mem_iff_getElem?.1 hq
    have hbit := getElem?_eq_ofValues_zip hnodup (List.length_map b) hi
    rw [List.getElem?_map, hi, Option.map_some] at hbit
    exact Option.some.inj hbit
  · rw [hzero q hq, ofValues_zip_of_not_mem hq]

/-- All values that are 0 beyond the first qubits are those of a row. -/
theorem exists_ofRow {b : Bits} {k : Nat} (hzero : ∀ q, k ≤ q → b q = false) :
    ∃ row : List Bool, row.length = k ∧ ofRow row = b := by
  refine ⟨(List.range k).map b, by simp, funext fun q => ?_⟩
  by_cases hq : q < k
  · simp [ofRow, hq]
  · simp [ofRow, hq, hzero q (Nat.not_lt.1 hq)]

end Bits

namespace Circuit

variable {c : Circuit} {values : List (Qubit × Bool)}

/-- Bits of the register are set one after another. -/
theorem setBits_eq : ∀ {s : Register}, s.size = c.numQubits → (∀ v ∈ values, v.1 < c.numQubits) →
    ∃ t, c.setBits s values = .ok t ∧ t.size = c.numQubits ∧
      t.bits = values.foldl (fun b v => Function.update b v.1 v.2) s.bits := by
  induction values with
  | nil => exact fun {s} hs _ => ⟨s, rfl, hs, rfl⟩
  | cons v values ih =>
    intro s hs h
    have hv := h v List.mem_cons_self
    have hsize : Array.size (s.setIfInBounds v.1 v.2) = c.numQubits := by rw [Array.size_setIfInBounds, hs]
    obtain ⟨t, ht, htsize, htbits⟩ := ih hsize fun u hu => h u (List.mem_cons_of_mem v hu)
    refine ⟨t, by rw [setBits, if_pos hv, ht], htsize, ?_⟩
    rw [htbits, Register.bits_setIfInBounds (hs ▸ hv), List.foldl_cons]

/-- A circuit without black boxes whose gates fit its register can be run with given values of its qubits, and the run gives the
values that its gates lead to. -/
theorem simulateWith_eq (hfit : ∀ g ∈ c.gates, g.Fits c.numQubits) (hbox : ∀ g ∈ c.gates, g.kind.isBlackBox = false)
    (hvalues : ∀ v ∈ values, v.1 < c.numQubits) :
    ∃ s, c.simulateWith values = .ok s ∧ s.size = c.numQubits ∧ s.bits = c.final (.ofValues values) := by
  obtain ⟨t, ht, htsize, htbits⟩ := setBits_eq (s := Array.replicate c.numQubits false) Array.size_replicate hvalues
  obtain ⟨s, hs, hssize, hsbits⟩ := runGatesWith_eq .idle (s := t) (htsize ▸ hfit)
  rw [runGatesWith_of_no_blackBox .idle hbox] at hs
  refine ⟨s, Outcome.bind_eq_ok.2 ⟨t, ht, hs⟩, hssize.trans htsize, ?_⟩
  have hzero : Register.bits (Array.replicate c.numQubits false) = fun _ => false := by
    funext q
    rw [Register.bits, Array.getElem?_replicate]
    split <;> rfl
  rw [hsbits, htbits, hzero]
  rfl

end Circuit

/-! ## Rows -/

/-- A row gives the inputs its bits, from the lowest on. -/
theorem inputValues_eq_zip (inputs : List Qubit) (row : Nat) :
    inputValues inputs row = inputs.zip ((List.range inputs.length).map row.testBit) := by
  refine List.ext_getElem (by simp [inputValues]) fun i _ _ => ?_
  simp [inputValues]

/-- Any bits are those of a row. -/
theorem exists_row_eq (bits : List Bool) :
    ∃ row, row < Nat.pow 2 bits.length ∧ (List.range bits.length).map row.testBit = bits := by
  obtain ⟨row, hlt, hrow⟩ := exists_row bits.length fun i => bits[i]?.getD false
  refine ⟨row, hlt, List.ext_getElem (by simp) fun i _ hi => ?_⟩
  rw [List.getElem_map, List.getElem_range, hrow i hi, List.getElem?_eq_getElem hi, Option.getD_some]

variable {c : Circuit} {inputs outputs : List Qubit} {row : Nat} {s : Register}

/-- Nothing is wrong with a row exactly when each input that is no output has kept its value, and each qubit that is neither is
at 0. -/
theorem rowProblem_eq_none_iff : rowProblem inputs outputs row s = none ↔
    (∀ v ∈ inputValues inputs row, v.1 ∉ outputs → s.bits v.1 = v.2) ∧
      ∀ q, q < s.size → q ∉ inputs → q ∉ outputs → s.bits q = false := by
  have hget : ∀ q, s.getD q false = s.bits q := fun q => Array.getD_eq_getD_getElem?
  unfold rowProblem
  split
  · next q value hfind =>
    have hbad := List.find?_some hfind
    simp only [hget, Bool.and_eq_true, Bool.not_eq_true', bne_iff_ne, List.contains_eq_mem, decide_eq_false_iff_not] at hbad
    refine iff_of_false (by simp) fun h => hbad.2 ?_
    exact h.1 (q, value) (List.mem_of_find?_eq_some hfind) hbad.1
  · next hfind =>
    have hkept : ∀ v ∈ inputValues inputs row, v.1 ∉ outputs → s.bits v.1 = v.2 := by
      intro v hv hout
      have hgood := List.find?_eq_none.1 hfind v hv
      simpa [hget, hout] using hgood
    split
    · next q hfind' =>
      have hbad := List.find?_some hfind'
      simp only [hget, Bool.and_eq_true, Bool.not_eq_true', List.contains_eq_mem, decide_eq_false_iff_not] at hbad
      obtain ⟨⟨hset, hin⟩, hout⟩ := hbad
      refine iff_of_false (by simp) fun h => ?_
      rw [h.2 q (List.mem_range.1 (List.mem_of_find?_eq_some hfind')) hin hout] at hset
      cases hset
    · next hfind' =>
      refine iff_of_true rfl ⟨hkept, fun q hq hin hout => ?_⟩
      have hgood := List.find?_eq_none.1 hfind' q (List.mem_range.2 hq)
      simpa [hget, hin, hout] using hgood

/-- Rows pass exactly when each of them does. -/
theorem verifyRows_eq_ok_iff {n : Nat} : ∀ {row : Nat}, verifyRows c inputs outputs row n = .ok () ↔
    ∀ i, row ≤ i → i < row + n →
      ∃ s, c.simulateWith (inputValues inputs i) = .ok s ∧ rowProblem inputs outputs i s = none := by
  induction n with
  | zero => exact fun {row} => iff_of_true rfl fun i hle hlt => absurd hlt (Nat.not_lt.2 hle)
  | succ n ih =>
    intro row
    refine ⟨fun h i hle hlt => ?_, fun h => ?_⟩
    · obtain ⟨s, hs, hrest⟩ := Outcome.bind_eq_ok.1 h
      split at hrest
      · cases hrest
      · next hrow =>
        rcases Nat.eq_or_lt_of_le hle with rfl | hle
        · exact ⟨s, Outcome.mapError_eq_ok.1 hs, hrow⟩
        · exact ih.1 hrest i hle (by omega)
    · obtain ⟨s, hs, hrow⟩ := h row (Nat.le_refl row) (by omega)
      refine Outcome.bind_eq_ok.2 ⟨s, Outcome.mapError_eq_ok.2 hs, ?_⟩
      rw [hrow]
      exact ih.2 fun i hle hlt => h i (Nat.le_of_succ_le hle) (by omega)

/-! ## Circuits that leave no garbage -/

/-- From these values, the circuit leaves each input that is no output as it was, and each qubit that is neither at 0. -/
def Circuit.LeavesClean (c : Circuit) (inputs outputs : List Qubit) (b : Bits) : Prop :=
  (∀ q ∈ inputs, q ∉ outputs → c.final b q = b q) ∧
    ∀ q, q < c.numQubits → q ∉ inputs → q ∉ outputs → c.final b q = false

section Verified

variable (hfit : ∀ g ∈ c.gates, g.Fits c.numQubits) (hbox : ∀ g ∈ c.gates, g.kind.isBlackBox = false)
  (hnodup : inputs.Nodup) (hinputs : ∀ q ∈ inputs, q < c.numQubits)

include hfit hbox hinputs

/-- The circuit can be run with bits for its inputs. -/
theorem simulateWith_zip_eq (bits : List Bool) : ∃ s, c.simulateWith (inputs.zip bits) = .ok s ∧ s.size = c.numQubits ∧
    s.bits = c.final (.ofValues (inputs.zip bits)) :=
  Circuit.simulateWith_eq hfit hbox fun _ hv => hinputs _ (List.of_mem_zip hv).1

include hnodup

/-- A row passes exactly when the circuit leaves no garbage from its values. -/
theorem row_passes_iff : (∃ s, c.simulateWith (inputValues inputs row) = .ok s ∧ rowProblem inputs outputs row s = none) ↔
    c.LeavesClean inputs outputs (.ofValues (inputValues inputs row)) := by
  obtain ⟨bits, hlen, hvalues⟩ : ∃ bits : List Bool, bits.length = inputs.length ∧ inputValues inputs row = inputs.zip bits :=
    ⟨_, by simp, inputValues_eq_zip inputs row⟩
  obtain ⟨s, hs, hsize, hbits⟩ := simulateWith_zip_eq hfit hbox hinputs bits
  have hrow : rowProblem inputs outputs row s = none ↔ c.LeavesClean inputs outputs (.ofValues (inputs.zip bits)) := by
    rw [rowProblem_eq_none_iff, hvalues, hsize, hbits]
    refine and_congr_left fun _ => ⟨fun h q hq hout => ?_, fun h v hv hout => ?_⟩
    · obtain ⟨i, hi⟩ := List.mem_iff_getElem?.1 hq
      have hbit := Bits.getElem?_eq_ofValues_zip hnodup hlen hi
      exact h (q, _) (List.mem_of_getElem? (List.getElem?_zip_eq_some.2 ⟨hi, hbit⟩)) hout
    · rw [h v.1 (List.of_mem_zip hv).1 hout, Bits.ofValues_zip_of_mem hnodup hlen hv]
  rw [hvalues]
  refine ⟨fun ⟨t, ht, hpass⟩ => ?_, fun h => ⟨s, hs, hrow.2 h⟩⟩
  rw [hs] at ht
  exact hrow.1 (Except.ok.inj ht ▸ hpass)

/-- A circuit passes the verification exactly when it leaves no garbage from any values that are 0 off the inputs. -/
theorem verifyUncomputed_eq_ok_iff {maxInputs : Nat} (hmax : inputs.length ≤ maxInputs) :
    verifyUncomputed c inputs outputs maxInputs = .ok () ↔
      ∀ b : Bits, (∀ q, q ∉ inputs → b q = false) → c.LeavesClean inputs outputs b := by
  unfold verifyUncomputed
  rw [if_neg (Nat.not_lt.2 hmax), verifyRows_eq_ok_iff]
  refine ⟨fun h b hzero => ?_, fun h row _ _ => ?_⟩
  · obtain ⟨row, hlt, hrow⟩ := exists_row_eq (inputs.map b)
    rw [List.length_map] at hlt hrow
    have hclean := (row_passes_iff hfit hbox hnodup hinputs).1 (h row (Nat.zero_le row) (by rwa [Nat.zero_add]))
    rwa [inputValues_eq_zip, hrow, ← Bits.eq_ofValues_zip hnodup hzero] at hclean
  · refine (row_passes_iff hfit hbox hnodup hinputs).2 (h _ fun q hq => ?_)
    rw [inputValues_eq_zip]
    exact Bits.ofValues_zip_of_not_mem hq

end Verified

end ReversibleLogic
