import Mathlib.Data.Set.Function
import ReversibleLogic.Proofs.Cancel
import ReversibleLogic.Proofs.Relabel

/-!
# Running a circuit backwards

A gate of the NOT family that a circuit accepts has its target apart from its controls, so it undoes itself, and a barrier does
nothing. The gates in reverse order therefore undo the gates: one register leads to another by the gates exactly when the other
leads back by the reversed ones (`runGates_reverse_eq_ok_iff`). So a circuit of such gates maps the states of its register one to
one onto each other, and the circuit with the reversed gates is the inverse (`Circuit.simulate_reversible`).
-/

namespace ReversibleLogic

variable {box : Reading} {n : Nat} {g : Gate} {gs : List Gate} {s t : Register}

/-! ## Gates -/

/-- What is neither of the NOT family nor a black box is a barrier. -/
theorem GateKind.isBarrier_of_not {k : GateKind} (hc : k.isClassical = false) (hb : k.isBlackBox = false) :
    k.isBarrier = true := by
  cases k <;> simp_all [isClassical, isBlackBox, isBarrier]

/-- A gate that fits a register undoes itself, unless it is a black box. -/
theorem Gate.Fits.act_act (h : g.Fits n) (hb : g.kind.isBlackBox = false) (s : Bits) : g.act box (g.act box s) = s := by
  cases hc : g.kind.isClassical with
  | true =>
    obtain ⟨t, ht⟩ := h.toggles hc
    exact ht.act_act s
  | false =>
    have hbar := GateKind.isBarrier_of_not hc hb
    rw [Gate.act_of_isBarrier hbar, Gate.act_of_isBarrier hbar]

/-- Gates that undo themselves are undone by the same gates in reverse order. -/
theorem actGates_reverse (hfit : ∀ g ∈ gs, g.Fits n) (hbox : ∀ g ∈ gs, g.kind.isBlackBox = false) (s : Bits) :
    actGates box gs.reverse (actGates box gs s) = s := by
  induction gs generalizing s with
  | nil => rfl
  | cons g gs ih =>
    obtain ⟨hg, hgs⟩ := List.forall_mem_cons.1 hfit
    obtain ⟨hgbox, hgsbox⟩ := List.forall_mem_cons.1 hbox
    rw [actGates_cons, List.reverse_cons, actGates_append, ih hgs hgsbox, actGates_cons, actGates_nil, hg.act_act hgbox]

/-! ## Registers -/

/-- A run of gates that fit ends in a register exactly if that has the values that the gates lead to. -/
theorem runGates_eq_ok_iff (hfit : ∀ g ∈ gs, g.Fits s.size) (hbox : ∀ g ∈ gs, g.kind.isBlackBox = false) :
    runGates gs s = .ok t ↔ t.size = s.size ∧ t.bits = actGates .idle gs s.bits := by
  obtain ⟨u, hu, husize, hubits⟩ := runGates_eq hfit hbox
  rw [hu]
  constructor
  · intro h
    obtain rfl := Except.ok.inj h
    exact ⟨husize, hubits⟩
  · rintro ⟨hsize, hbits⟩
    exact congrArg Except.ok (Register.eq_of_bits (husize.trans hsize.symm) (hubits.trans hbits.symm))

/-- A register leads to another by gates that fit exactly if that one leads back by the gates in reverse order. -/
theorem runGates_reverse_eq_ok_iff (hfit : ∀ g ∈ gs, g.Fits n) (hbox : ∀ g ∈ gs, g.kind.isBlackBox = false)
    (hs : s.size = n) (ht : t.size = n) : runGates gs.reverse t = .ok s ↔ runGates gs s = .ok t := by
  have hfit' : ∀ g ∈ gs.reverse, g.Fits n := fun g hg => hfit g (List.mem_reverse.1 hg)
  have hbox' : ∀ g ∈ gs.reverse, g.kind.isBlackBox = false := fun g hg => hbox g (List.mem_reverse.1 hg)
  rw [runGates_eq_ok_iff (hs ▸ hfit) hbox, runGates_eq_ok_iff (ht ▸ hfit') hbox', hs, ht]
  have hback : actGates .idle gs.reverse.reverse (actGates .idle gs.reverse t.bits) = t.bits :=
    actGates_reverse hfit' hbox' t.bits
  rw [List.reverse_reverse] at hback
  constructor
  · rintro ⟨-, h⟩
    exact ⟨rfl, by rw [h, hback]⟩
  · rintro ⟨-, h⟩
    exact ⟨rfl, by rw [h, actGates_reverse hfit hbox]⟩

/-! ## Circuits -/

namespace Circuit

variable {c r : Circuit}

/-- On a full state nothing is filled up. -/
theorem simulate_toList (hs : s.size = c.numQubits) : c.simulate s.toList = runGates c.gates s := by
  have hlen : s.toList.length = c.numQubits := Array.length_toList.trans hs
  unfold simulate
  rw [if_neg (by omega), hlen, Nat.sub_self, List.replicate_zero, List.append_nil, Array.toArray_toList]

/-- A circuit maps one full state to another exactly if the circuit with the reversed gates maps that one back. -/
theorem simulate_reverse_eq_ok_iff (hfit : ∀ g ∈ c.gates, g.Fits c.numQubits)
    (hbox : ∀ g ∈ c.gates, g.kind.isBlackBox = false) (hnum : r.numQubits = c.numQubits) (hgates : r.gates = c.gates.reverse)
    (hs : s.size = c.numQubits) (ht : t.size = c.numQubits) : r.simulate t.toList = .ok s ↔ c.simulate s.toList = .ok t := by
  rw [simulate_toList hs, simulate_toList (ht.trans hnum.symm), hgates]
  exact runGates_reverse_eq_ok_iff hfit hbox hs ht

/-- A circuit without black boxes maps every full state to a full state. -/
theorem exists_simulate_toList (hfit : ∀ g ∈ c.gates, g.Fits c.numQubits)
    (hbox : ∀ g ∈ c.gates, g.kind.isBlackBox = false) (hs : s.size = c.numQubits) :
    ∃ t : Register, t.size = c.numQubits ∧ c.simulate s.toList = .ok t := by
  obtain ⟨t, ht, hsize, -⟩ := runGates_eq (hs ▸ hfit) hbox
  exact ⟨t, hsize.trans hs, (simulate_toList hs).trans ht⟩

/-- Circuits are reversible. If every gate of a circuit is valid and none is a black box, the register takes the gates in reverse
order; the circuit made so leads every full state that the circuit reaches back to where it started, and the circuit leads every
full state that this one reaches back; and the circuit maps the full states one to one onto the full states. -/
theorem simulate_reversible (hvalid : ∀ g ∈ c.gates, c.validate g = .ok ())
    (hbox : ∀ g ∈ c.gates, g.kind.isBlackBox = false) :
    ∃ r, c.withGates c.gates.reverse = .ok r ∧
      (∀ s : Register, s.size = c.numQubits → ∃ t, c.simulate s.toList = .ok t ∧ r.simulate t.toList = .ok s) ∧
      (∀ s : Register, s.size = c.numQubits → ∃ t, r.simulate s.toList = .ok t ∧ c.simulate t.toList = .ok s) ∧
      Set.BijOn (fun s : Register => c.simulate s.toList) {s | s.size = c.numQubits}
        {result | ∃ t : Register, t.size = c.numQubits ∧ result = .ok t} := by
  have hfit : ∀ g ∈ c.gates, g.Fits c.numQubits := fun g hg => validate_eq_ok_iff.1 (hvalid g hg)
  have hfit' : ∀ g ∈ c.gates.reverse, g.Fits c.numQubits := fun g hg => hfit g (List.mem_reverse.1 hg)
  obtain ⟨r, hr⟩ := appendAll_total (c := c.emptyLike) hfit'
  have happ := appended_appendAll hr
  have hnum : r.numQubits = c.numQubits := happ.numQubits
  have hgates : r.gates = c.gates.reverse := happ.gates
  have hrfit : ∀ g ∈ r.gates, g.Fits r.numQubits := by rwa [hgates, hnum]
  have hrbox : ∀ g ∈ r.gates, g.kind.isBlackBox = false := fun g hg => hbox g (List.mem_reverse.1 (hgates ▸ hg))
  have hback : ∀ {s t : Register}, s.size = c.numQubits → t.size = c.numQubits →
      (r.simulate t.toList = .ok s ↔ c.simulate s.toList = .ok t) := simulate_reverse_eq_ok_iff hfit hbox hnum hgates
  have hsource : ∀ t : Register, t.size = c.numQubits →
      ∃ s : Register, s.size = c.numQubits ∧ r.simulate t.toList = .ok s := by
    intro t ht
    obtain ⟨s, hs, hrun⟩ := exists_simulate_toList hrfit hrbox (ht.trans hnum.symm)
    exact ⟨s, hs.trans hnum, hrun⟩
  refine ⟨r, hr, fun s hs => ?_, fun t ht => ?_, fun s hs => ?_, fun s hs s' hs' heq => ?_, ?_⟩
  · obtain ⟨t, ht, hrun⟩ := exists_simulate_toList hfit hbox hs
    exact ⟨t, hrun, (hback hs ht).2 hrun⟩
  · obtain ⟨s, hs, hrun⟩ := hsource t ht
    exact ⟨s, hrun, (hback hs ht).1 hrun⟩
  · exact exists_simulate_toList hfit hbox hs
  · -- two states that are mapped to one are both led back to from there
    obtain ⟨t, ht, hrun⟩ := exists_simulate_toList hfit hbox hs
    have hrun' : c.simulate s'.toList = .ok t := heq.symm.trans hrun
    exact Except.ok.inj (((hback hs ht).2 hrun).symm.trans ((hback hs' ht).2 hrun'))
  · rintro _ ⟨t, ht, rfl⟩
    obtain ⟨s, hs, hrun⟩ := hsource t ht
    exact ⟨s, hs, (hback hs ht).1 hrun⟩

/-- Gates of all widths around a barrier, each of which changes what the next one reads. -/
def widening : Circuit where
  name := "widening"
  labels := ["a", "b", "c", "d"]
  gates := [.x 0, .cx 0 1, { kind := .barrier, qubits := [0, 1] }, .ccx 0 1 2, .mcx [0, 1, 2] 3, .cx 3 0]

/-- From the state of zeros the circuit reaches a state with all bits but the first set, and the reversed gates lead back. -/
theorem simulate_reversible_widening : ∃ r, widening.withGates widening.gates.reverse = .ok r ∧
    widening.simulate [false, false, false, false] = .ok #[false, true, true, true] ∧
      r.simulate [false, true, true, true] = .ok #[false, false, false, false] := by
  obtain ⟨r, hr, hback, -⟩ := simulate_reversible (c := widening) (by decide +kernel) (by decide)
  obtain ⟨t, ht, hrt⟩ := hback #[false, false, false, false] rfl
  have hrun : (widening.simulate [false, false, false, false]).toOption = some #[false, true, true, true] := by decide +kernel
  obtain rfl := Except.ok.inj (ht.symm.trans (Outcome.toOption_eq_some.1 hrun))
  exact ⟨r, hr, ht, hrt⟩

end Circuit

end ReversibleLogic
