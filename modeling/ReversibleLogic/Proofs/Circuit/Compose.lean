import ReversibleLogic.Proofs.Relabel

/-!
# Circuits one after another

A circuit that is appended to another one, with its qubits placed on distinct qubits of that one, runs after it on the bits that
it finds in these places and leaves its own result there; all other qubits stay as the first circuit left them
(`Circuit.appendCircuit_sequential`). The two halves are what gates do on the places of their qubits (`actGates_mapQubits`) and
that they do nothing elsewhere (`actGates_mapQubits_of_forall_ne`).
-/

namespace ReversibleLogic

variable {mapping : List Qubit} {n : Nat}

/-- Where a qubit is placed does not depend on the mapping behind it. -/
theorem place_take {q : Qubit} (hq : q < n) : place (mapping.take n) q = place mapping q := by
  rw [place, place, List.getElem?_take_of_lt hq]

/-- The first qubits have places among the first of the mapping. -/
theorem place_mem_take (hlen : n ≤ mapping.length) {q : Qubit} (hq : q < n) : place mapping q ∈ mapping.take n := by
  rw [← place_take hq]
  exact place_mem ((List.length_take_of_le hlen).symm ▸ hq)

/-- No two of them have the same place, if these are distinct. -/
theorem place_inj_take (hlen : n ≤ mapping.length) (hdistinct : (mapping.take n).Nodup) (p q : Qubit) (hp : p < n) (hq : q < n)
    (he : place mapping p = place mapping q) : p = q := by
  have hwidth : (mapping.take n).length = n := List.length_take_of_le hlen
  rw [← place_take hp, ← place_take hq] at he
  exact place_inj hdistinct (hwidth.symm ▸ hp) (hwidth.symm ▸ hq) he

/-- The bits found in the places of the first qubits. -/
theorem Bits.ofRow_map_take (hlen : n ≤ mapping.length) (b : Bits) {q : Qubit} (hq : q < n) :
    Bits.ofRow ((mapping.take n).map b) q = b (place mapping q) := by
  have hlt : q < (mapping.take n).length := (List.length_take_of_le hlen).symm ▸ hq
  rw [Bits.ofRow, List.getElem?_map, ← place_take hq, place, List.getElem?_eq_getElem hlt]
  rfl

namespace Circuit

variable {a b c : Circuit} {gs : List Gate}

/-- A circuit leads its values to what the gates appended to it make of them. -/
theorem Appended.final (h : a.Appended gs c) (s : Bits) : c.final s = actGates .idle gs (a.final s) := by
  rw [Circuit.final, h.gates, actGates_append]
  rfl

/-- What holds of the gates that were there and of the new ones holds of all. -/
theorem Appended.forall_mem (h : a.Appended gs c) {P : Gate → Prop} (ha : ∀ g ∈ a.gates, P g) (hgs : ∀ g ∈ gs, P g) :
    ∀ g ∈ c.gates, P g := by
  rw [h.gates]
  exact fun g hg => (List.mem_append.1 hg).elim (ha g) (hgs g)

/-- Appending by a mapping is running one circuit after another. If all gates of `a` and `b` are valid and none is a black box,
and the mapping has for each qubit of `b` a qubit of `a` of its own, then `b` can be appended to `a`. From every row of bits, `a`
leads to a state `s`; `b`, from the bits of `s` at the places of its qubits, to a state `t`; and both together to a state that has
the bits of `t` at these places and those of `s` everywhere else. -/
theorem appendCircuit_sequential (ha : ∀ g ∈ a.gates, a.validate g = .ok ()) (hb : ∀ g ∈ b.gates, b.validate g = .ok ())
    (habox : ∀ g ∈ a.gates, g.kind.isBlackBox = false) (hbbox : ∀ g ∈ b.gates, g.kind.isBlackBox = false)
    (hlen : b.numQubits ≤ mapping.length) (hdistinct : (mapping.take b.numQubits).Nodup)
    (hrange : ∀ q ∈ mapping.take b.numQubits, q < a.numQubits) :
    ∃ c, a.appendCircuit b mapping = (c, .ok ()) ∧ ∀ row : List Bool, row.length ≤ a.numQubits →
      ∃ s t u : Register, a.simulate row = .ok s ∧ b.simulate ((mapping.take b.numQubits).map s.bits) = .ok t ∧
        c.simulate row = .ok u ∧
        (∀ i q, i < b.numQubits → mapping[i]? = some q → u[q]? = t[i]?) ∧
        ∀ q, q ∉ mapping.take b.numQubits → u[q]? = s[q]? := by
  have hafit : ∀ g ∈ a.gates, g.Fits a.numQubits := fun g hg => validate_eq_ok_iff.1 (ha g hg)
  have hbfit : ∀ g ∈ b.gates, g.Fits b.numQubits := fun g hg => validate_eq_ok_iff.1 (hb g hg)
  have hinj := place_inj_take hlen hdistinct
  have hmem : ∀ q, q < b.numQubits → place mapping q ∈ mapping.take b.numQubits := fun q hq => place_mem_take hlen hq
  obtain ⟨c, hc⟩ := appendCircuit_total hlen hinj (fun q hq => hrange _ (hmem q hq)) hbfit
  have happ := appended_appendCircuit hc
  have hcfit : ∀ g ∈ c.gates, g.Fits c.numQubits := happ.numQubits ▸ happ.forall_mem hafit happ.fits
  have hcbox : ∀ g ∈ c.gates, g.kind.isBlackBox = false := happ.forall_mem habox fun g hg => by
    obtain ⟨k, hk, rfl⟩ := List.mem_map.1 hg
    exact hbbox k hk
  refine ⟨c, hc, fun row hrow => ?_⟩
  obtain ⟨s, hs, hssize, hsbits⟩ := simulate_eq hafit habox hrow
  have hfound : ((mapping.take b.numQubits).map s.bits).length ≤ b.numQubits := by
    rw [List.length_map]
    exact List.length_take_le _ _
  obtain ⟨t, ht, htsize, htbits⟩ := simulate_eq hbfit hbbox hfound
  obtain ⟨u, hu, husize, hubits⟩ := simulate_eq hcfit hcbox (happ.numQubits ▸ hrow)
  rw [happ.final, ← hsbits] at hubits
  have hsize : u.size = s.size := husize.trans (happ.numQubits.trans hssize.symm)
  refine ⟨s, t, u, hs, ht, hu, fun i q hi hq => ?_, fun q hq => ?_⟩
  · obtain rfl : place mapping i = q := by rw [place, hq, Option.getD_some]
    have hlt : place mapping i < u.size := hsize ▸ hssize ▸ hrange _ (hmem i hi)
    rw [Register.getElem?_eq_some_bits hlt, Register.getElem?_eq_some_bits (htsize ▸ hi), hubits, htbits]
    exact congrArg some (actGates_mapQubits hinj hbfit (fun _ hp => Bits.ofRow_map_take hlen s.bits hp) i hi).symm
  · refine Register.getElem?_congr hsize ?_
    rw [hubits]
    refine actGates_mapQubits_of_forall_ne hbfit (fun i hi he => hq ?_) s.bits
    exact he ▸ hmem i hi

/-- Two flips around a barrier on a register of three qubits. -/
def fencedFlips : Circuit where
  name := "fenced"
  labels := ["a", "b", "c"]
  gates := [.x 2, { kind := .barrier, qubits := [0, 2] }, .x 1]

/-- A copy of one qubit to another, which is followed by a flip of the first. -/
def copyAndFlip : Circuit where
  name := "copy"
  labels := ["p", "q"]
  gates := [.cx 0 1, .x 0]

/-- The copy is placed from the last qubit to the first; what the mapping says behind that does not matter. -/
theorem appendCircuit_sequential_fencedFlips : ∃ c u, fencedFlips.appendCircuit copyAndFlip [2, 0, 9] = (c, .ok ()) ∧
    fencedFlips.simulate [] = .ok #[false, true, true] ∧ copyAndFlip.simulate [true, false] = .ok #[false, true] ∧
    c.simulate [] = .ok u ∧ [u[0]?, u[1]?, u[2]?] = [some true, some true, some false] := by
  have hlen : copyAndFlip.numQubits ≤ ([2, 0, 9] : List Qubit).length := by decide
  obtain ⟨c, hc, hall⟩ := appendCircuit_sequential (a := fencedFlips) (by decide +kernel) (by decide +kernel) (by decide)
    (by decide) hlen (by decide) (by decide)
  obtain ⟨s, t, u, hs, ht, hu, hplaced, hkept⟩ := hall [] (by decide)
  have hfirst : (fencedFlips.simulate []).toOption = some #[false, true, true] := by decide +kernel
  obtain rfl := Except.ok.inj (hs.symm.trans (Outcome.toOption_eq_some.1 hfirst))
  have hsecond : (copyAndFlip.simulate [true, false]).toOption = some #[false, true] := by decide +kernel
  obtain rfl := Except.ok.inj (ht.symm.trans (Outcome.toOption_eq_some.1 hsecond))
  refine ⟨c, u, hc, hs, ht, hu, ?_⟩
  rw [hplaced 1 0 (by decide) rfl, hplaced 0 2 (by decide) rfl, hkept 1 (by decide)]
  rfl

end Circuit

end ReversibleLogic
