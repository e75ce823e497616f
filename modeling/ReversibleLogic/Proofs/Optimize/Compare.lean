import ReversibleLogic.Proofs.Optimize.Equivalence
import ReversibleLogic.Proofs.Relabel
import ReversibleLogic.Proofs.Section.Decompile

/-!
# Comparing a candidate with a section

Putting 0 for symbols that hold 0 does not change values (`eval_zeros`), so a candidate whose final values pass the comparison
leaves the qubits of a section as the section does, from all values with 0 on those qubits (`act_eq_of_equivalent`).
-/

namespace ReversibleLogic

variable {ρ : Valuation}

/-- Putting 0 for symbols that hold 0 does not change the value. -/
theorem eval_zeros {zeroed : List Symbol} {e : Expression} {v : Bool} (hz : ∀ s ∈ zeroed, ∀ b, ρ s = some b → b = false)
    (h : e.eval ρ = .ok v) : (e.substitute (Optimizer.zeros zeroed)).eval ρ = .ok v := by
  refine Expression.eval_substitute (fun s d hd b hb => ?_) h
  unfold Optimizer.zeros at hd
  split at hd
  · next hs =>
    obtain rfl := Option.some.inj hd
    rw [hz s hs b hb]
    rfl
  · cases hd

/-! ## Candidates -/

namespace Section.Faithful

variable {symbols : List Symbol} {s : Section}

/-- No two qubits of a section have the same symbol. -/
theorem nodup_names (hsym : symbols.Nodup) (h : s.Faithful symbols) : s.symbolNames.Nodup := by
  rw [h.names]
  exact List.Nodup.map_on (fun p hp q hq => symbolOf_inj hsym (h.range hp) (h.range hq)) h.qubits.1

/-- The symbols of a section belong to its qubits in order. -/
theorem symbolOf_names (h : s.Faithful symbols) {i : Nat} (hi : i < s.qubits.length) :
    Run.symbolOf s.symbolNames i = Run.symbolOf symbols (place s.qubits i) := by
  rw [Run.symbolOf, h.names, List.getElem?_map, place, List.getElem?_eq_getElem hi]
  rfl

end Section.Faithful

namespace Optimizer

variable {o : Optimizer} {c : Circuit} {s : Section} {symbols zeroed : List Symbol} {b : Bits} {box : Reading}

/-- The final values of a circuit's qubits, as they are read, are the values that its gates leave there. -/
theorem eval_finalValues {sections : List Section} {q : Qubit} (hlabels : c.labels.Nodup)
    (hgates : ∀ g ∈ c.gates, g.Flips c.numQubits) (h : c.decompile none = .ok sections)
    (hq : q < c.numQubits) (box : Reading) (b : Bits) :
    (((finalValues sections).lookup (Run.symbolOf c.labels q)).getD (.ref (Run.symbolOf c.labels q))).eval
      (.ofBits c.labels b) = .ok (actGates box c.gates b q) := by
  have hcases := decompile_unlimited hgates h
  rw [uniqueSymbols_of_nodup hlabels] at hcases
  rcases hcases with ⟨rfl, hnil⟩ | ⟨r, rfl, hr, hg⟩
  · rw [hnil]
    exact Expression.eval_ref_eq_ok.2 (Valuation.ofBits_symbolOf hlabels hq b)
  · rw [hr.lookup_expressions hlabels (fun p => by simp [finalValues]) hq, ← hg]
    exact hr.value q hq box b

/-- The section's symbols have the values of its qubits. -/
theorem ofBits_of_section (hsym : symbols.Nodup) (hs : s.Faithful symbols) {name : Symbol} {v : Bool}
    (h : Valuation.ofBits s.symbolNames (fun i => b (place s.qubits i)) name = some v) :
    Valuation.ofBits symbols b name = some v := by
  obtain ⟨i, hi, rfl⟩ := Option.map_eq_some_iff.1 h
  obtain ⟨hlt, hget, -⟩ := List.idxOf?_eq_some_iff.1 hi
  have hlen : i < s.qubits.length := by
    rw [hs.names, List.length_map] at hlt
    exact hlt
  have hname : Run.symbolOf symbols (place s.qubits i) = name := by
    rw [← hs.symbolOf_names hlen, Run.symbolOf, List.getElem?_eq_getElem hlt, hget]
    rfl
  rw [← hname]
  exact Valuation.ofBits_symbolOf hsym (hs.range (place_mem hlen)) b

/-- A candidate over the qubits of a section that passes the comparison leaves on each of its qubits what the section leaves, from
all values with 0 on the qubits that are said to hold 0. -/
theorem value_eq_of_equivalent (hsym : symbols.Nodup) (hs : s.Faithful symbols) (hlabels : c.labels = s.symbolNames)
    (hgates : ∀ g ∈ c.gates, g.Flips c.numQubits) (h : o.equivalent s c zeroed = .ok true)
    (hzero : ∀ name ∈ zeroed, ∃ q ∈ s.qubits, name = Run.symbolOf symbols q ∧ b q = false) {i : Qubit}
    (hi : i < s.qubits.length) :
    actGates box c.gates (fun j => b (place s.qubits j)) i = actGates box s.gates b (place s.qubits i) := by
  have hnum : i < c.numQubits := by
    rw [Circuit.numQubits, hlabels, hs.names, List.length_map]
    exact hi
  obtain ⟨sections, hread, hret⟩ := Outcome.bind_eq_ok.1 h
  have hsame := List.all_eq_true.1 (Outcome.pure_eq_ok.1 hret) (Run.symbolOf symbols (place s.qubits i)) (by
    rw [hs.names]
    exact List.mem_map_of_mem (place_mem hi))
  -- both values, over the values with which the section starts
  have hvalue := hs.value (place s.qubits i) (hs.range (place_mem hi)) box b
  have hcandidate := eval_finalValues (hlabels ▸ hs.nodup_names hsym) hgates hread hnum box fun j => b (place s.qubits j)
  rw [hlabels, hs.symbolOf_names hi] at hcandidate
  have hfalse : ∀ name ∈ zeroed, ∀ v, Valuation.ofBits symbols b name = some v → v = false := by
    intro name hname v hv
    obtain ⟨q, hq, rfl, hb⟩ := hzero name hname
    rw [Valuation.ofBits_symbolOf hsym (hs.range hq), hb] at hv
    exact (Option.some.inj hv).symm
  exact (eq_of_sameFunction hsame (eval_zeros hfalse hvalue)
    (eval_zeros hfalse (Expression.eval_mono (fun _ _ => ofBits_of_section hsym hs) hcandidate))).symm

/-- Put in the place of the section, the candidate does what the section does. -/
theorem act_eq_of_equivalent (hsym : symbols.Nodup) (hs : s.Faithful symbols) (hlabels : c.labels = s.symbolNames)
    (hgates : ∀ g ∈ c.gates, g.Flips c.numQubits) (h : o.equivalent s c zeroed = .ok true)
    (hzero : ∀ name ∈ zeroed, ∃ q ∈ s.qubits, name = Run.symbolOf symbols q ∧ b q = false) :
    actGates box (c.gates.map (Gate.mapQubits (place s.qubits))) b = actGates box s.gates b := by
  have hnum : c.numQubits = s.qubits.length := by
    rw [Circuit.numQubits, hlabels, hs.names, List.length_map]
  have hfit : ∀ g ∈ c.gates, g.Fits s.qubits.length := fun g hg => hnum ▸ (hgates g hg).fits
  funext q
  by_cases hq : q ∈ s.qubits
  · obtain ⟨i, hi, rfl⟩ := exists_place hq
    rw [← value_eq_of_equivalent hsym hs hlabels hgates h hzero hi]
    exact (actGates_mapQubits (fun p r hp hr => place_inj hs.qubits.1 hp hr) hfit (fun _ _ => rfl) i hi).symm
  · have hsection : actGates box s.gates b q = b q :=
      actGates_of_not_mem (fun g hg hqg => hq ((hs.qubits.2 q).2 ⟨g, hg, hqg⟩)) b
    rw [hsection]
    refine actGates_mapQubits_of_forall_ne hfit (fun i hi he => hq ?_) b
    exact he ▸ place_mem hi

end Optimizer

end ReversibleLogic
