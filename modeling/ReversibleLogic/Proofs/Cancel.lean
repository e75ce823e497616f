import ReversibleLogic.Circuit.Cancel
import ReversibleLogic.Proofs.Action

/-!
# Cancelling keeps the action

Equal gates of the NOT family undo each other, and a barrier between them does nothing. So each step of the pass keeps what the
gates seen so far do, and the pass keeps what all gates do. The gates that are left are some of those given, in their order, all
barriers and black boxes among them, and a second pass finds nothing to cancel among them. So a circuit is simulated with the same
result before and after (`Circuit.removeIdentities_preserves`).
-/

namespace ReversibleLogic

variable {box : Reading} {n : Nat} {g h k : Gate} {gs seen : List Gate}

namespace Gate

/-- A gate of the NOT family undoes itself. -/
theorem Toggles.act_act {t : Qubit} (ht : g.Toggles t) (s : Bits) : g.act box (g.act box s) = s := by
  have hall : g.controls.all (Function.update s t (s t ^^ g.controls.all s)) = g.controls.all s :=
    Bits.all_congr fun q hq => Function.update_of_ne (ht.control_ne hq) _ _
  rw [ht.act_eq, ht.act_eq, Function.update_self, hall, Function.update_idem, Bool.xor_assoc, Bool.xor_self, Bool.xor_false,
    Function.update_eq_self]

/-- Gates that are the same act the same, if they are of the NOT family. -/
theorem same_act (hsame : g.same h = true) (hc : h.kind.isClassical = true) (s : Bits) : g.act box s = h.act box s := by
  simp only [same, Bool.and_eq_true, beq_iff_eq] at hsame
  obtain ⟨⟨hk, hq⟩, -⟩ := hsame
  unfold act target? controls
  rw [hk, hq]
  cases hk' : h.kind with
  | blackBox name => simp [hk', GateKind.isClassical] at hc
  | x | cx | ccx | mcx n | barrier => rfl

/-- A barrier changes nothing. -/
theorem act_of_isBarrier (hb : g.kind.isBarrier = true) (s : Bits) : g.act box s = s := by
  unfold act
  cases hk : g.kind with
  | barrier => rfl
  | x | cx | ccx | mcx n | blackBox name => simp [hk, GateKind.isBarrier] at hb

end Gate

/-! ## One step -/

/-- Gates that are the same are of one kind. -/
theorem Gate.kind_eq_of_same (h : k.same g = true) : k.kind = g.kind := by
  simp only [Gate.same, Bool.and_eq_true, beq_iff_eq] at h
  exact h.1.1

/-- A gate of the NOT family goes with the latest gate if the two are the same. -/
theorem cancelStep_of_same (hc : g.kind.isClassical = true) (h : k.same g = true) (rest : List Gate) :
    cancelStep (k :: rest) g = rest := by
  cases rest with
  | nil => simp [cancelStep, hc, h]
  | cons before rest => simp [cancelStep, hc, h]

/-- It goes with the gate before the latest if that one is the same and the latest is a barrier, which stays. -/
theorem cancelStep_of_barrier {b : Gate} (hc : g.kind.isClassical = true) (hb : b.kind.isBarrier = true) (h : k.same g = true)
    (rest : List Gate) : cancelStep (b :: k :: rest) g = b :: rest := by
  have hne : b.same g = false := by
    rw [Bool.eq_false_iff]
    intro hsame
    rw [Gate.kind_eq_of_same hsame, GateKind.isBarrier_of_isClassical hc] at hb
    cases hb
  simp [cancelStep, hc, hb, h, hne]

/-- A gate is taken onto those seen, or it is of the NOT family and goes together with one that is the same: the latest, or the
one before the latest if that is a barrier. -/
theorem cancelStep_cases (seen : List Gate) (g : Gate) : cancelStep seen g = g :: seen ∨
    ∃ k rest, g.kind.isClassical = true ∧ k.same g = true ∧
      (seen = k :: rest ∨ ∃ b, b.kind.isBarrier = true ∧ seen = b :: k :: rest) := by
  by_cases hc : g.kind.isClassical = true
  · match seen with
    | [] => exact Or.inl (by simp [cancelStep])
    | [last] =>
      by_cases hsame : last.same g = true
      · exact Or.inr ⟨last, [], hc, hsame, Or.inl rfl⟩
      · exact Or.inl (by simp [cancelStep, hsame])
    | last :: before :: rest =>
      by_cases hsame : last.same g = true
      · exact Or.inr ⟨last, before :: rest, hc, hsame, Or.inl rfl⟩
      · by_cases hbar : (last.kind.isBarrier && before.same g) = true
        · obtain ⟨hb, hsame'⟩ := Bool.and_eq_true_iff.1 hbar
          exact Or.inr ⟨before, rest, hc, hsame', Or.inr ⟨last, hb, rfl⟩⟩
        · exact Or.inl (by simp only [cancelStep, hsame, hbar, Bool.false_eq_true, if_false, ite_self])
  · exact Or.inl (by simp [cancelStep, hc])

/-- A gate is taken onto those seen, or gates go. -/
theorem cancelStep_sublist (seen : List Gate) (g : Gate) : (cancelStep seen g).Sublist (g :: seen) := by
  rcases cancelStep_cases seen g with h | ⟨k, rest, hc, hsame, rfl | ⟨b, hb, rfl⟩⟩
  · simp only [h, List.Sublist.refl]
  · rw [cancelStep_of_same hc hsame]
    exact ((List.Sublist.refl rest).cons k).cons g
  · rw [cancelStep_of_barrier hc hb hsame]
    exact (((List.Sublist.refl rest).cons k).cons_cons b).cons g

/-- A reflexive and transitive relation that holds between the gates before and after each step, those seen with those to come,
holds between all gates and those that are left. -/
theorem cancelPairs_induction {P : Gate → Prop} {R : List Gate → List Gate → Prop} (hrefl : ∀ l, R l l)
    (htrans : ∀ {l₁ l₂ l₃}, R l₁ l₂ → R l₂ l₃ → R l₁ l₃)
    (hstep : ∀ {seen g} l, (∀ k ∈ seen, P k) → P g → R (seen.reverse ++ g :: l) ((cancelStep seen g).reverse ++ l))
    (hgs : ∀ g ∈ gs, P g) : R gs (cancelPairs gs) := by
  have hfold : ∀ l seen : List Gate, (∀ k ∈ seen, P k) → (∀ g ∈ l, P g) →
      R (seen.reverse ++ l) (l.foldl cancelStep seen).reverse := by
    intro l
    induction l with
    | nil => intro seen _ _; rw [List.append_nil]; exact hrefl _
    | cons g l ih =>
      intro seen hseen hl
      obtain ⟨hg, hl⟩ := List.forall_mem_cons.1 hl
      have hnext : ∀ k ∈ cancelStep seen g, P k := fun k hk =>
        List.forall_mem_cons.2 ⟨hg, hseen⟩ k ((cancelStep_sublist seen g).subset hk)
      exact htrans (hstep l hseen hg) (ih _ hnext hl)
  exact hfold gs [] (List.forall_mem_nil _) hgs

/-! ## The action of what is left -/

/-- Taking one more gate onto those seen does what the gate does after those. -/
theorem actGates_cancelStep (hg : g.Fits n) (s : Bits) :
    actGates box (cancelStep seen g).reverse s = g.act box (actGates box seen.reverse s) := by
  -- a gate that is the same as one of the NOT family undoes it
  have hundo : ∀ {k : Gate} (s : Bits), g.kind.isClassical = true → k.same g = true → g.act box (k.act box s) = s := by
    intro k s hc hsame
    obtain ⟨t, ht⟩ := hg.toggles hc
    rw [Gate.same_act hsame hc, ht.act_act]
  rcases cancelStep_cases seen g with h | ⟨k, rest, hc, hsame, rfl | ⟨b, hb, rfl⟩⟩
  · rw [h, List.reverse_cons, actGates_append]
    rfl
  · rw [cancelStep_of_same hc hsame, List.reverse_cons, actGates_append]
    exact (hundo _ hc hsame).symm
  · rw [cancelStep_of_barrier hc hb hsame]
    simp only [List.reverse_cons, actGates_append, actGates_cons, actGates_nil, Gate.act_of_isBarrier hb]
    exact (hundo _ hc hsame).symm

/-- The gates that are left do what all gates do. -/
theorem actGates_cancelPairs (hgs : ∀ g ∈ gs, g.Fits n) (s : Bits) : actGates box (cancelPairs gs) s = actGates box gs s := by
  refine cancelPairs_induction (R := fun l k => actGates box k s = actGates box l s) (fun _ => rfl) (fun h₁ h₂ => h₂.trans h₁)
    (fun l _ hg => ?_) hgs
  rw [actGates_append, actGates_cancelStep hg, actGates_append, actGates_cons]

/-! ## What is left -/

/-- What is left are some of the gates, in their order. -/
theorem cancelPairs_sublist (gs : List Gate) : (cancelPairs gs).Sublist gs := by
  refine cancelPairs_induction (P := fun _ => True) (R := fun l k => k.Sublist l) List.Sublist.refl (fun h₁ h₂ => h₂.trans h₁)
    (fun {seen g} l _ _ => ?_) fun _ _ => trivial
  simpa using (cancelStep_sublist seen g).reverse.append (List.Sublist.refl l)

theorem mem_cancelPairs (hk : k ∈ cancelPairs gs) : k ∈ gs := (cancelPairs_sublist gs).subset hk

/-- The gates outside the NOT family, in their order: barriers and black boxes. -/
def fixedGates (gs : List Gate) : List Gate := gs.filter fun g => !g.kind.isClassical

theorem fixedGates_append (gs hs : List Gate) : fixedGates (gs ++ hs) = fixedGates gs ++ fixedGates hs :=
  List.filter_append gs hs

theorem fixedGates_reverse (gs : List Gate) : fixedGates gs.reverse = (fixedGates gs).reverse := List.filter_reverse

/-- A gate of the NOT family is passed over. -/
theorem fixedGates_cons_of_classical (hg : g.kind.isClassical = true) (gs : List Gate) : fixedGates (g :: gs) = fixedGates gs :=
  List.filter_cons_of_neg (by simp [hg])

/-- Among gates of the NOT family none is fixed. -/
theorem fixedGates_of_classical (h : ∀ g ∈ gs, g.kind.isClassical = true) : fixedGates gs = [] :=
  List.filter_eq_nil_iff.2 fun g hg => by simp [h g hg]

/-- A list has the gates that count and the barriers. -/
theorem length_eq_countP_add (gs : List Gate) :
    gs.length = gs.countP (fun g => !g.kind.isBarrier) + (fixedGates gs).countP fun g => g.kind.isBarrier := by
  have hbarriers : (fixedGates gs).countP (fun g => g.kind.isBarrier) = gs.countP fun g => !!g.kind.isBarrier := by
    rw [fixedGates, List.countP_filter]
    refine List.countP_congr fun g _ => ?_
    cases hk : g.kind <;> simp [GateKind.isBarrier, GateKind.isClassical]
  rw [hbarriers]
  simpa using List.length_eq_countP_add_countP fun g : Gate => !g.kind.isBarrier

/-- What goes with a gate is the same as the gate, so it is of the NOT family too. -/
theorem fixedGates_cancelStep (seen : List Gate) (g : Gate) : fixedGates (cancelStep seen g) = fixedGates (g :: seen) := by
  rcases cancelStep_cases seen g with h | ⟨k, rest, hc, hsame, hseen⟩
  · rw [h]
  · have hk : k.kind.isClassical = true := Gate.kind_eq_of_same hsame ▸ hc
    rw [fixedGates_cons_of_classical hc]
    rcases hseen with rfl | ⟨b, hb, rfl⟩
    · rw [cancelStep_of_same hc hsame, fixedGates_cons_of_classical hk]
    · calc fixedGates (cancelStep (b :: k :: rest) g) = fixedGates (b :: rest) := by rw [cancelStep_of_barrier hc hb hsame]
        _ = fixedGates [b] ++ fixedGates rest := fixedGates_append [b] rest
        _ = fixedGates [b] ++ fixedGates (k :: rest) := by rw [fixedGates_cons_of_classical hk]
        _ = fixedGates (b :: k :: rest) := (fixedGates_append [b] (k :: rest)).symm

/-- Cancelling leaves all barriers and black boxes, in their order. -/
theorem fixedGates_cancelPairs (gs : List Gate) : fixedGates (cancelPairs gs) = fixedGates gs := by
  refine cancelPairs_induction (P := fun _ => True) (R := fun l k => fixedGates k = fixedGates l) (fun _ => rfl)
    (fun h₁ h₂ => h₂.trans h₁) (fun {seen g} l _ _ => ?_) fun _ _ => trivial
  calc fixedGates ((cancelStep seen g).reverse ++ l) = (fixedGates (g :: seen)).reverse ++ fixedGates l := by
        rw [fixedGates_append, fixedGates_reverse, fixedGates_cancelStep]
    _ = fixedGates (seen.reverse ++ g :: l) := by
        rw [← fixedGates_reverse, ← fixedGates_append, List.reverse_cons, List.append_assoc, List.singleton_append]

/-- Nothing cancels when the gates, the latest of which is first in the list, are taken one by one. -/
def Irreducible : List Gate → Prop
  | [] => True
  | g :: seen => cancelStep seen g = g :: seen ∧ Irreducible seen

theorem irreducible_nil : Irreducible [] := trivial

/-- One more gate leaves nothing that cancels. -/
theorem irreducible_cancelStep (h : Irreducible seen) (g : Gate) : Irreducible (cancelStep seen g) := by
  rcases cancelStep_cases seen g with hpush | ⟨k, rest, hc, hsame, rfl | ⟨b, hb, rfl⟩⟩
  · rw [hpush]
    exact ⟨hpush, h⟩
  · rw [cancelStep_of_same hc hsame]
    exact h.2
  · -- the barrier stays, and a barrier cancels with nothing
    have hkind : b.kind.isClassical = false := by
      rw [Bool.eq_false_iff]
      exact fun hclassical => by simp [GateKind.isBarrier_of_isClassical hclassical] at hb
    rw [cancelStep_of_barrier hc hb hsame]
    exact ⟨by simp [cancelStep, hkind], h.2.2⟩

/-- The scan leaves nothing to cancel. -/
theorem irreducible_foldl (gs : List Gate) : Irreducible (gs.foldl cancelStep []) :=
  List.foldlRecOn gs cancelStep irreducible_nil fun _ h g _ => irreducible_cancelStep h g

/-- In what is left nothing cancels. -/
theorem cancelPairs_cancelPairs (gs : List Gate) : cancelPairs (cancelPairs gs) = cancelPairs gs := by
  have hsame : ∀ seen : List Gate, Irreducible seen → seen.reverse.foldl cancelStep [] = seen := by
    intro seen
    induction seen with
    | nil => exact fun _ => rfl
    | cons g seen ih =>
      intro h
      rw [List.reverse_cons, List.foldl_append, ih h.2]
      exact h.1
  unfold cancelPairs
  rw [hsame _ (irreducible_foldl gs)]

/-! ## Running what is left -/

/-- The first black box stays the first. -/
theorem find?_cancelPairs (gs : List Gate) :
    (cancelPairs gs).find? (fun k => k.kind.isBlackBox) = gs.find? fun k => k.kind.isBlackBox := by
  have hfixed : ∀ gs : List Gate,
      (fixedGates gs).find? (fun k => k.kind.isBlackBox) = gs.find? fun k => k.kind.isBlackBox := by
    intro gs
    rw [fixedGates, List.find?_filter]
    congr 1
    funext k
    cases k.kind <;> rfl
  rw [← hfixed, fixedGates_cancelPairs, hfixed]

/-- The gates that are left run as all gates do, to the same bits or to the same black box. -/
theorem runGates_cancelPairs {s : Register} (hfit : ∀ g ∈ gs, g.Fits s.size) : runGates (cancelPairs gs) s = runGates gs s := by
  have hfit' : ∀ g ∈ cancelPairs gs, g.Fits s.size := fun g hg => hfit g (mem_cancelPairs hg)
  cases hfind : gs.find? fun k => k.kind.isBlackBox with
  | some g => rw [runGates_eq_error hfit hfind, runGates_eq_error hfit' ((find?_cancelPairs gs).trans hfind)]
  | none =>
    have hbox : ∀ g ∈ gs, g.kind.isBlackBox = false := by simpa using hfind
    obtain ⟨t, hrun, hsize, hbits⟩ := runGates_eq hfit hbox
    obtain ⟨t', hrun', hsize', hbits'⟩ := runGates_eq hfit' fun g hg => hbox g (mem_cancelPairs hg)
    have hsame : t'.bits = t.bits := by rw [hbits, hbits', actGates_cancelPairs hfit]
    rw [hrun, hrun', Register.eq_of_bits (hsize'.trans hsize.symm) hsame]

namespace Circuit

variable {c : Circuit}

/-- Taking out gates that cancel does not change what a simulation finds. -/
theorem simulate_removeIdentities (hfit : ∀ g ∈ c.gates, g.Fits c.numQubits) (initial : List Bool) :
    c.removeIdentities.1.simulate initial = c.simulate initial := by
  have hqubits : c.removeIdentities.1.numQubits = c.numQubits := rfl
  have hgates : c.removeIdentities.1.gates = cancelPairs c.gates := rfl
  unfold simulate
  rw [hqubits, hgates]
  split
  · rfl
  · next hlen => exact runGates_cancelPairs (by rw [Register.size_fill (Nat.not_lt.1 hlen)]; exact hfit)

/-- A simulation on a row that is not too long gives bits or ends at a black box, if the gates fit the register. -/
theorem simulate_cases (hfit : ∀ g ∈ c.gates, g.Fits c.numQubits) {initial : List Bool} (hlen : initial.length ≤ c.numQubits) :
    (∃ s, c.simulate initial = .ok s) ∨ ∃ name, c.simulate initial = .error (.nonClassicalGate name) := by
  have hfit' : ∀ g ∈ c.gates,
      g.Fits (initial ++ List.replicate (c.numQubits - initial.length) false).toArray.size := by
    rw [Register.size_fill hlen]
    exact hfit
  unfold simulate
  rw [if_neg (Nat.not_lt.2 hlen)]
  cases hfind : c.gates.find? fun k => k.kind.isBlackBox with
  | some g => exact Or.inr ⟨g.name, runGates_eq_error hfit' hfind⟩
  | none =>
    obtain ⟨t, hrun, -⟩ := runGates_eq hfit' (by simpa using hfind)
    exact Or.inl ⟨t, hrun⟩

/-- Cancelling leaves no more gates than there were. -/
theorem numGates_removeIdentities_le (c : Circuit) : c.removeIdentities.1.numGates ≤ c.numGates :=
  (cancelPairs_sublist c.gates).countP_le

/-- The gates that are gone are those that cancelling says, for no barrier is gone. -/
theorem numGates_removeIdentities (c : Circuit) : c.removeIdentities.1.numGates + c.removeIdentities.2 = c.numGates := by
  have hbefore := length_eq_countP_add c.gates
  have hafter := length_eq_countP_add (cancelPairs c.gates)
  have hle := (cancelPairs_sublist c.gates).length_le
  rw [fixedGates_cancelPairs] at hafter
  change (cancelPairs c.gates).countP (fun g => !g.kind.isBarrier) + (c.gates.length - (cancelPairs c.gates).length) =
    c.gates.countP fun g => !g.kind.isBarrier
  omega

/-- Cancelling a second time takes nothing away. -/
theorem removeIdentities_removeIdentities (c : Circuit) :
    c.removeIdentities.1.removeIdentities = (c.removeIdentities.1, 0) := by
  have hgates := cancelPairs_cancelPairs c.gates
  unfold removeIdentities
  dsimp only
  rw [hgates, Nat.sub_self]

/-- Cancelling in a circuit of accepted gates takes away as many gates as it says, leaves the barriers and black boxes with their
qubits and parameters in their order, and changes no simulation: from the same start it leads to the same bits, or ends at a black
box of the same name. -/
theorem removeIdentities_preserves (hvalid : ∀ g ∈ c.gates, c.validate g = .ok ()) :
    c.removeIdentities.1.numGates + c.removeIdentities.2 = c.numGates ∧
      c.removeIdentities.1.gates.filter (fun g => !g.kind.isClassical) = c.gates.filter (fun g => !g.kind.isClassical) ∧
      ∀ initial, c.removeIdentities.1.simulate initial = c.simulate initial ∧ (initial.length ≤ c.numQubits →
        (∃ s, c.simulate initial = .ok s) ∨ ∃ name, c.simulate initial = .error (.nonClassicalGate name)) := by
  have hfit : ∀ g ∈ c.gates, g.Fits c.numQubits := fun g hg => validate_eq_ok_iff.1 (hvalid g hg)
  exact ⟨c.numGates_removeIdentities, fixedGates_cancelPairs c.gates, fun initial =>
    ⟨simulate_removeIdentities hfit initial, fun hlen => simulate_cases hfit hlen⟩⟩

/-- Two flips with one parameter around a barrier and two controlled flips around these, then a black box, and two flips whose
parameter is a NaN. -/
def nestedPairs : Circuit where
  name := "nestedPairs"
  labels := ["q0", "q1"]
  gates := [.cx 0 1, { kind := .x, qubits := [0], param := some ⟨0x3fe0000000000000⟩ }, { kind := .barrier, qubits := [0, 1] },
    { kind := .x, qubits := [0], param := some ⟨0x3fe0000000000000⟩ }, .cx 0 1, { kind := .blackBox "u", qubits := [1] },
    { kind := .x, qubits := [0], param := some ⟨0x7ff8000000000000⟩ },
    { kind := .x, qubits := [0], param := some ⟨0x7ff8000000000000⟩ }]

/-- The four gates around the barrier go. The simulation ends at the black box before and after. -/
theorem removeIdentities_preserves_nestedPairs :
    nestedPairs.removeIdentities.2 = 4 ∧ nestedPairs.removeIdentities.1.numGates + 4 = nestedPairs.numGates ∧
      nestedPairs.removeIdentities.1.gates.filter (fun g => !g.kind.isClassical) =
        [{ kind := .barrier, qubits := [0, 1] }, { kind := .blackBox "u", qubits := [1] }] ∧
      nestedPairs.removeIdentities.1.simulate [true] = .error (.nonClassicalGate "u") := by
  have hvalid : ∀ g ∈ nestedPairs.gates, (nestedPairs.validate g).isOk = true := by decide +kernel
  obtain ⟨hnum, hfixed, hsim⟩ := removeIdentities_preserves fun g hg => (Outcome.exists_of_isOk (hvalid g hg)).choose_spec
  have hgone : nestedPairs.removeIdentities.2 = 4 := by decide +kernel
  rw [hgone] at hnum
  exact ⟨hgone, hnum, hfixed.trans (by decide +kernel), (hsim [true]).1.trans rfl⟩

end Circuit

end ReversibleLogic
