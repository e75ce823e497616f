import ReversibleLogic.Proofs.Optimize.Size
import ReversibleLogic.Proofs.Pass.Pipeline

/-!
# Levels of optimization

A higher level makes more passes, and no pass adds gates. Still a higher level does not always leave fewer gates. The optimizer
compares what it found with the section as it stands, and at level 1 cancelling may take more from the section than the optimizer
does (`not_numGates_antitone_level`). From any other level raising the level never leaves more gates, for what the optimizer gives
at level 2 has nothing in it that cancels. Raised from level 1, it leaves fewer gates than the circuit has, or no more than
cancelling does. So with `k` gates taken away at level 1 it leaves at most `k - 1` more (`numGates_antitone_level`), and there are
circuits where it leaves as many.
-/

namespace ReversibleLogic

variable {c d : Circuit} {options : Options} {preserve : Option (List Qubit)}

/-- The plan of a level without verification. -/
def PassPlan.unverified (level : Nat) (options : Options) (preserve : Option (List Qubit)) : PassPlan :=
  { level, options, preserve }

/-! ## One pass -/

/-- A circuit whose gates fit can be optimized, and the gates of the result fit. -/
theorem Circuit.optimize_step (hfit : ∀ g ∈ c.gates, g.Fits c.numQubits) (options : Options) (preserve : Option (List Qubit)) :
    ∃ d, Optimizer.optimize { options } c preserve = .ok d ∧ ∀ g ∈ d.gates, g.Fits d.numQubits := by
  have hsimp : ∀ e : Expression, e.isBoolean = true →
      ((Simplifier.algebraic Simplifier.defaultRounds).simplify e).isBoolean = true :=
    fun e => Simplifier.isBoolean_algebraic Simplifier.defaultRounds
  obtain ⟨d, hd, -, -⟩ := Optimizer.optimize_total (o := { options }) hfit hsimp preserve
  obtain ⟨hlabels, hfit', -⟩ := Optimizer.act_optimize (b := fun _ => false) .idle hfit hsimp hd fun _ _ _ _ => rfl
  have hnum : d.numQubits = c.numQubits := congrArg List.length hlabels
  exact ⟨d, hd, hnum ▸ hfit'⟩

/-- A pipeline that begins with the optimizer goes on with what the optimizer gives. -/
theorem runPasses_optimize (hd : Optimizer.optimize { options } c preserve = .ok d) (rest : List Pass) :
    runPasses (.booleanOptimization preserve options :: rest) c = runPasses rest d := by
  have hrun : (Pass.booleanOptimization preserve options).run c = .ok d := hd
  rw [runPasses, if_pos (show (Pass.booleanOptimization preserve options).shouldRun c = true from rfl), hrun]

/-! ## One level -/

/-- The passes of every level leave gates that fit, and no more than there were. -/
theorem runPasses_le (hfit : ∀ g ∈ c.gates, g.Fits c.numQubits) (level : Nat) (options : Options)
    (preserve : Option (List Qubit)) :
    ∃ d, runPasses (PassPlan.unverified level options preserve).passes c = (d, none) ∧ d.numGates ≤ c.numGates := by
  let P (d : Circuit) : Prop := (∀ g ∈ d.gates, g.Fits d.numQubits) ∧ d.numGates ≤ c.numGates
  have hpass : ∀ p ∈ (PassPlan.unverified level options preserve).passes, ∀ d, P d → p.shouldRun d = true →
      ∃ d', p.run d = .ok d' ∧ P d' := by
    rintro p hp d ⟨hdfit, hdle⟩ -
    rcases PassPlan.mem_passes hp with rfl | rfl | ⟨v, hv, -⟩
    · obtain ⟨d', hd', hfit'⟩ := d.optimize_step hdfit options preserve
      exact ⟨d', hd', hfit', (Optimizer.numGates_optimize_le hdfit hd').trans hdle⟩
    · exact ⟨_, rfl, fun g hg => hdfit g (mem_cancelPairs hg), (d.numGates_removeIdentities_le).trans hdle⟩
    · cases hv
  obtain ⟨d, hrun, -, hle⟩ := runPasses_spec hpass ⟨hfit, Nat.le_refl _⟩
  exact ⟨d, hrun, hle⟩

/-- Level 1 takes no more gates away than cancelling does. -/
theorem le_runPasses_one (c : Circuit) (options : Options) (preserve : Option (List Qubit)) :
    ∃ d, runPasses (PassPlan.unverified 1 options preserve).passes c = (d, none) ∧
      c.numGates ≤ d.numGates + c.removeIdentities.2 := by
  change ∃ d, runPasses [.removeIdentities] c = (d, none) ∧ c.numGates ≤ d.numGates + c.removeIdentities.2
  unfold runPasses
  split
  · exact ⟨_, rfl, Nat.le_of_eq c.numGates_removeIdentities.symm⟩
  -- a circuit of at most one gate is left alone
  · exact ⟨c, rfl, Nat.le_add_right _ _⟩

/-- Level 2 optimizes and goes on as level 1. -/
theorem passes_two : (PassPlan.unverified 2 options preserve).passes =
    .booleanOptimization preserve options :: (PassPlan.unverified 1 options preserve).passes := rfl

/-- Every higher level optimizes and goes on as level 2. -/
theorem passes_three (n : Nat) : (PassPlan.unverified (n + 3) options preserve).passes =
    .booleanOptimization preserve options :: (PassPlan.unverified 2 options preserve).passes := by
  simp [PassPlan.unverified, PassPlan.passes]

/-! ## Two levels -/

/-- A higher level optimizes what level 2 optimizes once more, and level 2 left nothing that cancels. -/
theorem runPasses_two_le (hfit : ∀ g ∈ c.gates, g.Fits c.numQubits) (n : Nat) (options : Options)
    (preserve : Option (List Qubit)) :
    ∃ d e, runPasses (PassPlan.unverified 2 options preserve).passes c = (d, none) ∧
      runPasses (PassPlan.unverified (n + 3) options preserve).passes c = (e, none) ∧ e.numGates ≤ d.numGates := by
  obtain ⟨c₁, hc₁, hfit₁⟩ := c.optimize_step hfit options preserve
  obtain ⟨hnone, -⟩ := Optimizer.numGates_optimize hfit hc₁
  obtain ⟨d, hd, hled⟩ := le_runPasses_one c₁ options preserve
  obtain ⟨e, he, hle⟩ := runPasses_le hfit₁ 2 options preserve
  rw [hnone, Nat.add_zero] at hled
  exact ⟨d, e, by rw [passes_two, runPasses_optimize hc₁, hd], by rw [passes_three, runPasses_optimize hc₁, he], hle.trans hled⟩

/-- From level 2 on the optimizer comes first. It replaces no section, and then no more gates are left than by cancelling, or there
are fewer gates than in the circuit. -/
theorem runPasses_above_one (hfit : ∀ g ∈ c.gates, g.Fits c.numQubits) {j : Nat} (hj : 2 ≤ j) (options : Options)
    (preserve : Option (List Qubit)) :
    ∃ e, runPasses (PassPlan.unverified j options preserve).passes c = (e, none) ∧
      (e.numGates ≤ c.removeIdentities.1.numGates ∨ e.numGates < c.numGates) := by
  obtain ⟨c₁, hc₁, hfit₁⟩ := c.optimize_step hfit options preserve
  obtain ⟨i, hpasses⟩ : ∃ i, (PassPlan.unverified j options preserve).passes =
      .booleanOptimization preserve options :: (PassPlan.unverified i options preserve).passes := by
    rcases Nat.eq_or_lt_of_le hj with rfl | hlt
    · exact ⟨1, passes_two⟩
    · obtain ⟨n, rfl⟩ : ∃ n, j = n + 3 := ⟨j - 3, by omega⟩
      exact ⟨2, passes_three n⟩
  obtain ⟨e, he, hle⟩ := runPasses_le hfit₁ i options preserve
  refine ⟨e, by rw [hpasses, runPasses_optimize hc₁, he], ?_⟩
  rcases (Optimizer.numGates_optimize hfit hc₁).2 with hsame | hfewer
  · exact Or.inl (hsame ▸ hle)
  · exact Or.inr (Nat.lt_of_le_of_lt hle hfewer)

/-- Raising the level leaves no more gates, unless it is raised from level 1. If cancelling alone takes `k` gates from the circuit,
then raising the level from 1 leaves at most `k - 1` more gates than level 1 does: none if nothing cancels. -/
theorem numGates_antitone_level (hvalid : ∀ g ∈ c.gates, c.validate g = .ok ()) (options : Options)
    (preserve : Option (List Qubit)) {i j : Nat} (hij : i ≤ j) :
    ∃ d e, runPasses (PassPlan.unverified i options preserve).passes c = (d, none) ∧
      runPasses (PassPlan.unverified j options preserve).passes c = (e, none) ∧
      (i ≠ 1 ∨ j = 1 → e.numGates ≤ d.numGates) ∧ e.numGates ≤ d.numGates + (c.removeIdentities.2 - 1) := by
  have hfit : ∀ g ∈ c.gates, g.Fits c.numQubits := fun g hg => Circuit.validate_eq_ok_iff.1 (hvalid g hg)
  obtain ⟨e, he, hle⟩ := runPasses_le hfit j options preserve
  match i, hij with
  | 0, _ => exact ⟨c, e, rfl, he, fun _ => hle, hle.trans (Nat.le_add_right _ _)⟩
  | 1, hij =>
    rcases Nat.eq_or_lt_of_le hij with rfl | hlt
    · exact ⟨e, e, he, he, fun _ => Nat.le_refl _, Nat.le_add_right _ _⟩
    · obtain ⟨d, hd, hled⟩ := le_runPasses_one c options preserve
      obtain ⟨e, he, hle⟩ := runPasses_above_one hfit hlt options preserve
      have hcount := c.numGates_removeIdentities
      refine ⟨d, e, hd, he, fun h => absurd h (by omega), ?_⟩
      rcases hle with hcancelled | hfewer <;> omega
  | 2, hij =>
    rcases Nat.eq_or_lt_of_le hij with rfl | hlt
    · exact ⟨e, e, he, he, fun _ => Nat.le_refl _, Nat.le_add_right _ _⟩
    · obtain ⟨n, rfl⟩ : ∃ n, j = n + 3 := ⟨j - 3, by omega⟩
      obtain ⟨d, e', hd, he', hle'⟩ := runPasses_two_le hfit n options preserve
      exact ⟨d, e', hd, he', fun _ => hle', hle'.trans (Nat.le_add_right _ _)⟩
  | n + 3, hij =>
    -- all levels from 3 on make the same passes
    obtain ⟨m, rfl⟩ : ∃ m, j = m + 3 := ⟨j - 3, by omega⟩
    rw [passes_three] at he
    exact ⟨e, e, by rw [passes_three, he], by rw [passes_three, he], fun _ => Nat.le_refl _, Nat.le_add_right _ _⟩

/-- The conjunction of two qubits is added to a third one, which is added to `n` others; then the first qubit is flipped `k`
times. -/
def Circuit.handedOn (n k : Nat) : Circuit :=
  { Circuit.ofSize "handed on" (n + 3) with
    gates := .ccx 0 1 2 :: (List.range n).map (fun i => .cx 2 (i + 3)) ++ List.replicate k (.x 0) }

/-- With three others and four flips, which cancel, level 2 leaves three gates more than level 1, as many as it may. Level 3 leaves
no more than level 2. -/
theorem numGates_antitone_level_handedOn :
    (Circuit.handedOn 3 4).removeIdentities.2 = 4 ∧
    (∃ d e, runPasses (PassPlan.unverified 1 {} none).passes (Circuit.handedOn 3 4) = (d, none) ∧
      runPasses (PassPlan.unverified 2 {} none).passes (Circuit.handedOn 3 4) = (e, none) ∧
      e.numGates ≤ d.numGates + (4 - 1) ∧ d.numGates = 4 ∧ e.numGates = 7) ∧
    ∃ d e, runPasses (PassPlan.unverified 2 {} none).passes (Circuit.handedOn 3 4) = (d, none) ∧
      runPasses (PassPlan.unverified 3 {} none).passes (Circuit.handedOn 3 4) = (e, none) ∧ e.numGates ≤ d.numGates := by
  have hvalid : ∀ g ∈ (Circuit.handedOn 3 4).gates, (Circuit.handedOn 3 4).validate g = .ok () := by decide +kernel
  have hone : (runPasses (PassPlan.unverified 1 {} none).passes (Circuit.handedOn 3 4)).1.numGates = 4 := by decide +kernel
  have htwo : (runPasses (PassPlan.unverified 2 {} none).passes (Circuit.handedOn 3 4)).1.numGates = 7 := by decide +kernel
  obtain ⟨d, e, hd, he, -, hle⟩ := numGates_antitone_level hvalid {} none (i := 1) (j := 2) (by decide)
  obtain ⟨d', e', hd', he', hle', -⟩ := numGates_antitone_level hvalid {} none (i := 2) (j := 3) (by decide)
  rw [hd] at hone
  rw [he] at htwo
  exact ⟨by decide +kernel, ⟨d, e, hd, he, hle, hone, htwo⟩, d', e', hd', he', hle' (Or.inl (by decide))⟩

/-- Raising the level can leave more gates. Cancelling alone takes away the two flips and leaves two gates. The optimizer computes
the conjunction for the third and for the fourth qubit, which makes three gates; that is less than the four it compares with. -/
theorem not_numGates_antitone_level :
    ¬ ∀ (c : Circuit) (options : Options) (preserve : Option (List Qubit)) (i j : Nat),
      (∀ g ∈ c.gates, c.validate g = .ok ()) → i ≤ j → j ≤ 3 →
        (runPasses (PassPlan.unverified j options preserve).passes c).1.numGates ≤
          (runPasses (PassPlan.unverified i options preserve).passes c).1.numGates := by
  intro h
  exact absurd (h (Circuit.handedOn 1 2) {} none 1 2 (by decide +kernel) (by decide) (by decide)) (by decide +kernel)

end ReversibleLogic
