import ReversibleLogic.Proofs.Compile.Correct
import ReversibleLogic.Proofs.Optimize.Total
import ReversibleLogic.Proofs.Pass.Verification
import ReversibleLogic.Proofs.Simplify

/-!
# From a program to a verified circuit

A compiled program goes through the passes of a plan. Each pass leaves a circuit that can stand for the compiled one: it has the
same register and names, and does the same from every start in which all qubits but the arguments are at 0
(`Circuit.StandsFor`). So no pass fails, the verification at the end included, and the circuit that is left computes what the
program does (`pipeline_correct`).
-/

namespace ReversibleLogic

/-! ## Circuits that can stand for another -/

/-- `d` has the register and the names of `c`, and does what `c` does from every start with 0 on all but the first `k` qubits. -/
structure Circuit.StandsFor (k : Nat) (c d : Circuit) : Prop where
  labels : d.labels = c.labels
  names : d.names = c.names
  flips : ∀ g ∈ d.gates, g.Flips c.numQubits
  final : ∀ s₀ : Bits, (∀ q, k ≤ q → s₀ q = false) → d.final s₀ = c.final s₀

namespace Circuit.StandsFor

variable {k : Nat} {c d : Circuit}

theorem numQubits (h : c.StandsFor k d) : d.numQubits = c.numQubits := congrArg List.length h.labels

theorem refl (hflips : ∀ g ∈ c.gates, g.Flips c.numQubits) : c.StandsFor k c := ⟨rfl, rfl, hflips, fun _ _ => rfl⟩

/-- Cancelling equal neighbours leaves a circuit that can stand for the other. -/
theorem removeIdentities (h : c.StandsFor k d) : c.StandsFor k d.removeIdentities.1 := by
  refine ⟨h.labels, h.names, fun g hg => h.flips g (mem_cancelPairs hg), fun s₀ hzero => ?_⟩
  exact (actGates_cancelPairs (fun g hg => (h.flips g hg).fits) s₀).trans (h.final s₀ hzero)

/-- Optimization succeeds and leaves a circuit that can stand for the other. -/
theorem optimize (h : c.StandsFor k d) (options : Options) :
    ∃ d', Optimizer.optimize { options } d (some (List.range k)) = .ok d' ∧ c.StandsFor k d' := by
  have hfit : ∀ g ∈ d.gates, g.Fits d.numQubits := fun g hg => h.numQubits ▸ (h.flips g hg).fits
  have hsimp : ∀ e : Expression, e.isBoolean = true →
      ((Simplifier.algebraic Simplifier.defaultRounds).simplify e).isBoolean = true :=
    fun e => Simplifier.isBoolean_algebraic Simplifier.defaultRounds
  obtain ⟨d', hd', hnames, hgates⟩ := Optimizer.optimize_total (o := { options }) hfit hsimp (some (List.range k))
  have hact : ∀ s₀ : Bits, (∀ q, k ≤ q → s₀ q = false) → d'.labels = d.labels ∧ (∀ g ∈ d'.gates, g.Fits d.numQubits) ∧
      actGates .idle d'.gates s₀ = actGates .idle d.gates s₀ := by
    intro s₀ hzero
    refine Optimizer.act_optimize .idle hfit hsimp hd' fun l hl q hq => hzero q ?_
    rw [← Option.some.inj hl, List.mem_range] at hq
    exact Nat.not_lt.1 hq
  obtain ⟨hlabels, hfit', -⟩ := hact (fun _ => false) fun _ _ => rfl
  refine ⟨d', hd', hlabels.trans h.labels, hnames.trans h.names, fun g hg => ⟨?_, h.numQubits ▸ hfit' g hg⟩, fun s₀ hzero => ?_⟩
  · rcases hgates g hg with hold | hclassical
    · exact (h.flips g hold).classical
    · exact hclassical
  · exact (hact s₀ hzero).2.2.trans (h.final s₀ hzero)

end Circuit.StandsFor

/-! ## Circuits that leave no garbage -/

/-- From every row of values for the first `k` qubits, with all others at 0, the circuit leaves these qubits as they were, and so
every other qubit that is not one of the outputs. -/
structure Circuit.Uncomputes (k : Nat) (outputs : List Qubit) (c : Circuit) : Prop where
  width : k ≤ c.numQubits
  flips : ∀ g ∈ c.gates, g.Flips c.numQubits
  kept : ∀ row : List Bool, row.length = k → ∀ q, q < k ∨ q ∉ outputs → c.final (.ofRow row) q = Bits.ofRow row q

namespace Circuit.Uncomputes

variable {k : Nat} {outputs : List Qubit} {c d : Circuit}

/-- Beyond the first qubits a row has 0. -/
theorem ofRow_of_le {row : List Bool} (hrow : row.length = k) {q : Qubit} (hq : k ≤ q) : Bits.ofRow row q = false := by
  rw [Bits.ofRow, List.getElem?_eq_none (hrow ▸ hq)]
  rfl

/-- A circuit that can stand for one that leaves no garbage leaves none. -/
theorem of_standsFor (h : c.Uncomputes k outputs) (hd : c.StandsFor k d) : d.Uncomputes k outputs := by
  refine ⟨hd.numQubits ▸ h.width, hd.numQubits ▸ hd.flips, fun row hrow q hq => ?_⟩
  rw [hd.final _ fun q => ofRow_of_le hrow]
  exact h.kept row hrow q hq

/-- A circuit that leaves no garbage passes the verification. -/
theorem verify (h : c.Uncomputes k outputs) {maxInputs : Nat} (hmax : k ≤ maxInputs) :
    verifyUncomputed c (List.range k) outputs maxInputs = .ok () := by
  have hbox : ∀ g ∈ c.gates, g.kind.isBlackBox = false := fun g hg => GateKind.isBlackBox_of_isClassical (h.flips g hg).classical
  refine (verifyUncomputed_eq_ok_iff (fun g hg => (h.flips g hg).fits) hbox List.nodup_range
    (fun q hq => Nat.lt_of_lt_of_le (List.mem_range.1 hq) h.width) (by rwa [List.length_range])).2 fun b hzero => ?_
  obtain ⟨row, hrow, rfl⟩ := Bits.exists_ofRow fun q hq => hzero q fun hmem => Nat.not_lt.2 hq (List.mem_range.1 hmem)
  refine ⟨fun q hq _ => h.kept row hrow q (Or.inl (List.mem_range.1 hq)), fun q _ hin hout => ?_⟩
  rw [h.kept row hrow q (Or.inr hout)]
  exact hzero q hin

end Circuit.Uncomputes

/-! ## Runs of passes -/

/-- What every pass that is made keeps, without failing, holds after all passes, and none of them fails. -/
theorem runPasses_spec {P : Circuit → Prop} {l : List Pass}
    (hl : ∀ p ∈ l, ∀ c, P c → p.shouldRun c = true → ∃ d, p.run c = .ok d ∧ P d) :
    ∀ {c : Circuit}, P c → ∃ d, runPasses l c = (d, none) ∧ P d := by
  induction l with
  | nil => exact fun {c} hc => ⟨c, rfl, hc⟩
  | cons p l ih =>
    intro c hc
    have hrest := @ih fun q hq => hl q (List.mem_cons_of_mem p hq)
    unfold runPasses
    split
    · next hrun =>
      obtain ⟨d, hd, hP⟩ := hl p List.mem_cons_self c hc hrun
      rw [hd]
      exact hrest hP
    · exact hrest hc

/-- The passes of a plan. -/
theorem PassPlan.mem_passes {plan : PassPlan} {p : Pass} (h : p ∈ plan.passes) :
    p = .booleanOptimization plan.preserve plan.options ∨ p = .removeIdentities ∨
      ∃ v, plan.verify = some v ∧ p = .verification v.1 v.2 plan.options.maxVerifyInputs := by
  unfold passes at h
  dsimp only at h
  rw [List.mem_append, List.mem_append, List.mem_append] at h
  rcases h with ((h | h) | h) | h
  · exact Or.inl (List.mem_singleton.1 (List.mem_ite_nil_right.1 h).2)
  · exact Or.inl (List.mem_singleton.1 (List.mem_ite_nil_right.1 h).2)
  · exact Or.inr (Or.inl (List.mem_singleton.1 (List.mem_ite_nil_right.1 h).2))
  · split at h
    · next inputs outputs hv => exact Or.inr (Or.inr ⟨(inputs, outputs), hv, List.mem_singleton.1 h⟩)
    · cases h

/-! ## The pipeline -/

/-- The plan of a level for a circuit whose inputs are the first `k` qubits: all other qubits start at 0, and at the end the
circuit is verified. -/
def PassPlan.verified (level : Nat) (options : Options) (k : Nat) (outputs : List Qubit) : PassPlan :=
  { level, options, preserve := some (List.range k), verify := some (List.range k, outputs) }

/-- Each pass that is made on a circuit in the place of one that leaves no garbage succeeds. -/
theorem Circuit.Uncomputes.passes {k : Nat} {outputs : List Qubit} {c : Circuit} (h : c.Uncomputes k outputs) (level : Nat)
    (options : Options) : ∀ p ∈ (PassPlan.verified level options k outputs).passes, ∀ d, c.StandsFor k d →
      p.shouldRun d = true → ∃ d', p.run d = .ok d' ∧ c.StandsFor k d' := by
  intro p hp d hd hrun
  rcases PassPlan.mem_passes hp with rfl | rfl | ⟨v, hv, rfl⟩
  · exact hd.optimize options
  · exact ⟨_, rfl, hd.removeIdentities⟩
  · obtain rfl := Option.some.inj hv
    rw [Pass.verification, Pass.shouldRun, Bool.and_eq_true, decide_eq_true_eq, List.length_range] at hrun
    exact ⟨d, Outcome.bind_eq_ok.2 ⟨(), (h.of_standsFor hd).verify hrun.1, rfl⟩, hd⟩

section Compiled

variable {p : Program} {options : Options} {c : Circuit}

/-- What a compiled program that rewinds does on one row of argument bits: the qubits of its outputs hold the values of the
program, the arguments are kept, and nothing else is left behind. -/
theorem compile_row (hbool : ∀ a ∈ p.assignments, a.expr.isBoolean = true) (htrue : "TRUE" ∉ p.outputs)
    (hfalse : "FALSE" ∉ p.outputs) (huncompute : options.uncompute = true) (hc : p.compile options = .ok c)
    {row : List Bool} (hrow : row.length = p.inputSymbols.length) :
    ∃ outs : List Qubit, p.outputs.map c.qubit? = outs.map some ∧ row.length ≤ c.numQubits ∧
      (∀ q ∈ outs, q < c.numQubits) ∧ (∀ g ∈ c.gates, g.Flips c.numQubits) ∧
      (∀ q, q < row.length ∨ q ∉ outs → c.final (.ofRow row) q = Bits.ofRow row q) ∧
      p.evaluate row = .ok (outs.map (c.final (.ofRow row))) := by
  obtain ⟨w, keep, ρ, hρ, hw, hk, hopt, hout, hkeep, rfl⟩ := compile_cases hbool hrow hc
  have hpair := hk.pairwise_keep (hout ▸ hkeep)
  obtain ⟨hlabels, hnames, hgates, hfinal⟩ := Workspace.finish_spec hw fun q hq => by
    obtain ⟨o, -, -, h⟩ := hpair q hq
    exact h
  have hnum : (w.finish keep).numQubits = w.circuit.numQubits := congrArg List.length hlabels
  refine ⟨keep, ?_, hnum ▸ hk.inputs_le, fun q hq => ?_, hnum ▸ hgates, fun q hq => ?_, ?_⟩
  · rw [← hkeep]
    refine List.map_congr_left fun o ho => ?_
    rw [Circuit.qubit?, hnames]
    exact hw.names o (fun h => htrue (h ▸ ho)) fun h => hfalse (h ▸ ho)
  · obtain ⟨o, -, hoq, -⟩ := hpair q hq
    exact hnum ▸ (hw.sound.env_inUse hoq).1
  · by_cases hmem : q ∈ keep
    · -- the qubit of an argument that is an output has not been changed
      obtain ⟨o, ho, hoq, -⟩ := hpair q hmem
      rw [hfinal, if_neg fun h => h.2 hmem, Circuit.final, hw.log]
      exact actLog_of_forall_ne (fun e he => (hw.entries e he).1)
        (hk.input o ho q hoq (hq.resolve_right fun h => h hmem)) _
    · rw [hfinal, if_pos ⟨by rw [hopt, huncompute], hmem⟩]
  · have hvalues : keep.map ((w.finish keep).final (.ofRow row)) = keep.map (w.circuit.final (.ofRow row)) :=
      List.map_congr_left fun q hq => by rw [hfinal, if_neg fun h => h.2 hq]
    rw [hvalues]
    unfold Program.evaluate
    dsimp only
    rw [if_neg (by simp [hrow]), hρ]
    exact hw.read hkeep

/-- A compiled program that rewinds leaves no garbage, and its outputs are on the same qubits for all rows. -/
theorem compile_uncomputes (hbool : ∀ a ∈ p.assignments, a.expr.isBoolean = true) (htrue : "TRUE" ∉ p.outputs)
    (hfalse : "FALSE" ∉ p.outputs) (huncompute : options.uncompute = true) (hc : p.compile options = .ok c) :
    ∃ outs : List Qubit, p.outputs.map c.qubit? = outs.map some ∧ (∀ q ∈ outs, q < c.numQubits) ∧
      c.Uncomputes p.inputSymbols.length outs ∧
      ∀ row, row.length = p.inputSymbols.length → p.evaluate row = .ok (outs.map (c.final (.ofRow row))) := by
  obtain ⟨outs, houts, hwidth, hlt, hflips, -⟩ := compile_row hbool htrue hfalse huncompute hc
    (List.length_replicate : (List.replicate p.inputSymbols.length false).length = _)
  rw [List.length_replicate] at hwidth
  have hrows : ∀ row : List Bool, row.length = p.inputSymbols.length →
      (∀ q, q < row.length ∨ q ∉ outs → c.final (.ofRow row) q = Bits.ofRow row q) ∧
      p.evaluate row = .ok (outs.map (c.final (.ofRow row))) := by
    intro row hrow
    obtain ⟨outs', houts', -, -, -, hrest⟩ := compile_row hbool htrue hfalse huncompute hc hrow
    have hsame : outs' = outs := List.map_injective_iff.2 (Option.some_injective Qubit) (houts'.symm.trans houts)
    exact hsame ▸ hrest
  exact ⟨outs, houts, hlt, ⟨hwidth, hflips, fun row hrow q hq => (hrows row hrow).1 q (hrow ▸ hq)⟩,
    fun row hrow => (hrows row hrow).2⟩

/-- A compiled program goes through the passes of every level, and is a circuit for the program at the end. No pass fails; in
particular the verification finds that the arguments are kept and that nothing but the outputs is left behind. On every row of
argument bits the program has values, the circuit that the passes leave can be simulated, and the qubits of the outputs hold these
values, one by one. -/
theorem pipeline_correct (hbool : ∀ a ∈ p.assignments, a.expr.isBoolean = true) (htrue : "TRUE" ∉ p.outputs)
    (hfalse : "FALSE" ∉ p.outputs) (huncompute : options.uncompute = true) (hc : p.compile options = .ok c) (level : Nat) :
    ∃ (outs : List Qubit) (d : Circuit), p.outputs.map c.qubit? = outs.map some ∧
      runPasses (PassPlan.verified level options p.inputSymbols.length outs).passes c = (d, none) ∧
      ∀ row, row.length = p.inputSymbols.length → ∃ v s, p.evaluate row = .ok v ∧ d.simulate row = .ok s ∧
        p.outputs.map (fun o => (d.qubit? o).bind fun q => s[q]?) = v.map some := by
  obtain ⟨outs, houts, hlt, hclean, hvalue⟩ := compile_uncomputes hbool htrue hfalse huncompute hc
  obtain ⟨d, hrun, hd⟩ := runPasses_spec (hclean.passes level options) (.refl hclean.flips)
  refine ⟨outs, d, houts, hrun, fun row hrow => ?_⟩
  obtain ⟨s, hs, hbit⟩ := Circuit.simulate_bits hd.numQubits hd.flips (hrow ▸ hclean.width)
  refine ⟨_, s, hvalue row hrow, hs, ?_⟩
  have hfinal : d.final (.ofRow row) = c.final (.ofRow row) := hd.final _ fun q => Circuit.Uncomputes.ofRow_of_le hrow
  have hqubit : ∀ o, d.qubit? o = c.qubit? o := fun o => by rw [Circuit.qubit?, hd.names, Circuit.qubit?]
  calc p.outputs.map (fun o => (d.qubit? o).bind fun q => s[q]?)
      = (p.outputs.map c.qubit?).map (fun r => r.bind fun q => s[q]?) := by
        rw [List.map_map]
        exact List.map_congr_left fun o _ => congrArg (·.bind fun q => s[q]?) (hqubit o)
    _ = outs.map (fun q => s[q]?) := by
        rw [houts, List.map_map]
        rfl
    _ = (outs.map (c.final (.ofRow row))).map some := by
        rw [List.map_map]
        exact List.map_congr_left fun q hq => by rw [hbit q (hlt q hq), hfinal]; rfl

end Compiled

/-- NAND in place goes through two optimizations, the cancelling and the verification, and still gives 0 on two set bits. -/
theorem pipeline_correct_nand : ∃ c outs d s, Program.nandInPlace.compile {} = .ok c ∧
    runPasses (PassPlan.verified 3 {} 2 outs).passes c = (d, none) ∧ d.simulate [true, true] = .ok s ∧
    (d.qubit? "b").bind (fun q => s[q]?) = some false := by
  obtain ⟨c, hc⟩ := Outcome.exists_of_isOk (x := Program.nandInPlace.compile {}) (by decide +kernel)
  obtain ⟨outs, d, -, hrun, hrows⟩ := pipeline_correct (by decide) (by decide) (by decide) rfl hc 3
  obtain ⟨v, s, hv, hs, hbits⟩ := hrows [true, true] rfl
  have hvalue : (Program.nandInPlace.evaluate [true, true]).toOption = some [false] := by decide +kernel
  rw [hv] at hvalue
  obtain rfl : v = [false] := Option.some.inj hvalue
  exact ⟨c, outs, d, s, hc, hrun, hs, by simpa [Program.nandInPlace] using hbits⟩

end ReversibleLogic
