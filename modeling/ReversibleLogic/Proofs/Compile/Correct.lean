import ReversibleLogic.Proofs.Cancel
import ReversibleLogic.Proofs.Compile.Boundary

/-!
# Compiled programs compute what they should

A compilation ends by rewinding all qubits but those of the outputs, if it is asked to, and by cancelling equal neighbours, if it
is asked to. Rewinding goes through the whole history, earlier rewindings included. It works because the qubit of an output is not
changed once an operation has read it (`Kept`), so that each operation on a rewound qubit finds what it found the first time.
-/

namespace ReversibleLogic

namespace Workspace

variable {ρ : Valuation} {s₀ : Bits} {w w' : Workspace} {k : Nat}

/-! ## The end of a compilation -/

/-- Looking up symbols gives their qubits and changes nothing. -/
theorem lookupAll_eq_ok {w' : Workspace} : ∀ {l : List Symbol} {w : Workspace} {keep : List Qubit},
    lookupAll l w = .ok (keep, w') → w' = w ∧ l.map w.env.get? = keep.map some := by
  intro l
  induction l with
  | nil =>
    intro w keep h
    obtain ⟨rfl, rfl⟩ := Lowering.pure_eq_ok.1 h
    exact ⟨rfl, rfl⟩
  | cons s l ih =>
    intro w keep h
    obtain ⟨q, w₁, hq, hrest⟩ := Lowering.bind_eq_ok.1 h
    obtain ⟨qs, w₂, hqs, hret⟩ := Lowering.bind_eq_ok.1 hrest
    obtain ⟨rfl, rfl⟩ := Lowering.pure_eq_ok.1 hret
    obtain ⟨hq, rfl⟩ := lookup_eq_ok hq
    obtain ⟨rfl, hmap⟩ := ih hqs
    exact ⟨rfl, by rw [List.map_cons, List.map_cons, hq, hmap]⟩

/-- Rewinding all but the kept qubits puts those back to where they started. -/
theorem final_uncomputeAll (hw : Settled ρ s₀ w) {keep : List Qubit}
    (hkeep : ∀ q ∈ keep, w.circuit.history.Pairwise fun e f => q ∈ e.reads → f.target ≠ q) (q : Qubit) :
    (w.circuit.uncomputeAll keep).1.final s₀ q = if q ∈ keep then w.circuit.final s₀ q else s₀ q := by
  have hrev : ∀ e ∈ w.circuit.history, e.Reversible := fun e he => (hw.entries e he).1
  have hlog : w.circuit.final s₀ = actLog w.circuit.history s₀ := by rw [Circuit.final, hw.log, actLog]
  refine Circuit.final_uncomputeAll hrev hlog (List.pairwise_iff_forall_sublist.2 fun {e f} hsub _ hf hcontrol => ?_) q
  have he : e ∈ w.circuit.history := hsub.subset List.mem_cons_self
  exact List.pairwise_iff_forall_sublist.1 (hkeep f.target hf) hsub ((hrev e he).mem_reads_of_controls hcontrol) rfl

/-- The gates of the circuit with qubits rewound fit its register and are of the NOT family. -/
theorem mem_gates_uncomputeAll (hw : Settled ρ s₀ w) {keep : List Qubit} {g : Gate}
    (hg : g ∈ (w.circuit.uncomputeAll keep).1.gates) : g.Flips w.circuit.numQubits := by
  rw [Circuit.uncomputeAll_eq fun e he => (hw.entries e he).1.reverse_eq] at hg
  rcases List.mem_append.1 hg with hg | hg
  · exact hw.flips g hg
  · obtain ⟨e, he, hge⟩ := List.mem_flatMap.1 hg
    exact hw.flips_of_entry (Circuit.mem_rewinding he) g hge

/-- Cancelling equal neighbours, if asked for, changes neither register nor names nor what the gates do. -/
theorem cancelled_spec {c : Circuit} {n : Nat} (hg : ∀ g ∈ c.gates, g.Flips n) (b : Bool) (s₀ : Bits) :
    (if b then c.removeIdentities.1 else c).labels = c.labels ∧ (if b then c.removeIdentities.1 else c).names = c.names ∧
      (∀ g ∈ (if b then c.removeIdentities.1 else c).gates, g.Flips n) ∧
      (if b then c.removeIdentities.1 else c).final s₀ = c.final s₀ := by
  cases b with
  | false => exact ⟨rfl, rfl, hg, rfl⟩
  | true => exact ⟨rfl, rfl, fun g hg' => hg g (mem_cancelPairs hg'), actGates_cancelPairs (fun g hg' => (hg g hg').fits) s₀⟩

/-- What a finished circuit is: it has the register and the names of the workspace's, its gates are of the NOT family and fit, and
they lead to the same values, but for the qubits that have been rewound. -/
theorem finish_spec (hw : Settled ρ s₀ w) {keep : List Qubit}
    (hkeep : ∀ q ∈ keep, w.circuit.history.Pairwise fun e f => q ∈ e.reads → f.target ≠ q) :
    (w.finish keep).labels = w.circuit.labels ∧ (w.finish keep).names = w.circuit.names ∧
      (∀ g ∈ (w.finish keep).gates, g.Flips w.circuit.numQubits) ∧
      ∀ q, (w.finish keep).final s₀ q =
        if w.options.uncompute = true ∧ q ∉ keep then s₀ q else w.circuit.final s₀ q := by
  unfold finish
  dsimp only
  cases hu : w.options.uncompute with
  | true =>
    have hrewound := Circuit.uncomputeAll_eq (fun e he => (hw.entries e he).1.reverse_eq) keep
    have hlabels : (w.circuit.uncomputeAll keep).1.labels = w.circuit.labels := by rw [hrewound]; rfl
    have hnames : (w.circuit.uncomputeAll keep).1.names = w.circuit.names := by rw [hrewound]; rfl
    obtain ⟨h1, h2, h3, h4⟩ := cancelled_spec (fun g hg => mem_gates_uncomputeAll hw hg) w.options.removeIdentities s₀
    refine ⟨h1.trans hlabels, h2.trans hnames, h3, fun q => ?_⟩
    refine (congrFun h4 q).trans ?_
    rw [final_uncomputeAll hw hkeep]
    by_cases hq : q ∈ keep
    · simp [hq]
    · simp [hq]
  | false =>
    obtain ⟨h1, h2, h3, h4⟩ := cancelled_spec hw.flips w.options.removeIdentities s₀
    refine ⟨h1, h2, h3, fun q => ?_⟩
    refine (congrFun h4 q).trans (if_neg ?_).symm
    exact fun h => Bool.noConfusion h.1

/-- The values of symbols are those on their qubits. -/
theorem Settled.read (hw : Settled ρ s₀ w) : ∀ {l : List Symbol} {keep : List Qubit}, l.map w.env.get? = keep.map some →
    ρ.read l = .ok (keep.map (w.circuit.final s₀)) := by
  intro l
  induction l with
  | nil =>
    intro keep h
    obtain rfl : keep = [] := by simpa using h.symm
    rfl
  | cons s l ih =>
    intro keep h
    cases keep with
    | nil => simp at h
    | cons q keep =>
      simp only [List.map_cons, List.cons.injEq] at h
      have hv : (Expression.ref s).eval ρ = .ok (w.circuit.final s₀ q) :=
        Expression.eval_ref_eq_ok.2 (hw.sound.env_value s q h.1 (by simp))
      rw [Valuation.read, hv, ih h.2]
      rfl

end Workspace

/-! ## Compiled programs -/

/-- What a compilation ends with. The kept qubits are those of the outputs; the workspace is at rest for the values that
evaluation gives. -/
theorem compile_cases {p : Program} {options : Options} {c : Circuit} {row : List Bool}
    (hbool : ∀ a ∈ p.assignments, a.expr.isBoolean = true) (hrow : row.length = p.inputSymbols.length)
    (hc : p.compile options = .ok c) :
    ∃ w keep ρ, (Valuation.ofPairs (p.inputSymbols.zip row)).assign p.assignments = .ok ρ ∧
      Workspace.Settled ρ (.ofRow row) w ∧ Workspace.Kept row.length w ∧ w.options = options ∧ w.outputs = p.outputs ∧
      p.outputs.map w.env.get? = keep.map some ∧ c = w.finish keep := by
  obtain ⟨⟨keep, w⟩, hbuild, hfinish⟩ := Outcome.bind_eq_ok.1 hc
  obtain ⟨_, w₁, hbind, hrest⟩ := Lowering.bind_eq_ok.1 hbuild
  obtain ⟨_, w₂, hassign, hlook⟩ := Lowering.bind_eq_ok.1 hrest
  obtain ⟨rfl, hkeep⟩ := Workspace.lookupAll_eq_ok hlook
  obtain ⟨ρ, hρ, hw, hk, hopt, hout⟩ :=
    Workspace.settled_of_run hbool hrow (Lowering.bind_eq_ok.2 ⟨_, w₁, hbind, hassign⟩)
  exact ⟨_, keep, ρ, hρ, hw, hrow ▸ hk, hopt, hout, hkeep, (Outcome.pure_eq_ok.1 hfinish).symm⟩

/-- The qubits of the outputs are not changed once they have been read. -/
theorem Workspace.Kept.pairwise_keep {k : Nat} {w : Workspace} (hk : Kept k w) {keep : List Qubit}
    (hkeep : w.outputs.map w.env.get? = keep.map some) :
    ∀ q ∈ keep, ∃ o ∈ w.outputs, w.env.get? o = some q ∧ w.circuit.history.Pairwise fun e f => q ∈ e.reads → f.target ≠ q := by
  intro q hq
  obtain ⟨o, ho, hoq⟩ : ∃ o ∈ w.outputs, w.env.get? o = some q := by
    have hmem : some q ∈ w.outputs.map w.env.get? := by
      rw [hkeep]
      exact List.mem_map_of_mem hq
    simpa using List.mem_map.1 hmem
  exact ⟨o, ho, hoq, hk.unchanged o ho q hoq⟩

/-- A compiled program computes what the program does. On every row of argument bits the program has values, the circuit can be
simulated, and the qubits of the outputs hold these values, one by one. -/
theorem compile_correct {p : Program} {options : Options} {c : Circuit} {row : List Bool}
    (hbool : ∀ a ∈ p.assignments, a.expr.isBoolean = true) (htrue : "TRUE" ∉ p.outputs) (hfalse : "FALSE" ∉ p.outputs)
    (hrow : row.length = p.inputSymbols.length) (hc : p.compile options = .ok c) :
    ∃ v s, p.evaluate row = .ok v ∧ c.simulate row = .ok s ∧
      p.outputs.map (fun o => (c.qubit? o).bind fun q => s[q]?) = v.map some := by
  obtain ⟨w, keep, ρ, hρ, hw, hk, -, hout, hkeep, rfl⟩ := compile_cases hbool hrow hc
  obtain ⟨hlabels, hnames, hgates, hfinal⟩ := Workspace.finish_spec hw fun q hq => by
    obtain ⟨o, -, -, h⟩ := hk.pairwise_keep (hout ▸ hkeep) q hq
    exact h
  obtain ⟨s, hs, hbit⟩ := Circuit.simulate_bits (congrArg List.length hlabels) hgates hk.inputs_le
  refine ⟨keep.map (w.circuit.final (.ofRow row)), s, ?_, hs, ?_⟩
  · unfold Program.evaluate
    dsimp only
    rw [if_neg (by simp [hrow])]
    rw [hρ]
    exact hw.read hkeep
  · have hqubit : ∀ o ∈ p.outputs, (w.finish keep).qubit? o = w.env.get? o := fun o ho => by
      rw [Circuit.qubit?, hnames]
      exact hw.names o (fun h => htrue (h ▸ ho)) fun h => hfalse (h ▸ ho)
    have hvalue : ∀ q ∈ keep, s[q]? = some (w.circuit.final (.ofRow row) q) := fun q hq => by
      obtain ⟨o, -, hoq, -⟩ := hk.pairwise_keep (hout ▸ hkeep) q hq
      rw [hbit q (hw.sound.env_inUse hoq).1, hfinal, if_neg fun h => h.2 hq]
    calc p.outputs.map (fun o => ((w.finish keep).qubit? o).bind fun q => s[q]?)
        = p.outputs.map (fun o => (w.env.get? o).bind fun q => s[q]?) :=
          List.map_congr_left fun o ho => by rw [hqubit o ho]
      _ = (p.outputs.map w.env.get?).map (fun r => r.bind fun q => s[q]?) := by rw [List.map_map]; rfl
      _ = (keep.map some).map (fun r => r.bind fun q => s[q]?) := by rw [hkeep]
      _ = keep.map (fun q => s[q]?) := by rw [List.map_map]; rfl
      _ = (keep.map (w.circuit.final (.ofRow row))).map some := by
          rw [List.map_map]
          exact List.map_congr_left fun q hq => hvalue q hq

/-- The negated conjunction of two bits, which replaces the second of them at the end. -/
def Program.nandInPlace : Program :=
  { name := "nand", inputs := [.bit "a", .bit "b"], outputs := ["b"]
    assignments := [⟨"__t", .and [.ref "a", .ref "b"]⟩, ⟨"__t", .not (.ref "__t")⟩, ⟨"b", .ref "__t"⟩] }

theorem compile_correct_nand : ∃ c s, Program.nandInPlace.compile {} = .ok c ∧ c.simulate [true, true] = .ok s ∧
    (c.qubit? "b").bind (fun q => s[q]?) = some false := by
  obtain ⟨c, hc⟩ := Outcome.exists_of_isOk (x := Program.nandInPlace.compile {}) (by decide +kernel)
  have hrow : [true, true].length = Program.nandInPlace.inputSymbols.length := rfl
  obtain ⟨v, s, hv, hs, hbits⟩ := compile_correct (by decide) (by decide) (by decide) hrow hc
  have hvalue : (Program.nandInPlace.evaluate [true, true]).toOption = some [false] := by decide +kernel
  rw [hv] at hvalue
  obtain rfl : v = [false] := Option.some.inj hvalue
  exact ⟨c, s, hc, hs, by simpa [Program.nandInPlace] using hbits⟩

/-- A compiled program leaves no garbage, if it is asked to rewind. On every row of argument bits the argument qubits hold the
row at the end, and every other qubit that is not that of an output holds 0. -/
theorem compile_no_garbage {p : Program} {options : Options} {c : Circuit} {row : List Bool}
    (hbool : ∀ a ∈ p.assignments, a.expr.isBoolean = true) (htrue : "TRUE" ∉ p.outputs) (hfalse : "FALSE" ∉ p.outputs)
    (huncompute : options.uncompute = true) (hrow : row.length = p.inputSymbols.length) (hc : p.compile options = .ok c) :
    ∃ s, c.simulate row = .ok s ∧ (∀ q, q < row.length → s[q]? = row[q]?) ∧
      ∀ q, row.length ≤ q → q < c.numQubits → (∀ o ∈ p.outputs, c.qubit? o ≠ some q) → s[q]? = some false := by
  obtain ⟨w, keep, ρ, hρ, hw, hk, hopt, hout, hkeep, rfl⟩ := compile_cases hbool hrow hc
  obtain ⟨hlabels, hnames, hgates, hfinal⟩ := Workspace.finish_spec hw fun q hq => by
    obtain ⟨o, -, -, h⟩ := hk.pairwise_keep (hout ▸ hkeep) q hq
    exact h
  have hnum : (w.finish keep).numQubits = w.circuit.numQubits := congrArg List.length hlabels
  obtain ⟨s, hs, hbit⟩ := Circuit.simulate_bits hnum hgates hk.inputs_le
  have hstart : ∀ q, q ∉ keep → (w.finish keep).final (.ofRow row) q = Bits.ofRow row q := fun q hq => by
    rw [hfinal, if_pos ⟨by rw [hopt, huncompute], hq⟩]
  refine ⟨s, hs, fun q hq => ?_, fun q hge hlt ho => ?_⟩
  · rw [hbit q (Nat.lt_of_lt_of_le hq hk.inputs_le), List.getElem?_eq_getElem hq]
    have hrowq : Bits.ofRow row q = row[q] := by simp [Bits.ofRow, hq]
    rw [← hrowq]
    by_cases hmem : q ∈ keep
    · -- the qubit of an argument that is an output has not been changed
      obtain ⟨o, ho, hoq, -⟩ := hk.pairwise_keep (hout ▸ hkeep) q hmem
      rw [hfinal, if_neg fun h => h.2 hmem, Circuit.final, hw.log]
      exact congrArg some (actLog_of_forall_ne (fun e he => (hw.entries e he).1) (hk.input o ho q hoq hq) _)
    · rw [hstart q hmem]
  · have hmem : q ∉ keep := fun hmem => by
      obtain ⟨o, ho', hoq, -⟩ := hk.pairwise_keep (hout ▸ hkeep) q hmem
      rw [hout] at ho'
      refine ho o ho' ?_
      rw [Circuit.qubit?, hnames, hw.names o (fun h => htrue (h ▸ ho')) fun h => hfalse (h ▸ ho')]
      exact hoq
    rw [hbit q (hnum ▸ hlt), hstart q hmem, Bits.ofRow, List.getElem?_eq_none hge]
    rfl

theorem compile_no_garbage_nand : ∃ c s, Program.nandInPlace.compile {} = .ok c ∧ c.simulate [true, true] = .ok s ∧
    s[0]? = some true ∧ s[1]? = some true := by
  obtain ⟨c, hc⟩ := Outcome.exists_of_isOk (x := Program.nandInPlace.compile {}) (by decide +kernel)
  have hrow : [true, true].length = Program.nandInPlace.inputSymbols.length := rfl
  obtain ⟨s, hs, hargs, -⟩ := compile_no_garbage (by decide) (by decide) (by decide) rfl hrow hc
  exact ⟨c, s, hc, hs, hargs 0 (by decide), hargs 1 (by decide)⟩

end ReversibleLogic
