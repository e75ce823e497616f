import ReversibleLogic.Proofs.Optimize.Size
import ReversibleLogic.Proofs.Optimize.Total
import ReversibleLogic.Proofs.Simplify

/-!
# What optimization leaves alone

Only runs of gates of the NOT family are replaced, each by gates of the NOT family on the run's own qubits. So the register with
its names and scratch qubits stays, and so do the barriers and black boxes, in their order (`Optimizer.optimize_keeps_frame`).
They stay through the cancelling at the end as well, which takes away pairs of gates of the NOT family.
-/

namespace ReversibleLogic

namespace Optimizer

variable {o : Optimizer} {c d : Circuit} {s : Section} {symbols : List Symbol} {first : Array (Option Nat)}
  {preserve : Option (List Qubit)}

/-- The gates put in the place of others leave the barriers and black boxes as they are. -/
def KeepsFixed (gs new : List Gate) : Prop := fixedGates new = fixedGates gs

theorem KeepsFixed.refl (gs : List Gate) : KeepsFixed gs gs := rfl

theorem KeepsFixed.append {gs gs' new new' : List Gate} (h : KeepsFixed gs new) (h' : KeepsFixed gs' new') :
    KeepsFixed (gs ++ gs') (new ++ new') := by
  rw [KeepsFixed, fixedGates_append, fixedGates_append, h, h']

/-- Neither a section nor what is put in its place has a barrier or a black box. -/
theorem putFor_replacement? (hs : s.Faithful symbols)
    (hsimp : ∀ e, e.isBoolean = true → (o.simplifier.simplify e).isBoolean = true) {r : Option Circuit}
    (h : o.replacement? first preserve s = .ok r) : PutFor KeepsFixed s r := by
  rintro d rfl
  obtain ⟨-, hgates, -⟩ := replacement?_eq_ok hs hsimp h
  have hnew : ∀ g ∈ d.gates.map (Gate.mapQubits (place s.qubits)), g.kind.isClassical = true := by
    intro g hg
    obtain ⟨k, hk, rfl⟩ := List.mem_map.1 hg
    exact (hgates k hk).classical
  exact (fixedGates_of_classical hnew).trans (fixedGates_of_classical fun g hg => (hs.flips g hg).classical).symm

/-- The optimized circuit is on the register of the circuit, its gates fit, and its barriers and black boxes are the circuit's. -/
theorem optimize_eq_ok (hfit : ∀ g ∈ c.gates, g.Fits c.numQubits)
    (hsimp : ∀ e, e.isBoolean = true → (o.simplifier.simplify e).isBoolean = true) (h : o.optimize c preserve = .ok d) :
    d.labels = c.labels ∧ d.names = c.names ∧ d.ancillas = c.ancillas ∧ (∀ g ∈ d.gates, g.Fits c.numQubits) ∧
      fixedGates d.gates = fixedGates c.gates := by
  obtain ⟨sections, hsections, hrest⟩ := Outcome.bind_eq_ok.1 h
  obtain ⟨first, -, hrest⟩ := Outcome.bind_eq_ok.1 hrest
  obtain ⟨replacements, hreplace, hrest⟩ := Outcome.bind_eq_ok.1 hrest
  obtain ⟨out, hsplice, hret⟩ := Outcome.bind_eq_ok.1 hrest
  obtain rfl := Outcome.pure_eq_ok.1 hret
  have hlaid := laid_decompile hfit hsections
  have hput := replaceAll_eq_ok (fun s hs r hr => putFor_replacement? (hlaid.faithful s hs) hsimp hr) hreplace
  obtain ⟨new, happ, hfixed⟩ := appended_splice KeepsFixed.refl KeepsFixed.append hlaid hput hsplice
  have hgates : out.gates = new := happ.gates
  refine ⟨happ.labels, happ.names, happ.ancillas, fun g hg => happ.fits g (hgates ▸ mem_cancelPairs hg), ?_⟩
  calc fixedGates (cancelPairs out.gates) = fixedGates out.gates := fixedGates_cancelPairs out.gates
    _ = fixedGates c.gates := hgates ▸ hfixed

/-- Every circuit of accepted gates can be optimized, whatever the settings, the qubits that carry a value and the simplifier are,
as long as the simplifier puts in no black box. The result has no more gates, the same register with the same names and the same
scratch qubits, accepted gates only, and the barriers and black boxes of the circuit, with their qubits and parameters, in their
order. -/
theorem optimize_keeps_frame (hvalid : ∀ g ∈ c.gates, c.validate g = .ok ())
    (hsimp : ∀ e, e.isBoolean = true → (o.simplifier.simplify e).isBoolean = true) (preserve : Option (List Qubit)) :
    ∃ d, o.optimize c preserve = .ok d ∧ d.numGates ≤ c.numGates ∧
      d.labels = c.labels ∧ d.names = c.names ∧ d.ancillas = c.ancillas ∧
      (∀ g ∈ d.gates, d.validate g = .ok ()) ∧
      d.gates.filter (fun g => !g.kind.isClassical) = c.gates.filter (fun g => !g.kind.isClassical) := by
  have hfit : ∀ g ∈ c.gates, g.Fits c.numQubits := fun g hg => Circuit.validate_eq_ok_iff.1 (hvalid g hg)
  obtain ⟨d, hd, -⟩ := optimize_total hfit hsimp preserve
  obtain ⟨hlabels, hnames, hancillas, hfit', hfixed⟩ := optimize_eq_ok hfit hsimp hd
  have hnum : d.numQubits = c.numQubits := congrArg List.length hlabels
  exact ⟨d, hd, numGates_optimize_le hfit hd, hlabels, hnames, hancillas,
    fun g hg => Circuit.validate_eq_ok_iff.2 (hnum ▸ hfit' g hg), hfixed⟩

/-- A named qubit and two scratch qubits. A run of three gates that is one gate, a rotation, a run whose gates cancel around a
barrier, and a black box. -/
def fenced : Circuit where
  name := "fenced"
  labels := ["a", "anc1", "anc2"]
  names := NameMap.empty.insert "a" 0
  bound := .ofList [0]
  ancillas := .ofList [1, 2]
  gates := [.x 0, .cx 0 1, .x 0, { kind := .blackBox "rz", qubits := [1], param := some ⟨0x3fe0000000000000⟩ }, .ccx 0 1 2,
    { kind := .barrier, qubits := [0, 2] }, .ccx 0 1 2, { kind := .blackBox "u", qubits := [2, 0] }]

/-- When the first qubit starts at 0 the first run is one flip of the second qubit. The rotation, the barrier and the black box
stay. -/
theorem optimize_keeps_frame_fenced : ∃ d, optimize {} fenced (some []) = .ok d ∧ d.numGates ≤ fenced.numGates ∧
    d.ancillas = fenced.ancillas ∧ d.qubit? "a" = some 0 ∧
    d.gates.filter (fun g => !g.kind.isClassical) =
      [{ kind := .blackBox "rz", qubits := [1], param := some ⟨0x3fe0000000000000⟩ }, { kind := .barrier, qubits := [0, 2] },
        { kind := .blackBox "u", qubits := [2, 0] }] := by
  have hsimp : ∀ e : Expression, e.isBoolean = true → ((({} : Optimizer).simplifier).simplify e).isBoolean = true :=
    fun _ he => Simplifier.isBoolean_algebraic _ he
  obtain ⟨d, hd, hle, -, hnames, hancillas, -, hfixed⟩ :=
    optimize_keeps_frame (o := {}) (c := fenced) (by decide +kernel) hsimp (some [])
  exact ⟨d, hd, hle, hancillas, by rw [Circuit.qubit?, hnames]; decide +kernel, hfixed.trans (by decide +kernel)⟩

end Optimizer

end ReversibleLogic
