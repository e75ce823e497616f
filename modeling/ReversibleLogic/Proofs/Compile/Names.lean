import ReversibleLogic.Proofs.Compile.Correct
import ReversibleLogic.Proofs.Compile.Success
import ReversibleLogic.Proofs.Lowering.Effect
import Mathlib.Data.List.Induction

/-!
# Names of a compiled circuit

A compilation keeps two maps from names to qubits: its own, by which it finds the qubits of symbols, and that of the circuit, by
which the qubits are found afterwards. Arguments and targets are entered into both. The qubits of the constants are entered into
the map of the circuit alone, as `TRUE` and `FALSE`. A symbol that happens to be called so is overtaken if the constant gets its
qubit after the symbol was bound for the last time, and this is the only way in which the maps come to differ
(`compileAssignments_resolves`).

`BoundSince` follows one binding through a run: every change that lowering makes keeps it, and so does every assignment to another
symbol.
-/

namespace ReversibleLogic

/-! ## Undoing operations -/

namespace Circuit

/-- Undoing operations leaves the register and its names. -/
theorem replayAll_register (c : Circuit) (l : List LogEntry) :
    (c.replayAll l).labels = c.labels ∧ (c.replayAll l).names = c.names := by
  unfold replayAll
  generalize l.reverse = entries
  induction entries generalizing c with
  | nil => exact ⟨rfl, rfl⟩
  | cons e entries ih => exact ih (c.replay e)

/-- Driving scratch qubits back leaves labels and names. -/
theorem uncompute_nil_register (c : Circuit) : (c.uncompute []).1.labels = c.labels ∧ (c.uncompute []).1.names = c.names := by
  unfold uncompute
  dsimp only [List.foldl_nil]
  split
  · exact ⟨rfl, rfl⟩
  · exact replayAll_register ..

end Circuit

namespace Workspace

variable {w w' w₀ : Workspace} {s : Symbol} {q : Qubit} {a : Assignment} {options : Options} {name : String}
  {inputs outputs : List Symbol}

/-- What is done at the end leaves the names. -/
theorem finish_names (w : Workspace) (keep : List Qubit) : (w.finish keep).names = w.circuit.names := by
  have hundo : (w.circuit.uncomputeAll keep).1.names = w.circuit.names := (w.circuit.replayAll_register _).2
  unfold finish
  dsimp only
  split <;> split <;> first | rfl | exact hundo

/-! ## One binding -/

/-- What has become in `w` of a binding of `s` to `q` that was there in `w₀`. The circuit gives `q` for the symbol, and the
constant called like the symbol has no other qubit than it had; or it got its qubit since, and the circuit gives that one. -/
structure BoundSince (w₀ : Workspace) (s : Symbol) (q : Qubit) (w : Workspace) : Prop where
  env : w.env.get? s = some q
  lt : q < w.circuit.numQubits
  resolved : (w.circuit.qubit? s = some q ∧ ∀ v, s = constName v → w.constQubit v = w₀.constQubit v) ∨
    ∃ v p, s = constName v ∧ w₀.constQubit v = none ∧ w.constQubit v = some p ∧ w.circuit.qubit? s = some p ∧ p ≠ q

namespace BoundSince

/-- A new binding. -/
theorem new (henv : w.env.get? s = some q) (hlt : q < w.circuit.numQubits) (hname : w.circuit.qubit? s = some q) :
    BoundSince w s q w :=
  ⟨henv, hlt, Or.inl ⟨hname, fun _ _ => rfl⟩⟩

/-- Only the qubit of the symbol and those of the constants matter. -/
theorem congr (h : BoundSince w₀ s q w) (henv : w'.env.get? s = w.env.get? s)
    (hnum : w.circuit.numQubits ≤ w'.circuit.numQubits) (hname : w'.circuit.names.get? s = w.circuit.names.get? s)
    (hconst : ∀ v, w'.constQubit v = w.constQubit v) : BoundSince w₀ s q w' := by
  refine ⟨henv.trans h.env, Nat.lt_of_lt_of_le h.lt hnum, ?_⟩
  rw [Circuit.qubit?, hname]
  simp only [hconst]
  exact h.resolved

/-- A constant that gets its qubit overtakes the symbol that is called like it, if it has not been overtaken yet. -/
theorem addConst (h : BoundSince w₀ s q w) {v : Bool} (hv : w.constQubit v = none) : BoundSince w₀ s q (w.addConst v) := by
  have hnum := Circuit.numQubits_addQubit w.circuit (some (constName v))
  have hlt : q < (w.addConst v).circuit.numQubits := Nat.lt_of_lt_of_le h.lt (hnum ▸ Nat.le_succ _)
  by_cases hs : s = constName v
  · obtain ⟨-, hconst⟩ | ⟨u, p, hu, -, hp, -⟩ := h.resolved
    · refine ⟨h.env, hlt, Or.inr ⟨v, w.circuit.numQubits, hs, (hconst v hs).symm.trans hv, ?_, ?_, (Nat.ne_of_lt h.lt).symm⟩⟩
      · rw [constQubit_addConst, if_pos rfl]
      · rw [hs]
        exact NameMap.get?_insert_self ..
    · rw [constName_injective (hu.symm.trans hs), hv] at hp
      exact nomatch hp
  · have hne : ∀ u, s = constName u → (w.addConst v).constQubit u = w.constQubit u := fun u hu => by
      have huv : u ≠ v := fun huv => hs (huv ▸ hu)
      rw [constQubit_addConst, if_neg huv]
    have hname : (w.addConst v).circuit.qubit? s = w.circuit.qubit? s := NameMap.get?_insert_of_ne _ hs _
    refine ⟨h.env, hlt, ?_⟩
    rw [hname]
    exact h.resolved.imp (fun ⟨hq, hconst⟩ => ⟨hq, fun u hu => (hne u hu).trans (hconst u hu)⟩)
      fun ⟨u, p, hu, hnone, hp, hrest⟩ => ⟨u, p, hu, hnone, (hne u hu).trans hp, hrest⟩

/-- Every change that lowering makes keeps the binding. -/
theorem effect (h : BoundSince w₀ s q w) (he : Effect w w') : BoundSince w₀ s q w' := by
  cases he with
  | gate hg hc =>
    obtain ⟨-, t, -, rfl⟩ := Circuit.append_eq_ok hg hc
    exact h.congr rfl (Nat.le_refl _) rfl fun v => by cases v <;> rfl
  | conjugated hc =>
    obtain ⟨-, -, t, -, -, rfl⟩ := Circuit.appendConjugated_eq_ok hc
    exact h.congr rfl (Nat.le_refl _) rfl fun v => by cases v <;> rfl
  | qubit _ =>
    exact h.congr rfl (Nat.le_of_lt (Circuit.numQubits_addQubit w.circuit none ▸ Nat.lt_succ_self _)) rfl
      fun v => by cases v <;> rfl
  | ancilla =>
    obtain ⟨-, -, hnames, hlabels⟩ := w.circuit.takeAncilla_same
    exact h.congr rfl hlabels.length_le (congrArg (NameMap.get? · s) hnames) fun v => by cases v <;> rfl
  | mark m => exact h.congr rfl (Nat.le_refl _) rfl fun v => by cases v <;> rfl
  | memo m => exact h.congr rfl (Nat.le_refl _) rfl fun v => by cases v <;> rfl
  | const hv => exact h.addConst hv

/-- So does a sequence of changes. -/
theorem effects (h : BoundSince w₀ s q w) (he : Effects w w') : BoundSince w₀ s q w' := by
  induction he with
  | refl => exact h
  | tail _ hstep ih => exact ih.effect hstep

end BoundSince

/-! ## Assignments -/

/-- An assignment is a sequence of changes that lowering makes, and then the target is bound in both maps to a qubit of the
register. -/
theorem assign_effects {u : Unit} (hb : a.expr.isBoolean = true) (h : assign a w = .ok (u, w')) :
    ∃ w₁ q, Effects w w₁ ∧ q < w₁.circuit.numQubits ∧ w'.env = w₁.env.insert a.target q ∧
      w'.circuit.names = w₁.circuit.names.insert a.target q ∧ w'.circuit.numQubits = w₁.circuit.numQubits ∧
      ∀ v, w'.constQubit v = w₁.constQubit v := by
  obtain ⟨dest, p, q, _, wd, wl, w₁, _, _, _, hdest, hlower, hdeliver, hrebind, hmap, hunmark, hreclaim⟩ := assign_eq_ok h
  have hd : Effects w wd := (destination_traced hdest).1
  have hl : Effects wd wl := (traced_root _ _ _ hlower).1 (by simp [Expression.leavesAt, hb])
  obtain rfl := Lowering.modify_eq_ok.1 hrebind
  obtain ⟨c, hc, rfl⟩ := Lowering.emit_eq_ok.1 hmap
  obtain ⟨-, rfl⟩ := Lowering.onCircuit_eq_ok.1 hunmark
  obtain ⟨_, _, huncompute, hforget⟩ := Lowering.bind_eq_ok.1 hreclaim
  obtain ⟨-, rfl⟩ := Lowering.onCircuit_eq_ok.1 huncompute
  obtain rfl := Lowering.modify_eq_ok.1 hforget
  obtain ⟨hlt, hnames, -⟩ := Circuit.mapQubit_names hc
  obtain ⟨⟨-, -, -, hnum⟩, -⟩ := Circuit.mapQubit_eq_ok hc
  obtain ⟨hlabels, hnames'⟩ := (c.unmarkAncilla q).1.uncompute_nil_register
  exact ⟨w₁, q, (hd.trans hl).trans ((Traced.deliver p dest hdeliver).1 rfl), hlt, rfl,
    hnames'.trans hnames, (congrArg List.length hlabels).trans hnum, fun v => by cases v <;> rfl⟩

/-- An assignment binds its target. -/
theorem boundSince_assign {u : Unit} (hb : a.expr.isBoolean = true) (h : assign a w = .ok (u, w')) :
    ∃ q, BoundSince w' a.target q w' := by
  obtain ⟨w₁, q, -, hlt, henv, hnames, hnum, -⟩ := assign_effects hb h
  exact ⟨q, .new (by rw [henv, NameMap.get?_insert_self]) (hnum ▸ hlt) (by rw [Circuit.qubit?, hnames, NameMap.get?_insert_self])⟩

/-- An assignment to another symbol keeps the binding. -/
theorem BoundSince.assign {u : Unit} (h : BoundSince w₀ s q w) (hb : a.expr.isBoolean = true) (hne : a.target ≠ s)
    (hrun : assign a w = .ok (u, w')) : BoundSince w₀ s q w' := by
  obtain ⟨w₁, p, heffects, -, henv, hnames, hnum, hconst⟩ := assign_effects hb hrun
  refine (h.effects heffects).congr ?_ (Nat.le_of_eq hnum.symm) ?_ hconst
  · rw [henv, NameMap.get?_insert_of_ne _ hne.symm]
  · rw [hnames, NameMap.get?_insert_of_ne _ hne.symm]

/-- Assignments to other symbols keep the binding. -/
theorem BoundSince.assignAll {u : Unit} {l : List Assignment} : ∀ {w : Workspace}, BoundSince w₀ s q w →
    (∀ a ∈ l, a.expr.isBoolean = true) → (∀ a ∈ l, a.target ≠ s) → assignAll l w = .ok (u, w') → BoundSince w₀ s q w' := by
  induction l with
  | nil =>
    intro w h _ _ hrun
    obtain ⟨-, rfl⟩ := Lowering.pure_eq_ok.1 hrun
    exact h
  | cons a l ih =>
    intro w h hb hne hrun
    obtain ⟨_, w₁, ha, hl⟩ := Lowering.bind_eq_ok.1 hrun
    exact ih (h.assign (hb a List.mem_cons_self) (hne a List.mem_cons_self) ha) (fun b hm => hb b (List.mem_cons_of_mem a hm))
      (fun b hm => hne b (List.mem_cons_of_mem a hm)) hl

/-- A run of assignments and then others passes through the workspace in which the first end. -/
theorem exists_of_assignAll_append {u : Unit} {l rest : List Assignment} : ∀ {w : Workspace},
    assignAll (l ++ rest) w = .ok (u, w') → ∃ w₁, assignAll l w = .ok ((), w₁) ∧ assignAll rest w₁ = .ok (u, w') := by
  induction l with
  | nil => exact fun {w} h => ⟨w, rfl, h⟩
  | cons a l ih =>
    intro w h
    obtain ⟨_, w₁, ha, h⟩ := Lowering.bind_eq_ok.1 h
    obtain ⟨w₂, hl, hrest⟩ := ih h
    exact ⟨w₂, Lowering.bind_eq_ok.2 ⟨_, w₁, ha, hl⟩, hrest⟩

/-! ## Runs -/

/-- Binding the arguments binds each of them. -/
theorem boundSince_bindInputs {u : Unit} (hrun : bindInputs inputs (start options name outputs) = .ok (u, w))
    (hs : s ∈ inputs) : ∃ q, BoundSince w s q w := by
  have hstart : Knows (fun _ => False) (start options name outputs) :=
    ⟨fun s => by simp [start], fun b hb => by simp [start] at hb⟩
  have hknows := decides_bindInputs (l := inputs) hstart
  rw [hrun] at hknows
  obtain ⟨q, hq⟩ := Option.isSome_iff_exists.1 ((hknows.2.env s).2 (Or.inr hs))
  have hlen : ((List.replicate inputs.length false).drop (start options name outputs).circuit.numQubits).length =
      inputs.length := List.length_replicate
  obtain ⟨hw, -⟩ := (primed_start options name outputs _).bindInputs hlen hrun
  exact ⟨q, .new hq (hw.bound_lt q (hw.env_bound s q hq)) ((hw.names s).trans hq)⟩

/-- After a run, every argument and every target is bound since some workspace that the run passed through, after which it was not
assigned to. The induction is on the assignments from the last to the first: either the last one binds the symbol, or it keeps the
binding. -/
theorem exists_boundSince {l : List Assignment} : ∀ {w : Workspace}, (∀ a ∈ l, a.expr.isBoolean = true) →
    (do bindInputs inputs; assignAll l : Lowering Unit) (start options name outputs) = .ok ((), w) →
    s ∈ inputs ∨ s ∈ l.map Assignment.target →
    ∃ before after w₀ q, l = before ++ after ∧ (∀ a ∈ after, a.target ≠ s) ∧
      (do bindInputs inputs; assignAll before : Lowering Unit) (start options name outputs) = .ok ((), w₀) ∧
      BoundSince w₀ s q w := by
  induction l using List.reverseRecOn with
  | nil =>
    intro w _ hrun hs
    obtain ⟨_, w₁, hbind, hnil⟩ := Lowering.bind_eq_ok.1 hrun
    obtain ⟨-, rfl⟩ := Lowering.pure_eq_ok.1 hnil
    obtain ⟨q, hq⟩ := boundSince_bindInputs hbind (hs.resolve_right (by simp))
    exact ⟨[], [], w₁, q, rfl, by simp, hrun, hq⟩
  | append_singleton l a ih =>
    intro w hb hrun hs
    obtain ⟨_, w₁, hbind, hassign⟩ := Lowering.bind_eq_ok.1 hrun
    obtain ⟨w₂, hl, hlast⟩ := exists_of_assignAll_append hassign
    obtain ⟨_, w₃, ha, hnil⟩ := Lowering.bind_eq_ok.1 hlast
    obtain ⟨-, rfl⟩ := Lowering.pure_eq_ok.1 hnil
    have hba : a.expr.isBoolean = true := hb a (by simp)
    by_cases hne : a.target = s
    · subst hne
      obtain ⟨q, hq⟩ := boundSince_assign hba ha
      exact ⟨l ++ [a], [], w₃, q, by simp, by simp, hrun, hq⟩
    · have hs' : s ∈ inputs ∨ s ∈ l.map Assignment.target := by
        simpa [Ne.symm hne] using hs
      obtain ⟨before, after, w₀, q, rfl, hafter, hrun₀, hq⟩ :=
        ih (fun b hm => hb b (List.mem_append_left _ hm)) (Lowering.bind_eq_ok.2 ⟨_, w₁, hbind, hl⟩) hs'
      refine ⟨before, after ++ [a], w₀, q, List.append_assoc .., fun b hm => ?_, hrun₀, hq.assign hba hne ha⟩
      rcases List.mem_append.1 hm with hm | hm
      · exact hafter b hm
      · rw [List.mem_singleton.1 hm]
        exact hne

/-- The symbol is called like a constant that has no qubit after the assignments `before`, and has one at the end, in `w`; and the
symbol is not assigned to in between. -/
def Overtaken (options : Options) (name : String) (inputs : List Symbol) (assignments : List Assignment) (outputs : List Symbol)
    (w : Workspace) (s : Symbol) : Prop :=
  ∃ before after w₀ v, assignments = before ++ after ∧ (∀ a ∈ after, a.target ≠ s) ∧
    (do bindInputs inputs; assignAll before : Lowering Unit).run (start options name outputs) = .ok ((), w₀) ∧
    s = constName v ∧ w₀.constQubit v = none ∧ w.constQubit v ≠ none

/-- A symbol that has been bound resolves to its qubit exactly if it is not overtaken. -/
theorem resolves_iff {assignments : List Assignment} (hbool : ∀ a ∈ assignments, a.expr.isBoolean = true)
    (hrun : (do bindInputs inputs; assignAll assignments : Lowering Unit) (start options name outputs) = .ok ((), w))
    (hs : s ∈ inputs ∨ s ∈ assignments.map Assignment.target) : ∃ q, w.env.get? s = some q ∧
      (w.circuit.qubit? s = some q ↔ ¬ Overtaken options name inputs assignments outputs w s) := by
  obtain ⟨before, after, w₀, q, hsplit, hafter, hrun₀, hq⟩ := exists_boundSince hbool hrun hs
  refine ⟨q, hq.env, fun hname => ?_, fun hnot => ?_⟩
  · -- before the constant got its qubit the circuit gave the symbol's qubit, and since then it gives the constant's
    rintro ⟨done, rest, w₁, v, rfl, hrest, hrun₁, hv, hnone, hsome⟩
    have hs₁ : s ∈ inputs ∨ s ∈ done.map Assignment.target := by
      rw [List.map_append, List.mem_append, ← or_assoc] at hs
      refine hs.resolve_right fun hm => ?_
      obtain ⟨a, ha, hat⟩ := List.mem_map.1 hm
      exact hrest a ha hat
    obtain ⟨_, _, _, p, -, -, -, hp⟩ := exists_boundSince (fun a ha => hbool a (List.mem_append_left _ ha)) hrun₁ hs₁
    have hname₁ : w₁.circuit.qubit? s = some p := by
      obtain ⟨h, -⟩ | ⟨u, r, hu, -, hr, -⟩ := hp.resolved
      · exact h
      · rw [constName_injective (hu.symm.trans hv), hnone] at hr
        exact nomatch hr
    obtain ⟨_, wi, hbind₁, hdone⟩ := Lowering.bind_eq_ok.1 hrun₁
    obtain ⟨_, wi', hbind, hassign⟩ := Lowering.bind_eq_ok.1 hrun
    obtain rfl : wi = wi' := (Prod.mk.inj (Except.ok.inj (hbind₁.symm.trans hbind))).2
    have hlater := (BoundSince.new hp.env hp.lt hname₁).assignAll (fun a ha => hbool a (List.mem_append_right _ ha)) hrest
      ((assignAll_append hdone).symm.trans hassign)
    obtain rfl : p = q := Option.some.inj (hlater.env.symm.trans hq.env)
    obtain ⟨-, hconst⟩ | ⟨-, r, -, -, -, hr, hne⟩ := hlater.resolved
    · exact hsome ((hconst v hv).trans hnone)
    · exact hne (Option.some.inj (hr.symm.trans hname))
  · obtain ⟨hname, -⟩ | ⟨v, p, hv, hnone, hp, -⟩ := hq.resolved
    · exact hname
    · exact absurd ⟨before, after, w₀, v, hsplit, hafter, hrun₀, hv, hnone, by rw [hp]; exact Option.some_ne_none p⟩ hnot

end Workspace

/-- Where names of a compiled circuit lead, for assignments without black boxes, whatever the symbols are called and whatever the
options are. The compilation ends with a qubit for each argument and each target; those of the outputs are the ones it keeps. The
circuit resolves the name to this qubit, unless the symbol is called like a constant that gets its qubit after the symbol has been
bound for the last time. -/
theorem compileAssignments_resolves {options : Options} {name : String} {inputs outputs : List Symbol}
    {assignments : List Assignment} {c : Circuit} (hbool : ∀ a ∈ assignments, a.expr.isBoolean = true)
    (h : compileAssignments options name inputs assignments outputs = .ok c) :
    ∃ keep w, (Workspace.build inputs assignments outputs).run (.start options name outputs) = .ok (keep, w) ∧
      c = w.finish keep ∧ outputs.map w.env.get? = keep.map some ∧
      ∀ s, s ∈ inputs ∨ s ∈ assignments.map Assignment.target → ∃ q, w.env.get? s = some q ∧
        (c.qubit? s = some q ↔ ¬ Workspace.Overtaken options name inputs assignments outputs w s) := by
  obtain ⟨⟨keep, w⟩, hbuild, hret⟩ := Outcome.bind_eq_ok.1 h
  obtain rfl := Outcome.pure_eq_ok.1 hret
  obtain ⟨_, w₁, hbind, hrest⟩ := Lowering.bind_eq_ok.1 hbuild
  obtain ⟨_, w₂, hassign, hlookup⟩ := Lowering.bind_eq_ok.1 hrest
  obtain ⟨rfl, hkeep⟩ := Workspace.lookupAll_eq_ok hlookup
  refine ⟨keep, w, hbuild, rfl, hkeep, fun s hs => ?_⟩
  rw [Circuit.qubit?, w.finish_names keep]
  exact Workspace.resolves_iff hbool (Lowering.bind_eq_ok.2 ⟨_, w₁, hbind, hassign⟩) hs

/-- An output that is called like a constant, and an assignment behind it that needs the constant. -/
def shadowed : List Assignment := [⟨"TRUE", .ref "a"⟩, ⟨"y", .and [.const true, .ref "a"]⟩]

/-- The argument and the other output resolve to their qubits if they are not overtaken, and so does the output that is called
like a constant. -/
theorem compileAssignments_resolves_shadowed : ∃ c keep w,
    compileAssignments {} "p" ["a"] shadowed ["TRUE", "y"] = .ok c ∧
    (Workspace.build ["a"] shadowed ["TRUE", "y"]).run (.start {} "p" ["TRUE", "y"]) = .ok (keep, w) ∧
    ["TRUE", "y"].map w.env.get? = keep.map some ∧ ∀ s, s ∈ ["a"] ∨ s ∈ ["TRUE", "y"] → ∃ q, w.env.get? s = some q ∧
      (c.qubit? s = some q ↔ ¬ Workspace.Overtaken {} "p" ["a"] shadowed ["TRUE", "y"] w s) := by
  obtain ⟨c, hc⟩ : ∃ c, compileAssignments {} "p" ["a"] shadowed ["TRUE", "y"] = .ok c :=
    Outcome.exists_of_isOk (by decide +kernel)
  obtain ⟨keep, w, hrun, -, hkeep, hnames⟩ := compileAssignments_resolves (by decide) hc
  exact ⟨c, keep, w, hc, hrun, hkeep, hnames⟩

/-- The output that is called like a constant is kept on qubit 1, and the circuit resolves its name to qubit 3, which is the
constant's. -/
theorem shadowed_output_misresolved : ∃ c w,
    compileAssignments {} "p" ["a"] shadowed ["TRUE", "y"] = .ok c ∧
    (Workspace.build ["a"] shadowed ["TRUE", "y"]).run (.start {} "p" ["TRUE", "y"]) = .ok ([1, 2], w) ∧
    w.env.get? "TRUE" = some 1 ∧ w.trueQubit = some 3 ∧ c.qubit? "TRUE" = some 3 := by
  have hcompile : (compileAssignments {} "p" ["a"] shadowed ["TRUE", "y"]).toOption.map (·.qubit? "TRUE") = some (some 3) := by
    decide +kernel
  have hbuild : ((Workspace.build ["a"] shadowed ["TRUE", "y"]).run (.start {} "p" ["TRUE", "y"])).toOption.map
      (fun r => (r.1, r.2.env.get? "TRUE", r.2.trueQubit)) = some ([1, 2], some 1, some 3) := by
    decide +kernel
  obtain ⟨c, hc, hname⟩ := Option.map_eq_some_iff.1 hcompile
  obtain ⟨⟨keep, w⟩, hrun, hr⟩ := Option.map_eq_some_iff.1 hbuild
  obtain ⟨rfl, henv, hconst⟩ : keep = [1, 2] ∧ w.env.get? "TRUE" = some 1 ∧ w.trueQubit = some 3 := by
    simpa only [Prod.mk.injEq] using hr
  exact ⟨c, w, Outcome.toOption_eq_some.1 hc, Outcome.toOption_eq_some.1 hrun, henv, hconst, hname⟩

end ReversibleLogic
