import ReversibleLogic.Compile.InPlace
import ReversibleLogic.Proofs.Compile.Reclaim
import ReversibleLogic.Proofs.Lowering.Effect

/-!
# The gates of a compilation

Whether or not what a compilation computes is right, without black boxes it appends gates of the NOT family that fit the register,
and qubits behind those that are there. `Plain` says so of a step. Every change that lowering makes is of this kind
(`Effect.classical`), and an assignment in place is a sequence of these changes after which scratch qubits are driven back
(`assignInPlace_effects`). So a circuit compiled in place has the given symbols on its first qubits and only gates of the NOT
family (`compileInPlace_spec`).
-/

namespace ReversibleLogic

/-- The gates are of the NOT family and fit the register, and so are the operations that may be undone. -/
structure Circuit.Classical (c : Circuit) : Prop where
  gates : ∀ g ∈ c.gates, g.Flips c.numQubits
  computed : ∀ e ∈ c.computed, e.Reversible ∧ ∀ g ∈ e.gates, g.Fits c.numQubits

namespace Circuit

variable {c c' : Circuit}

/-- A register that grows keeps its gates. -/
theorem Classical.grow (h : c.Classical) (hl : c.labels <+: c'.labels) (hg : c'.gates = c.gates)
    (hc : c'.computed = c.computed) : c'.Classical := by
  have hle : c.numQubits ≤ c'.numQubits := hl.length_le
  refine ⟨fun g hmem => ?_, fun e he => ?_⟩
  · exact (h.gates g (hg ▸ hmem)).mono hle
  · obtain ⟨h1, h2⟩ := h.computed e (hc ▸ he)
    exact ⟨h1, fun g hmem => (h2 g hmem).mono hle⟩

/-- One more operation. -/
theorem Classical.record (h : c.Classical) {e : LogEntry} (he : e.Reversible) (hfit : ∀ g ∈ e.gates, g.Fits c.numQubits) :
    (c.record e).Classical := by
  refine ⟨fun g hg => ?_, fun f hf => ?_⟩
  · rcases List.mem_append.1 hg with hg | hg
    · exact h.gates g hg
    · exact ⟨he.classical g hg, hfit g hg⟩
  · rcases List.mem_append.1 hf with hf | hf
    · exact h.computed f hf
    · obtain rfl := List.mem_singleton.1 hf
      exact ⟨he, hfit⟩

/-- Driving scratch qubits back repeats operations. -/
theorem Classical.reclaimed (h : c.Classical) : c.reclaimed.Classical := by
  refine ⟨fun g hg => ?_, fun e he => h.computed e (List.mem_filter.1 he).1⟩
  rcases List.mem_append.1 hg with hg | hg
  · exact h.gates g hg
  · obtain ⟨e, he, hg⟩ := List.mem_flatMap.1 hg
    obtain ⟨hrev, hfit⟩ := h.computed e (List.mem_filter.1 (List.mem_reverse.1 he)).1
    exact ⟨hrev.classical g hg, hfit g hg⟩

end Circuit

/-- Whether an assignment in place needs the constant on a qubit of its own. A target that holds 0 becomes a constant where it
is. -/
def Assignment.asksFor (zeroed : List Symbol) (a : Assignment) (v : Bool) : Bool :=
  a.expr.asksFor v false && !(decide (a.target ∈ zeroed) && decide (a.expr = .const v))

/-- What an assignment in place leaves behind. -/
def Assignment.leaves (zeroed : List Symbol) (a : Assignment) : Residue → Bool
  | .const v => a.asksFor zeroed v
  | .blackBox => !a.expr.isBoolean

namespace Workspace

/-- The step appends gates of the NOT family and qubits, and leaves those that are there. -/
def Plain {α : Type} (m : Lowering α) : Prop :=
  ∀ ⦃a : α⦄ ⦃w w' : Workspace⦄, m w = .ok (a, w') → w.circuit.Classical →
    w.circuit.labels <+: w'.circuit.labels ∧ w'.circuit.Classical

/-- Every change of a workspace is such a step. -/
theorem Effect.classical {w w' : Workspace} (h : Effect w w') (hw : w.circuit.Classical) :
    w.circuit.labels <+: w'.circuit.labels ∧ w'.circuit.Classical := by
  cases h with
  | gate hg hc =>
    obtain ⟨hfit, t, ht, rfl⟩ := Circuit.append_eq_ok hg hc
    exact ⟨List.prefix_refl _, hw.record (.plain ht) (by simpa using hfit)⟩
  | conjugated hc =>
    obtain ⟨hfit, hflip, t, ht, hne, rfl⟩ := Circuit.appendConjugated_eq_ok hc
    exact ⟨List.prefix_refl _, hw.record (.conjugated ht hne) (by simp [hfit, hflip])⟩
  | qubit _ => exact ⟨List.prefix_append _ _, hw.grow (List.prefix_append _ _) rfl rfl⟩
  | ancilla =>
    obtain ⟨hgates, hcomputed, -, hlabels⟩ := w.circuit.takeAncilla_same
    exact ⟨hlabels, hw.grow hlabels hgates hcomputed⟩
  | mark m => exact ⟨List.prefix_refl _, hw.grow (List.prefix_refl _) rfl rfl⟩
  | memo m => exact ⟨List.prefix_refl _, hw⟩
  | const _ => exact ⟨List.prefix_append _ _, hw.grow (List.prefix_append _ _) rfl rfl⟩

/-- So is a sequence of changes. -/
theorem Effects.classical {w w' : Workspace} (h : Effects w w') (hw : w.circuit.Classical) :
    w.circuit.labels <+: w'.circuit.labels ∧ w'.circuit.Classical := by
  induction h with
  | refl => exact ⟨List.prefix_refl _, hw⟩
  | tail _ hstep ih =>
    obtain ⟨hl, hw'⟩ := hstep.classical ih.2
    exact ⟨ih.1.trans hl, hw'⟩

variable {α β : Type} {m : Lowering α} {f : α → Lowering β} {zeroed : List Symbol} {a : Assignment}

/-- Such steps can follow each other. -/
theorem Plain.bind (hm : Plain m) (hf : ∀ a, Plain (f a)) : Plain (m >>= f) := by
  intro b w w' h hw
  obtain ⟨a, w₁, hfirst, hrest⟩ := Lowering.bind_eq_ok.1 h
  obtain ⟨hl₁, hw₁⟩ := hm hfirst hw
  obtain ⟨hl₂, hw₂⟩ := hf a hrest hw₁
  exact ⟨hl₁.trans hl₂, hw₂⟩

/-- Driving scratch qubits back repeats gates that are there. -/
theorem Plain.reclaim : Plain reclaim := by
  intro u w w' h hw
  obtain rfl := reclaim_eq_ok (fun e he => (hw.computed e he).1) h
  exact ⟨List.prefix_refl _, hw.reclaimed⟩

/-! ## Assignments in place -/

/-- The parts of an assignment in place: a target that holds 0 takes a copy of the value, and any other is changed where it is. -/
theorem assignInPlace_cases {u : Unit} {w w' : Workspace} (hrun : assignInPlace zeroed a w = .ok (u, w')) :
    ∃ home w₁, w.env.get? a.target = some home ∧
      reclaim { w₁ with memo := (w₁.memo.eraseSymbol a.target).eraseQubit home } = .ok (u, w') ∧
      ((a.target ∈ zeroed ∧ ∃ q w₀, lower a.expr (some home) (some a.target) w = .ok (q, w₀) ∧
          deliver q (some home) w₀ = .ok (home, w₁)) ∨
        (a.target ∉ zeroed ∧ lower a.expr none (some a.target) w = .ok (home, w₁))) := by
  obtain ⟨home, w₂, hl, hbody⟩ := Lowering.bind_eq_ok.1 hrun
  obtain ⟨hhome, rfl⟩ := lookup_eq_ok hl
  obtain ⟨q, w₀, hlower, hrest⟩ := Lowering.bind_eq_ok.1 hbody
  have hend : ∀ {w₁ : Workspace},
      (do modify fun w => { w with memo := (w.memo.eraseSymbol a.target).eraseQubit home }; reclaim : Lowering Unit) w₁ =
        .ok (u, w') → reclaim { w₁ with memo := (w₁.memo.eraseSymbol a.target).eraseQubit home } = .ok (u, w') := by
    intro w₁ h
    obtain ⟨_, w₃, hmod, hreclaim⟩ := Lowering.bind_eq_ok.1 h
    rwa [Lowering.modify_eq_ok.1 hmod]
  dsimp only at hrest
  by_cases hz : a.target ∈ zeroed <;> by_cases hq : q = home
  · subst hq
    rw [if_neg (not_not.2 rfl)] at hrest
    rw [if_pos hz] at hlower
    refine ⟨q, w₀, hhome, hend hrest, Or.inl ⟨hz, q, w₀, hlower, ?_⟩⟩
    rw [deliver, if_pos rfl]
    rfl
  · rw [if_pos hq, if_pos hz, if_neg (by simp)] at hrest
    rw [if_pos hz] at hlower
    obtain ⟨_, w₃, hgate, hrest⟩ := Lowering.bind_eq_ok.1 hrest
    obtain ⟨_, w₁, hrelease, hrest⟩ := Lowering.bind_eq_ok.1 hrest
    refine ⟨home, w₁, hhome, hend hrest, Or.inl ⟨hz, q, w₀, hlower, ?_⟩⟩
    rw [deliver, if_neg (Ne.symm hq)]
    exact Lowering.bind_eq_ok.2 ⟨_, w₃, hgate, Lowering.bind_eq_ok.2 ⟨_, w₁, hrelease, rfl⟩⟩
  · subst hq
    rw [if_neg (not_not.2 rfl)] at hrest
    rw [if_neg hz] at hlower
    exact ⟨q, w₀, hhome, hend hrest, Or.inr ⟨hz, hlower⟩⟩
  · rw [if_pos hq, if_neg hz, if_pos (by simp)] at hrest
    obtain ⟨_, _, hthrow, -⟩ := Lowering.bind_eq_ok.1 hrest
    exact absurd hthrow Lowering.throw_eq_ok.1

/-- An assignment in place is a sequence of changes that lowering makes, and then the scratch qubits are driven back. It leaves
behind what its expression does, but a target that holds 0 is made a constant where it is. -/
theorem assignInPlace_effects {u : Unit} {w w' : Workspace} (h : a.expr.isBoolean = true)
    (hrun : assignInPlace zeroed a w = .ok (u, w')) : ∃ w₁, Effects w w₁ ∧ (w.Stocked → Supplied (a.leaves zeroed) w w₁) ∧
      reclaim w₁ = .ok (u, w') := by
  obtain ⟨home, w₁, -, hreclaim, hparts⟩ := assignInPlace_cases hrun
  have hforget : Quiet (modify fun w => { w with memo := (w.memo.eraseSymbol a.target).eraseQubit home } : Lowering Unit) :=
    .memo fun _ _ hb => (Memo.mem_eraseSymbol.1 (Memo.mem_eraseQubit.1 hb).1).1
  have hbox : a.leaves zeroed .blackBox = false := by simp [Assignment.leaves, h]
  have hmade : Effects w w₁ ∧ (w.Stocked → Supplied (a.leaves zeroed) w w₁) := by
    rcases hparts with ⟨hz, q, w₀, hlower, hdeliver⟩ | ⟨hz, hlower⟩
    · have heq : a.leaves zeroed = a.expr.leavesAt (some home) := by
        funext r
        cases r <;> simp [Assignment.leaves, Assignment.asksFor, Expression.leavesAt, hz]
      have hmoved := (traced_root a.expr (some home) (some a.target)).bind_quiet fun q => .deliver q (some home)
      exact (hmoved.of_eq heq (Lowering.bind_eq_ok.2 ⟨q, w₀, hlower, hdeliver⟩)).imp_left fun he => he hbox
    · have heq : a.leaves zeroed = a.expr.leavesAt none := by
        funext r
        cases r <;> simp [Assignment.leaves, Assignment.asksFor, Expression.leavesAt, hz]
      exact ((traced_root a.expr none (some a.target)).of_eq heq hlower).imp_left fun he => he hbox
  obtain ⟨heffect, hsupplied⟩ := @hforget () w₁ _ (Lowering.modify_eq_ok.2 rfl)
  exact ⟨_, hmade.1.trans (heffect rfl), fun hw => (hmade.2 hw).then_same (hsupplied (hmade.2 hw).stocked), hreclaim⟩

/-- An assignment in place is such a step. -/
theorem plain_assignInPlace (h : a.expr.isBoolean = true) : Plain (assignInPlace zeroed a) := by
  intro u w w' hrun hw
  obtain ⟨w₁, he, -, hreclaim⟩ := assignInPlace_effects h hrun
  obtain ⟨hl₁, hw₁⟩ := he.classical hw
  obtain ⟨hl₂, hw₂⟩ := Plain.reclaim hreclaim hw₁
  exact ⟨hl₁.trans hl₂, hw₂⟩

/-- So are several, one after another. -/
theorem plain_assignAllInPlace {l : List Assignment} (h : ∀ a ∈ l, a.expr.isBoolean = true) :
    Plain (assignAllInPlace zeroed l) := by
  induction l with
  | nil =>
    intro u w w' hrun hw
    obtain ⟨-, rfl⟩ := Lowering.pure_eq_ok.1 hrun
    exact ⟨List.prefix_refl _, hw⟩
  | cons a l ih =>
    exact .bind (plain_assignInPlace (h a List.mem_cons_self)) fun _ => ih fun b hb => h b (List.mem_cons_of_mem a hb)

/-- Binding arguments adds their qubits and no gate. -/
theorem bindInputs_circuit {l : List Symbol} : ∀ {u : Unit} {w w' : Workspace}, bindInputs l w = .ok (u, w') →
    w'.circuit.labels = w.circuit.labels ++ l ∧ w'.circuit.gates = w.circuit.gates ∧
      w'.circuit.computed = w.circuit.computed := by
  induction l with
  | nil =>
    intro u w w' h
    obtain ⟨-, rfl⟩ := Lowering.pure_eq_ok.1 h
    exact ⟨(List.append_nil _).symm, rfl, rfl⟩
  | cons s l ih =>
    intro u w w' h
    obtain ⟨_, w₁, hs, hrest⟩ := Lowering.bind_eq_ok.1 h
    obtain ⟨q, hs, -⟩ := Lowering.map_eq_ok.1 hs
    obtain ⟨_, w₂, hadd, hset⟩ := Lowering.bind_eq_ok.1 hs
    obtain ⟨-, rfl⟩ := Lowering.onCircuit_eq_ok.1 hadd
    obtain ⟨_, w₃, hmod, hret⟩ := Lowering.bind_eq_ok.1 hset
    obtain rfl := Lowering.modify_eq_ok.1 hmod
    obtain ⟨-, rfl⟩ := Lowering.pure_eq_ok.1 hret
    obtain ⟨hl, hg, hc⟩ := ih hrest
    refine ⟨hl.trans ?_, hg, hc⟩
    exact List.append_assoc _ [s] l

end Workspace

/-- A circuit compiled in place from expressions without black boxes has the symbols on its first qubits, and gates of the NOT
family that fit its register. -/
theorem compileInPlace_spec {options : Options} {name : String} {symbols zeroed : List Symbol} {l : List Assignment}
    {c : Circuit} (hl : ∀ a ∈ l, a.expr.isBoolean = true) (h : compileInPlace options name symbols l zeroed = .ok c) :
    symbols <+: c.labels ∧ ∀ g ∈ c.gates, g.Flips c.numQubits := by
  obtain ⟨order, -, hsteps⟩ := Outcome.bind_eq_ok.1 h
  obtain ⟨⟨_, w⟩, hrun, hret⟩ := Outcome.bind_eq_ok.1 hsteps
  obtain rfl := Outcome.pure_eq_ok.1 hret
  obtain ⟨_, w₁, hbind, hassign⟩ := Lowering.bind_eq_ok.1 hrun
  obtain ⟨hlabels, hgates, hcomputed⟩ := Workspace.bindInputs_circuit hbind
  have hclassical : w₁.circuit.Classical := by
    refine ⟨?_, ?_⟩
    · rw [hgates]
      exact fun g hg => nomatch hg
    · rw [hcomputed]
      exact fun e he => nomatch he
  have horder : ∀ a ∈ order.filterMap (l[·]?), a.expr.isBoolean = true := by
    intro a ha
    obtain ⟨i, -, hi⟩ := List.mem_filterMap.1 ha
    exact hl a (List.mem_of_getElem? hi)
  obtain ⟨hgrown, hfinal⟩ := Workspace.plain_assignAllInPlace horder hassign hclassical
  rw [hlabels] at hgrown
  exact ⟨hgrown, hfinal.gates⟩

end ReversibleLogic
