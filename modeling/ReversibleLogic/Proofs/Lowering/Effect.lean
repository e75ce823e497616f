import Mathlib.Logic.Relation
import ReversibleLogic.Compile.Assignments
import ReversibleLogic.Proofs.Lowering.Residue
import ReversibleLogic.Proofs.Lowering.Root
import ReversibleLogic.Proofs.Relabel

/-!
# What lowering does to a workspace

Whether or not what it computes is right, lowering an expression without black boxes changes a workspace in few ways: gates of the
NOT family and qubits are appended, scratch qubits are taken and marked, notes are made and dropped, and a constant gets its
qubit. `Effect` lists these changes. What every change keeps, lowering keeps.

`Traced` says of a step that a run of it is a sequence of changes, unless it leaves a black box behind, and what it leaves behind.
Sequences of such steps are such steps, and `traced_lower` follows the recursion of lowering.
-/

namespace ReversibleLogic

/-- Taking a scratch qubit leaves gates, operations and names, and adds a qubit at most. -/
theorem Circuit.takeAncilla_same (c : Circuit) : c.takeAncilla.1.gates = c.gates ∧ c.takeAncilla.1.computed = c.computed ∧
    c.takeAncilla.1.names = c.names ∧ c.labels <+: c.takeAncilla.1.labels := by
  unfold takeAncilla
  split
  · exact ⟨rfl, rfl, rfl, List.prefix_refl _⟩
  · exact ⟨rfl, rfl, rfl, List.prefix_append _ _⟩

namespace Workspace

/-- The workspace after a constant got a qubit of its own, not yet with the value of the constant. -/
def addConst (w : Workspace) (v : Bool) : Workspace :=
  { w with
    circuit := (w.circuit.addQubit (some (constName v))).1
    trueQubit := if v then some w.circuit.numQubits else w.trueQubit
    falseQubit := if v then w.falseQubit else some w.circuit.numQubits }

theorem constQubit_addConst (w : Workspace) (u v : Bool) :
    (w.addConst v).constQubit u = if u = v then some w.circuit.numQubits else w.constQubit u := by
  cases u <;> cases v <;> rfl

/-- A change that lowering makes. -/
inductive Effect (w : Workspace) : Workspace → Prop
  /-- A gate of the NOT family is appended. -/
  | gate {g : Gate} {c : Circuit} (hg : g.kind.isClassical = true) (h : w.circuit.append g = (c, .ok ())) :
    Effect w { w with circuit := c }
  /-- A gate is appended with a control flipped around it. -/
  | conjugated {flip : Qubit} {g : Gate} {c : Circuit} (h : w.circuit.appendConjugated flip g = (c, .ok ())) :
    Effect w { w with circuit := c }
  /-- A qubit without a name is added, for an output. -/
  | qubit {s : Symbol} (h : s ∈ w.outputs) : Effect w { w with circuit := (w.circuit.addQubit none).1 }
  /-- A scratch qubit is taken. -/
  | ancilla : Effect w { w with circuit := w.circuit.takeAncilla.1 }
  /-- Scratch qubits are marked. -/
  | mark (m : QubitSet) : Effect w { w with circuit := { w.circuit with marked := m } }
  /-- Notes are made or dropped. -/
  | memo (m : Memo) : Effect w { w with memo := m }
  /-- A constant without a qubit gets one. -/
  | const {v : Bool} (h : w.constQubit v = none) : Effect w (w.addConst v)

/-- A sequence of changes. -/
abbrev Effects : Workspace → Workspace → Prop := Relation.ReflTransGen Effect

namespace Effect

/-- No change takes back a gate. -/
theorem gates {w w' : Workspace} (h : Effect w w') : w.circuit.gates ⊆ w'.circuit.gates := by
  cases h with
  | gate _ hc =>
    rw [(Circuit.appended_append hc).gates]
    exact List.subset_append_left _ _
  | conjugated hc =>
    obtain ⟨-, -, t, -, -, rfl⟩ := Circuit.appendConjugated_eq_ok hc
    exact List.subset_append_left _ _
  | ancilla => exact w.circuit.takeAncilla_same.1 ▸ List.Subset.refl _
  | qubit _ | mark _ | memo _ | const _ => exact List.Subset.refl _

/-- A change of nothing but the circuit leaves nothing behind. -/
theorem supplied {w : Workspace} {c : Circuit} (h : Effect w { w with circuit := c }) (hw : w.Stocked) :
    Supplied (fun _ => false) w { w with circuit := c } :=
  .same hw h.gates (fun _ hb => hb) fun v => by cases v <;> rfl

end Effect

/-- A constant that has got a qubit is there. -/
theorem Supplied.addConst {w : Workspace} (hw : w.Stocked) (u : Bool) :
    Supplied ((Expression.const u).leaves false) w (w.addConst u) := by
  have hconst : ∀ v, (w.addConst u).Has (.const v) ↔ w.Has (.const v) ∨ (Expression.const u).leaves false (.const v) = true := by
    intro v
    change ((w.addConst u).constQubit v).isSome = true ↔ (w.constQubit v).isSome = true ∨ (u == v) = true
    rw [constQubit_addConst, beq_iff_eq]
    by_cases hv : v = u
    · simp [hv]
    · rw [if_neg hv, or_iff_left (Ne.symm hv)]
  have hkept : ∀ r, w.Has r → (w.addConst u).Has r
    | .const v, hr => (hconst v).2 (Or.inl hr)
    | .blackBox, hr => hr
  refine ⟨fun b hb r hr => hkept r (hw b hb r hr), fun r hr => ?_, fun v => (hconst v).1⟩
  cases r with
  | const v => exact (hconst v).2 hr
  | blackBox => exact hkept _ (hr.resolve_right Bool.false_ne_true)

/-! ## Steps -/

/-- The step leaves `N` behind, and unless there is a black box in `N`, a run of it is a sequence of changes. -/
def Traced (N : Residue → Bool) {α : Type} (m : Lowering α) : Prop :=
  ∀ ⦃a : α⦄ ⦃w w' : Workspace⦄, m w = .ok (a, w') → (N .blackBox = false → Effects w w') ∧ (w.Stocked → Supplied N w w')

/-- A step that leaves nothing behind. -/
abbrev Quiet {α : Type} (m : Lowering α) : Prop := Traced (fun _ => false) m

namespace Traced

variable {N M : Residue → Bool} {α β : Type} {m : Lowering α} {f : α → Lowering β} {e : Expression} {es : List Expression}
  {out q : Qubit} {dest : Option Qubit} {target : Option Symbol}

/-- What a step leaves behind can be named otherwise. -/
theorem of_eq (h : Traced N m) (hN : M = N) : Traced M m := hN ▸ h

/-! ### Sequences -/

theorem pure (a : α) : Quiet (pure a : Lowering α) := by
  intro b w w' h
  obtain ⟨-, rfl⟩ := Lowering.pure_eq_ok.1 h
  exact ⟨fun _ => .refl, fun hw => .refl hw (by simp)⟩

/-- Two steps leave behind what either does. -/
theorem bind (hm : Traced N m) (hf : ∀ a, Traced M (f a)) : Traced (fun r => N r || M r) (m >>= f) := by
  intro b w w' h
  obtain ⟨a, w₁, hfirst, hrest⟩ := Lowering.bind_eq_ok.1 h
  obtain ⟨he, hs⟩ := hm hfirst
  obtain ⟨he', hs'⟩ := hf a hrest
  refine ⟨fun hbox => ?_, fun hw => (hs hw).trans (hs' (hs hw).stocked)⟩
  obtain ⟨hN, hM⟩ := Bool.or_eq_false_iff.1 hbox
  exact (he hN).trans (he' hM)

/-- What comes after the step leaves nothing behind. -/
theorem bind_quiet (hm : Traced N m) (hf : ∀ a, Quiet (f a)) : Traced N (m >>= f) := by
  simpa only [Bool.or_false] using bind hm hf

/-- What comes before the step leaves nothing behind. -/
theorem quiet_bind (hm : Quiet m) (hf : ∀ a, Traced N (f a)) : Traced N (m >>= f) := by
  simpa only [Bool.false_or] using bind hm hf

/-- A step that fails has no run. -/
theorem throw (e : CompileError) : Traced N (throw e : Lowering α) := by
  intro b w w' h
  exact absurd h Lowering.throw_eq_ok.1

/-- Nothing comes after a failure. -/
theorem throw_bind (e : CompileError) : Traced N (MonadExcept.throw e >>= f) := by
  intro b w w' h
  obtain ⟨a, w₁, hfirst, -⟩ := Lowering.bind_eq_ok.1 h
  exact absurd hfirst Lowering.throw_eq_ok.1

/-- Reading the workspace changes nothing. -/
theorem get_bind {f : Workspace → Lowering β} (hf : ∀ w, Traced N (f w)) : Traced N (get >>= f) := by
  intro b w w' h
  rw [Lowering.get_bind] at h
  exact hf w h

/-! ### Steps on the circuit -/

/-- A step that is one change of the circuit. -/
theorem of_circuit (h : ∀ ⦃a : α⦄ ⦃w w' : Workspace⦄, m w = .ok (a, w') → ∃ c, { w with circuit := c } = w' ∧ Effect w w') :
    Quiet m := by
  intro a w w' hrun
  obtain ⟨c, rfl, he⟩ := h hrun
  exact ⟨fun _ => .single he, he.supplied⟩

/-- A gate of the NOT family is appended. -/
theorem gate {g : Gate} (hg : g.kind.isClassical = true) : Quiet (gate g) := by
  refine of_circuit fun u w w' h => ?_
  obtain ⟨c, hc, rfl⟩ := Lowering.emit_eq_ok.1 h
  exact ⟨c, rfl, .gate hg hc⟩

theorem x (q : Qubit) : Quiet (Workspace.gate (.x q)) := gate rfl

theorem cx (control target : Qubit) : Quiet (Workspace.gate (.cx control target)) := gate rfl

/-- Whatever the number of controls, the gate is of the NOT family. -/
theorem mcx (controls : List Qubit) (out : Qubit) : Quiet (Workspace.gate (.mcx controls out)) := by
  refine gate ?_
  change (GateKind.ofControls controls.length).isClassical = true
  unfold GateKind.ofControls
  split <;> rfl

/-- A black box that is appended stays in the circuit. -/
theorem blackBox (tag : String) (qubits : List Qubit) :
    Traced Residue.isBlackBox (Workspace.gate { kind := .blackBox tag, qubits }) := by
  intro u w w' h
  obtain ⟨c, hc, rfl⟩ := Lowering.emit_eq_ok.1 h
  have hgates : c.gates = w.circuit.gates ++ [{ kind := .blackBox tag, qubits }] := (Circuit.appended_append hc).gates
  refine ⟨fun hbox => Bool.noConfusion hbox, fun hw => ?_⟩
  have hsame : Supplied (fun _ => false) w { w with circuit := c } :=
    .same hw (hgates ▸ List.subset_append_left _ _) (fun _ hb => hb) fun v => by cases v <;> rfl
  refine hsame.same_then (.refl hsame.stocked fun r hr => ?_)
  cases r with
  | const v => exact Bool.noConfusion hr
  | blackBox => exact ⟨{ kind := .blackBox tag, qubits }, by simp [hgates], rfl⟩

/-- A gate is appended with a control flipped around it. -/
theorem conjugated {flip : Qubit} {g : Gate} : Quiet (emit (·.appendConjugated flip g)) := by
  refine of_circuit fun u w w' h => ?_
  obtain ⟨c, hc, rfl⟩ := Lowering.emit_eq_ok.1 h
  exact ⟨c, rfl, .conjugated hc⟩

/-- The destination is used, or a scratch qubit is taken. -/
theorem scratch (dest : Option Qubit) : Quiet (scratch dest) := by
  cases dest with
  | some q => exact pure q
  | none =>
    refine of_circuit fun q w w' h => ?_
    obtain ⟨-, rfl⟩ := Lowering.onCircuit_eq_ok (f := Circuit.takeAncilla).1 h
    exact ⟨_, rfl, .ancilla⟩

/-- A scratch qubit is marked, if it is one. -/
theorem release (q : Qubit) : Quiet (release q) := by
  refine of_circuit fun u w w' h => ?_
  obtain ⟨m, rfl, -⟩ := release_eq_ok h
  exact ⟨_, rfl, .mark m⟩

theorem releaseAll : ∀ qs : List Qubit, Quiet (releaseAll qs)
  | [] => pure ()
  | q :: qs => bind (release q) fun _ => releaseAll qs

/-! ### Steps on names and notes -/

/-- The qubit of a symbol is only read. -/
theorem lookup (s : Symbol) : Quiet (lookup s) := by
  refine get_bind fun w => ?_
  split
  · exact pure _
  · exact throw _

/-- Notes are dropped. -/
theorem memo {f : Workspace → Memo} (hf : ∀ w, ∀ b ∈ (f w).entries, b ∈ w.memo.entries) :
    Quiet (modify fun w => { w with memo := f w } : Lowering Unit) := by
  intro u w w' h
  obtain rfl := Lowering.modify_eq_ok.1 h
  exact ⟨fun _ => .single (.memo _), fun hw => .same hw (List.Subset.refl _) (hf w) fun v => by cases v <;> rfl⟩

/-- What was held on a qubit is dropped. -/
theorem forget (q : Qubit) : Quiet (forget q) := memo fun _ _ hb => (Memo.mem_eraseQubit.1 hb).1

/-- A value that is noted has been made before, so what it leaves behind is there. -/
theorem reuse {make : Lowering Qubit} (h : Traced N make) (hN : ∀ r, N r = true → e.leaves false r = true) :
    Traced N (reuse e make) := by
  intro q w w' hrun
  rw [Workspace.reuse, Lowering.get_bind] at hrun
  cases hp : (if w.options.memoize then w.memo.get? e else none) with
  | none =>
    rw [hp] at hrun
    exact h hrun
  | some p =>
    rw [hp] at hrun
    obtain ⟨-, rfl⟩ := Lowering.pure_eq_ok.1 hrun
    have hnoted : (e, p) ∈ w.memo.entries := by
      split at hp
      · exact Memo.mem_of_get? hp
      · cases hp
    exact ⟨fun _ => .refl, fun hw => .refl hw fun r hr => hw _ hnoted r (hN r hr)⟩

/-- A value that is made is noted, and what it leaves behind is there by then. -/
theorem remember {make : Lowering Qubit} (h : Traced N make) (hN : e.leaves false = N) :
    Traced N (remember e make) := by
  subst hN
  refine reuse (fun q w w' hrun => ?_) fun _ hr => hr
  obtain ⟨p, w₁, hmake, hrest⟩ := Lowering.bind_eq_ok.1 hrun
  obtain ⟨_, w₂, hnote, hret⟩ := Lowering.bind_eq_ok.1 hrest
  obtain ⟨-, rfl⟩ := Lowering.pure_eq_ok.1 hret
  obtain rfl := Lowering.modify_eq_ok.1 hnote
  obtain ⟨he, hs⟩ := h hmake
  by_cases hmemoize : w₁.options.memoize = true
  · rw [if_pos hmemoize]
    refine ⟨fun hbox => (he hbox).tail (.memo _), fun hw => ?_⟩
    have hsame : ∀ r, w₁.Has r → Workspace.Has { w₁ with memo := w₁.memo.insert e p } r := fun r hr =>
      hr.mono (List.Subset.refl _) fun v => by cases v <;> rfl
    refine ⟨fun b hb r hr => hsame r ?_, fun r hr => hsame r ((hs hw).kept r hr), (hs hw).asked⟩
    rcases Memo.mem_insert hb with rfl | hb
    · exact (hs hw).kept r (Or.inr hr)
    · exact (hs hw).stocked b hb r hr
  · rw [if_neg hmemoize]
    exact ⟨he, hs⟩

/-- A value that is held is added from where it is, and any other is made. -/
theorem held {made added : Lowering Unit} (h : Traced N made) (h' : Traced N added) :
    Traced N (do if ← Workspace.isHeld e then made else added) := by
  refine quiet_bind (get_bind fun _ => pure _) fun held => ?_
  split
  · exact h
  · exact h'

/-- An operator without operands is refused, and any other is lowered. -/
theorem atLeastOne {op : Operator} (h : Traced N m) : Traced N (atLeastOne op es m) := by
  unfold Workspace.atLeastOne
  split
  · exact throw _
  · exact h

/-! ### Leaves and operators -/

/-- A constant is made at the destination. -/
theorem lowerConst_some (value : Bool) (out : Qubit) : Quiet (lowerConst value (some out)) := by
  rw [Workspace.lowerConst]
  split
  · exact bind (x out) fun _ => pure out
  · exact pure out

/-- Without a destination, a constant has its qubit already, or gets it. -/
theorem lowerConst_none (value : Bool) : Traced ((Expression.const value).leaves false) (lowerConst value none) := by
  intro q w w' h
  rw [Workspace.lowerConst, Lowering.get_bind] at h
  have hconst : (if value then w.trueQubit else w.falseQubit) = w.constQubit value := by cases value <;> rfl
  rw [hconst] at h
  cases hq : w.constQubit value with
  | some p =>
    rw [hq] at h
    obtain ⟨-, rfl⟩ := Lowering.pure_eq_ok.1 h
    refine ⟨fun _ => .refl, fun hw => .refl hw fun r hr => ?_⟩
    cases r with
    | blackBox => exact Bool.noConfusion hr
    | const v =>
      obtain rfl : value = v := beq_iff_eq.1 hr
      exact Option.isSome_iff_exists.2 ⟨p, hq⟩
  | none =>
    rw [hq] at h
    obtain ⟨p, w₁, hadd, h⟩ := Lowering.bind_eq_ok.1 h
    obtain ⟨rfl, rfl⟩ := Lowering.onCircuit_eq_ok.1 hadd
    cases value with
    | false =>
      obtain ⟨_, w₂, hset, h⟩ := Lowering.bind_eq_ok.1 h
      obtain ⟨-, rfl⟩ := Lowering.pure_eq_ok.1 h
      obtain rfl := Lowering.modify_eq_ok.1 hset
      exact ⟨fun _ => .single (.const hq), fun hw => .addConst hw false⟩
    | true =>
      -- The flip comes before the note of the qubit, but neither depends on the other.
      obtain ⟨_, w₂, hflip, h⟩ := Lowering.bind_eq_ok.1 h
      obtain ⟨_, w₃, hset, h⟩ := Lowering.bind_eq_ok.1 h
      obtain ⟨-, rfl⟩ := Lowering.pure_eq_ok.1 h
      obtain rfl := Lowering.modify_eq_ok.1 hset
      obtain ⟨c, hc, rfl⟩ := Lowering.emit_eq_ok.1 hflip
      have hflip' : Workspace.gate (.x w.circuit.numQubits) (w.addConst true) =
          .ok ((), { w.addConst true with circuit := c }) := Lowering.emit_eq_ok.2 ⟨c, hc, rfl⟩
      obtain ⟨he, hs⟩ := x _ hflip'
      refine ⟨fun _ => (he rfl).head (.const hq), fun hw => ?_⟩
      have hadd := Supplied.addConst hw true
      exact hadd.then_same (hs hadd.stocked)

/-- A symbol has its qubit, and at most a copy of it is made. -/
theorem lowerRef (s : Symbol) (dest : Option Qubit) (target : Option Symbol) : Quiet (lowerRef s dest target) := by
  intro q w w' hrun
  obtain ⟨p, w₁, hl, h⟩ := Lowering.bind_eq_ok.1 hrun
  obtain ⟨-, rfl⟩ := lookup_eq_ok hl
  have hcopy : ∀ copy : Qubit, Quiet (do Workspace.gate (.cx p copy); return copy : Lowering Qubit) :=
    fun copy => bind (cx p copy) fun _ => pure copy
  rw [Lowering.get_bind] at h
  split at h
  · next hself =>
    cases dest with
    | some out => exact bind (pure out) hcopy h
    | none =>
      obtain ⟨copy, w₂, hadd, h⟩ := Lowering.bind_eq_ok.1 h
      obtain ⟨-, rfl⟩ := Lowering.onCircuit_eq_ok.1 hadd
      obtain ⟨he, hs⟩ := hcopy copy h
      have hadd : Effect w₁ { w₁ with circuit := (w₁.circuit.addQubit none).1 } := .qubit hself.2.1
      exact ⟨fun _ => (he rfl).head hadd, fun hw => (hadd.supplied hw).then_same (hs (hadd.supplied hw).stocked)⟩
  · exact pure p h

/-- A disjunction is added by gates of the NOT family. -/
theorem addOr (lhs rhs out : Qubit) : Quiet (addOr lhs rhs out) := by
  unfold Workspace.addOr
  split
  · exact cx lhs out
  · exact bind conjugated fun _ => cx rhs out

/-- The operand is made, unless it is a symbol that is flipped where it is. -/
theorem negate {operand : Lowering Qubit} (h : Traced (e.leaves false) operand) :
    Traced (e.leaves false) (negate e dest target operand) := by
  intro q w w' hrun
  obtain ⟨found, w₁, hflip, hrest⟩ := Lowering.bind_eq_ok.1 hrun
  obtain ⟨rfl, hsome⟩ := flipInPlace?_eq_ok hflip
  cases found with
  | some p =>
    obtain ⟨-, t, rfl, -⟩ := hsome p rfl
    have hstep : Quiet (do Workspace.forget p; Workspace.gate (.x p); return p : Lowering Qubit) :=
      bind (forget p) fun _ => bind (x p) fun _ => pure p
    exact hstep.of_eq (Expression.leaves_ref t) hrest
  | none =>
    refine get_bind (fun w => bind_quiet h fun q => get_bind fun w => ?_) hrest
    split
    · exact bind (forget q) fun _ => bind (x q) fun _ => pure q
    · exact bind (scratch dest) fun out => bind (cx q out) fun _ => bind (x out) fun _ => bind (release q) fun _ => pure out

/-- A conjunction leaves behind what its operands do. -/
theorem conjoin {operands : Lowering (List Qubit)} (h : Traced N operands) : Traced N (conjoin operands dest) := by
  refine bind_quiet h fun controls => ?_
  split
  · exact pure _
  · exact bind (scratch _) fun out => bind (mcx _ out) fun _ => bind (releaseAll _) fun _ => pure out

/-- Also when it is added to a qubit. -/
theorem addConjunction {operands : Lowering (List Qubit)} (h : Traced N operands) : Traced N (addConjunction operands out) :=
  bind_quiet h fun controls => bind (mcx controls out) fun _ => releaseAll controls

/-- A disjunction leaves behind what its operands do. -/
theorem disjoin {operands : Lowering (Qubit × Qubit)} (h : Traced N operands) : Traced N (disjoin operands dest) := by
  refine bind_quiet h fun p => ?_
  dsimp only
  split
  · exact pure _
  · exact bind (scratch dest) fun out => bind (addOr _ _ out) fun _ =>
      bind (release _) fun _ => bind (release _) fun _ => pure out

/-- Also when it is added to a qubit. -/
theorem addDisjunction {operands : Lowering (Qubit × Qubit)} (h : Traced N operands) : Traced N (addDisjunction operands out) :=
  bind_quiet h fun _ => bind (addOr _ _ out) fun _ => bind (release _) fun _ => release _

/-- All operands are added, unless one is the symbol on whose qubit they are added up. -/
theorem sumUp {add : Qubit → Option Nat → Lowering Unit}
    (h : ∀ q skip, (∀ i, skip = some i → ∃ t, es[i]? = some (.ref t)) → Traced N (add q skip)) :
    Traced N (sumUp es dest target add) := by
  unfold Workspace.sumUp
  split
  · exact throw_bind _
  · intro q w w' hrun
    dsimp only at hrun
    rw [Lowering.get_bind] at hrun
    cases hsum : w.sumInPlace? es dest target with
    | some found =>
      obtain ⟨pos, p⟩ := found
      obtain ⟨-, t, -, hpos, -⟩ := sumInPlace?_eq_some hsum
      have hadd : Traced N (add p (some pos)) := h p _ fun i hi => ⟨t, Option.some.inj hi ▸ hpos⟩
      rw [hsum] at hrun
      exact quiet_bind (forget p) (fun _ => bind_quiet hadd fun _ => pure p) hrun
    | none =>
      rw [hsum] at hrun
      exact quiet_bind (scratch dest) (fun out => bind_quiet (h out none (by simp)) fun _ => pure out) hrun

/-- A value that is added leaves behind what it does when it is made. -/
theorem addValue {value : Lowering Qubit} (h : Traced N value) : Traced N (addValue value out) :=
  bind_quiet h fun q => bind (cx q out) fun _ => release q

/-- A black box is applied to the operands at the end. -/
theorem applyBlackBox {tag : String} {operands : Lowering (List Qubit)} (h : Traced N operands) :
    Traced (fun r => N r || r.isBlackBox) (applyBlackBox tag operands) := by
  refine bind h fun qubits => ?_
  split
  · exact throw _
  · next last _ => exact quiet_bind (forget last) fun _ => bind_quiet (blackBox tag qubits) fun _ => pure last

end Traced

/-! ## Expressions -/

open Expression (anyLeaves leaves_ref leaves_const_added leaves_not leaves_and leaves_or leaves_xor leaves_blackBox anyLeaves_nil
  anyLeaves_cons leavesAt_eq_leaves)

mutual

/-- Lowering an expression leaves behind what can be read off it. -/
theorem traced_lower : ∀ (e : Expression) (dest : Option Qubit) (target : Option Symbol), (∀ v, e = .const v → dest = none) →
    Traced (e.leaves false) (lower e dest target)
  | .const value, dest, _, hdest => by
    obtain rfl := hdest value rfl
    exact .reuse (.lowerConst_none value) fun _ hr => hr
  | .ref s, dest, target, _ => .of_eq (.reuse (.lowerRef s dest target) nofun) (leaves_ref s)
  | .not e, _, _, _ => .of_eq (.remember (.negate (traced_lower e none none fun _ _ => rfl)) leaves_not) leaves_not
  | .and es, _, _, _ => .of_eq (.remember (.conjoin (.atLeastOne (traced_lowerAll es []))) leaves_and) leaves_and
  | .or es, _, _, _ => .of_eq (.remember (.disjoin (traced_lowerPair es)) leaves_or) leaves_or
  | .xor es, _, _, _ => .of_eq (.remember (.sumUp fun q skip h => traced_addAll es q skip h) leaves_xor) leaves_xor
  | .blackBox tag es, _, _, _ =>
    .of_eq (.remember (.applyBlackBox (.atLeastOne (traced_lowerAll es []))) (leaves_blackBox tag)) (leaves_blackBox tag)

theorem traced_lowerAll : ∀ (es : List Expression) (found : List Qubit), Traced (anyLeaves es false) (lowerAll es found)
  | [], found => .of_eq (.pure found) anyLeaves_nil
  | e :: es, _ => .of_eq (.bind (traced_lower e none none fun _ _ => rfl) fun _ => traced_lowerAll es _) anyLeaves_cons

theorem traced_lowerPair : ∀ es : List Expression, Traced (anyLeaves es false) (lowerPair es)
  | [l, r] => by
    have hpair : Traced (fun res => l.leaves false res || r.leaves false res) (lowerPair [l, r]) :=
      .bind (traced_lower l none none fun _ _ => rfl) fun _ =>
        .bind_quiet (traced_lower r none none fun _ _ => rfl) fun _ => .pure _
    exact hpair.of_eq (by simp only [anyLeaves_cons, anyLeaves_nil, Bool.or_false])
  | [] | [_] | _ :: _ :: _ :: _ => .throw _

theorem traced_addTo : ∀ (e : Expression) (out : Qubit), Traced (e.leaves true) (addTo e out)
  | .const true, out => .of_eq (.x out) (leaves_const_added true)
  | .const false, _ => .of_eq (.pure ()) (leaves_const_added false)
  | .ref s, _ => .of_eq (.addValue (.reuse (.lowerRef s none none) nofun)) (leaves_ref s)
  | .not e, out => .of_eq (.bind_quiet (traced_addTo e out) fun _ => .x out) leaves_not
  | .and es, _ => by
    have hall : Traced (anyLeaves es false) (atLeastOne .and es (lowerAll es [])) := .atLeastOne (traced_lowerAll es [])
    exact .of_eq (.held (.addValue (.remember (.conjoin hall) leaves_and)) (.addConjunction hall)) leaves_and
  | .or es, _ => by
    have hpair := traced_lowerPair es
    exact .of_eq (.held (.addValue (.remember (.disjoin hpair) leaves_or)) (.addDisjunction hpair)) leaves_or
  | .xor es, _ => .of_eq (.addValue (.remember (.sumUp fun q skip h => traced_addAll es q skip h) leaves_xor)) leaves_xor
  | .blackBox tag es, _ => by
    have hall : Traced (anyLeaves es false) (atLeastOne .blackBox es (lowerAll es [])) := .atLeastOne (traced_lowerAll es [])
    exact .of_eq (.addValue (.remember (.applyBlackBox hall) (leaves_blackBox tag))) (leaves_blackBox tag)

theorem traced_addAll : ∀ (es : List Expression) (out : Qubit) (skip : Option Nat),
    (∀ i, skip = some i → ∃ t, es[i]? = some (.ref t)) → Traced (anyLeaves es true) (addAll es out skip)
  | [], _, _, _ => .of_eq (.pure ()) anyLeaves_nil
  | e :: es, out, some 0, h => by
    obtain ⟨t, ht⟩ := h 0 rfl
    obtain rfl : e = .ref t := Option.some.inj ht
    exact (traced_addAll es out none (by simp)).of_eq (by simp only [anyLeaves_cons, leaves_ref, Bool.false_or])
  | e :: es, out, none, _ => .of_eq (.bind (traced_addTo e out) fun _ => traced_addAll es out none (by simp)) anyLeaves_cons
  | e :: es, out, some (i + 1), h => by
    have hrest := traced_addAll es out (some i) fun j hj => Option.some.inj hj ▸ h (i + 1) rfl
    exact .of_eq (.bind (traced_addTo e out) fun _ => hrest) anyLeaves_cons

end

/-- The expression of an assignment may be lowered to a given qubit. Then a constant is made there. -/
theorem traced_root (e : Expression) (dest : Option Qubit) (target : Option Symbol) :
    Traced (e.leavesAt dest) (lower e dest target) := by
  by_cases hmade : ∃ u, e = .const u ∧ dest ≠ none
  · obtain ⟨u, rfl, hdest⟩ := hmade
    obtain ⟨out, rfl⟩ := Option.ne_none_iff_exists'.1 hdest
    have hmake : Quiet (lower (.const u) (some out) target) := .reuse (.lowerConst_some u out) nofun
    refine hmake.of_eq (funext fun r => ?_)
    cases r with
    | blackBox => rfl
    | const v => cases u <;> cases v <;> rfl
  · have hdest : ∀ v, e = .const v → dest = none := fun v he => by_contra fun hd => hmade ⟨v, he, hd⟩
    exact (traced_lower e dest target hdest).of_eq (leavesAt_eq_leaves hdest)

/-- The qubit for an output is added before its value is made. -/
theorem destination_traced {s : Symbol} {dest : Option Qubit} {w w' : Workspace}
    (hrun : (if s ∈ w.outputs then some <$> onCircuit (·.addQubit none) else pure none : Lowering (Option Qubit)) w =
      .ok (dest, w')) : Effects w w' ∧ (w.Stocked → Supplied (fun _ => false) w w') := by
  split at hrun
  · next hout =>
    obtain ⟨_, hadd, -⟩ := Lowering.map_eq_ok.1 hrun
    obtain ⟨-, rfl⟩ := Lowering.onCircuit_eq_ok.1 hadd
    have heffect : Effect w { w with circuit := (w.circuit.addQubit none).1 } := .qubit hout
    exact ⟨.single heffect, heffect.supplied⟩
  · exact (Traced.pure none hrun).imp_left fun he => he rfl

/-- A value is moved by a copy. -/
theorem Traced.deliver (q : Qubit) (dest : Option Qubit) : Quiet (deliver q dest) := by
  unfold Workspace.deliver
  split
  · split
    · exact .pure _
    · exact .bind (.cx ..) fun _ => .bind (.release q) fun _ => .pure _
  · exact .pure _

end Workspace

end ReversibleLogic
