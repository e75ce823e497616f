import ReversibleLogic.Proofs.Lowering.Root
import ReversibleLogic.Proofs.Relabel

/-!
# When a step of a compilation succeeds

`Decides Q P r` says of the outcome `r` of a step that it is a success exactly if `P` holds: a success shows `P` and leaves a
workspace with the property `Q`, and a failure shows that `P` does not hold. It also says that a failure is never a refusal of the
circuit. Sequences of steps are decided by the conjunction of what decides the steps (`Decides.bind`).

A step that lowers an expression is decided by `Expression.Compilable`: the expression is well formed, and its symbols have
qubits. For a value that is noted this was decided when it was noted (`Knows`). A gate is never refused, because the qubits that
it is made on are in the register and distinct, as the specification of lowering says.
-/

namespace ReversibleLogic

/-! ## Expressions that can be compiled -/

namespace Expression

mutual

/-- Whether the operands of every conjunction can be counted in 64 bits, with one more qubit for the result. Those of a list in
memory always can. -/
def isCountable : Expression → Bool
  | .const _ | .ref _ => true
  | .not e => e.isCountable
  | .and es => decide (es.length + 1 < Nat.pow 2 64) && allCountable es
  | .or es | .xor es | .blackBox _ es => allCountable es

/-- Whether this is so for every expression of the list. -/
def allCountable : List Expression → Bool
  | [] => true
  | e :: es => e.isCountable && allCountable es

end

/-- The expression is well formed and mentions only symbols of `D`. -/
structure Compilable (D : Symbol → Prop) (e : Expression) : Prop where
  wellFormed : e.isWellFormed = true
  closed : ∀ s, e.mentions s = true → D s

variable {D : Symbol → Prop} {es : List Expression}

/-- A constant can always be compiled. -/
theorem compilable_const (v : Bool) : (const v).Compilable D := ⟨rfl, fun _ hs => nomatch hs⟩

/-- A symbol can be compiled if it has a qubit. -/
theorem compilable_ref {s : Symbol} : (ref s).Compilable D ↔ D s := by
  refine ⟨fun h => h.closed s (by simp [mentions]), fun h => ⟨rfl, fun r hr => ?_⟩⟩
  obtain rfl : s = r := by simpa [mentions] using hr
  exact h

/-- A negation can be compiled if its operand can. -/
theorem compilable_not {e : Expression} : (not e).Compilable D ↔ e.Compilable D :=
  ⟨fun h => ⟨h.wellFormed, h.closed⟩, fun h => ⟨h.wellFormed, h.closed⟩⟩

/-- Expressions of a list can be compiled if each can. -/
theorem compilable_all : (allWellFormed es = true ∧ ∀ s, anyMentions s es = true → D s) ↔ ∀ e ∈ es, e.Compilable D := by
  rw [allWellFormed_eq, List.all_eq_true]
  simp only [anyMentions_eq, List.any_eq_true]
  constructor
  · rintro ⟨hform, hclosed⟩ e he
    exact ⟨hform e he, fun s hs => hclosed s ⟨e, he, hs⟩⟩
  · intro h
    exact ⟨fun e he => (h e he).wellFormed, fun s ⟨e, he, hs⟩ => (h e he).closed s hs⟩

/-- A conjunction can be compiled if it has an operand and all of them can. -/
theorem compilable_and : (and es).Compilable D ↔ es ≠ [] ∧ ∀ e ∈ es, e.Compilable D := by
  rw [← compilable_all]
  refine ⟨fun ⟨hf, hc⟩ => ?_, fun ⟨hne, hf, hc⟩ => ⟨by simp [isWellFormed, hne, hf], hc⟩⟩
  simp only [isWellFormed, Bool.and_eq_true, Bool.not_eq_true', List.isEmpty_eq_false_iff] at hf
  exact ⟨hf.1, hf.2, hc⟩

/-- So can an exclusive or. -/
theorem compilable_xor : (xor es).Compilable D ↔ es ≠ [] ∧ ∀ e ∈ es, e.Compilable D :=
  ⟨fun h => compilable_and.1 ⟨h.wellFormed, h.closed⟩, fun h => ⟨(compilable_and.2 h).wellFormed, (compilable_and.2 h).closed⟩⟩

/-- A disjunction can be compiled if it has two operands and both can. -/
theorem compilable_or : (or es).Compilable D ↔ es.length = 2 ∧ ∀ e ∈ es, e.Compilable D := by
  rw [← compilable_all]
  refine ⟨fun ⟨hf, hc⟩ => ?_, fun ⟨hlen, hf, hc⟩ => ⟨by simp [isWellFormed, hlen, hf], hc⟩⟩
  simp only [isWellFormed, Bool.and_eq_true, beq_iff_eq] at hf
  exact ⟨hf.1, hf.2, hc⟩

end Expression

namespace Workspace

variable {α β : Type} {ρ : Valuation} {s₀ : Bits} {x dest : Option Qubit} {S : Symbol → Bool} {r : Except EvalError Bool}
  {D : Symbol → Prop} {P P' : Prop} {Q Q' : Workspace → Prop} {w w₁ : Workspace} {q out : Qubit} {qs : List Qubit}
  {E : List LogEntry} {e : Expression} {es : List Expression}

/-! ## Decisions -/

/-- The outcome is a success exactly if `P` holds. A success leaves a workspace with the property `Q`, and a failure is not the
circuit's. -/
def Decides (Q : Workspace → Prop) (P : Prop) : Except CompileError (α × Workspace) → Prop
  | .ok r => P ∧ Q r.2
  | .error e => ¬P ∧ ∀ c, e ≠ .circuit c

namespace Decides

theorem congr {o : Except CompileError (α × Workspace)} (h : Decides Q P o) (hP : P ↔ P') : Decides Q P' o :=
  propext hP ▸ h

/-- A sequence is decided by what decides its steps. -/
theorem bind {m : Lowering α} {f : α → Lowering β} (h : Decides Q P (m w))
    (hf : ∀ a w₁, m w = .ok (a, w₁) → P → Q w₁ → Decides Q' P' (f a w₁)) : Decides Q' (P ∧ P') ((m >>= f) w) := by
  change Decides Q' (P ∧ P') (m w >>= fun p => f p.1 p.2)
  cases hm : m w with
  | error e =>
    rw [hm] at h
    exact ⟨fun hP => h.1 hP.1, h.2⟩
  | ok p =>
    rw [hm] at h
    have hrest := hf p.1 p.2 hm h.1 h.2
    change Decides Q' (P ∧ P') (f p.1 p.2)
    exact hrest.congr ⟨fun hP' => ⟨h.1, hP'⟩, And.right⟩

/-- A first step that cannot fail decides nothing. -/
theorem total_bind {m : Lowering α} {f : α → Lowering β} (h : Decides Q True (m w))
    (hf : ∀ a w₁, m w = .ok (a, w₁) → Q w₁ → Decides Q' P (f a w₁)) : Decides Q' P ((m >>= f) w) :=
  (h.bind fun a w₁ hm _ => hf a w₁ hm).congr (iff_of_eq (true_and P))

/-- If nothing after the first step can fail, the first step decides. -/
theorem bind_total {m : Lowering α} {f : α → Lowering β} (h : Decides Q P (m w))
    (hf : ∀ a w₁, m w = .ok (a, w₁) → P → Q w₁ → Decides Q' True (f a w₁)) : Decides Q' P ((m >>= f) w) :=
  (h.bind hf).congr (iff_of_eq (and_true P))

theorem pure (hw : Q w) (a : α) : Decides Q True ((pure a : Lowering α) w) := ⟨trivial, hw⟩

/-- A failure shows that the condition does not hold. -/
theorem throw {err : CompileError} (hP : ¬P) (he : ∀ c, err ≠ .circuit c) : Decides Q P ((throw err : Lowering α) w) := ⟨hP, he⟩

/-- Nothing comes after a failure. -/
theorem throw_bind {err : CompileError} {f : α → Lowering β} (hP : ¬P) (he : ∀ c, err ≠ .circuit c) :
    Decides Q P ((MonadExcept.throw err >>= f : Lowering β) w) := ⟨hP, he⟩

theorem modify {f : Workspace → Workspace} (hw : Q (f w)) : Decides Q True ((modify f : Lowering Unit) w) := ⟨trivial, hw⟩

/-- So does an operation on the circuit that cannot be refused. -/
theorem onCircuit {f : Circuit → Circuit × α} (hw : ∀ c, Q { w with circuit := c }) : Decides Q True (onCircuit f w) :=
  ⟨trivial, hw _⟩

/-- An operation on the circuit succeeds where the circuit accepts it. -/
theorem emit {f : Circuit → Circuit × Except CircuitError Unit} (hf : ∃ c, f w.circuit = (c, .ok ()))
    (hw : ∀ c, Q { w with circuit := c }) : Decides Q True (emit f w) := by
  obtain ⟨c, hc⟩ := hf
  rw [Lowering.emit_eq_ok (u := ()).2 ⟨c, hc, rfl⟩]
  exact ⟨trivial, hw c⟩

end Decides

/-- The symbols with a qubit are those of `D`, and what is noted can be compiled from them. -/
structure Knows (D : Symbol → Prop) (w : Workspace) : Prop where
  env : ∀ s, (w.env.get? s).isSome = true ↔ D s
  memo : ∀ b ∈ w.memo.entries, b.1.Compilable D

/-- What is known does not depend on the circuit. -/
theorem Knows.onCircuit (h : Knows D w) (c : Circuit) : Knows D { w with circuit := c } := ⟨h.env, h.memo⟩

/-! ## Steps on the circuit -/

/-- A gate that fits the register is accepted. -/
theorem decides_gate {g : Gate} (h : Knows D w) (hg : g.Fits w.circuit.numQubits) : Decides (Knows D) True (gate g w) :=
  .emit (Circuit.append_total hg) h.onCircuit

/-- A gate is accepted whose target is a qubit that operations are being made on, and whose controls are operands. -/
theorem Onto.decides_mcx (hO : Onto ρ s₀ x S w qs w₁ E out) (h : Knows D w₁) (cs : List Qubit) (hcs : ∀ c ∈ cs, c ∈ qs)
    (hnodup : cs.Nodup) (hlen : cs.length + 1 < Nat.pow 2 64) : Decides (Knows D) True (Workspace.gate (.mcx cs out) w₁) :=
  decides_gate h (Gate.fits_mcx cs (fun c hc => (hO.fetched.inUse c (hcs c hc)).1) hO.inUse.1 hnodup
    (fun hout => hO.notOperand (hcs out hout)) hlen)

/-- The qubit that operations are being made on can be flipped. -/
theorem Onto.decides_x (hO : Onto ρ s₀ x S w qs w₁ E out) (h : Knows D w₁) :
    Decides (Knows D) True (Workspace.gate (.x out) w₁) :=
  hO.decides_mcx h [] (by simp) List.nodup_nil (by decide)

/-- The value of an operand can be added to it. -/
theorem Onto.decides_cx (hO : Onto ρ s₀ x S w qs w₁ E out) (h : Knows D w₁) (hq : q ∈ qs) :
    Decides (Knows D) True (Workspace.gate (.cx q out) w₁) :=
  hO.decides_mcx h [q] (by simpa using hq) (List.nodup_singleton q) (show 1 + 1 < Nat.pow 2 64 by decide)

/-- A scratch qubit can always be had. -/
theorem decides_scratch (h : Knows D w) (dest : Option Qubit) : Decides (Knows D) True (scratch dest w) := by
  cases dest with
  | some d => exact .pure h d
  | none => exact Decides.onCircuit (f := Circuit.takeAncilla) h.onCircuit

/-- A value can always be given up. -/
theorem decides_release (h : Knows D w) (q : Qubit) : Decides (Knows D) True (release q w) := by
  refine .modify ?_
  split
  · exact h.onCircuit _
  · exact h

theorem decides_releaseAll : ∀ {qs : List Qubit} {w : Workspace}, Knows D w → Decides (Knows D) True (releaseAll qs w)
  | [], _, h => .pure h ()
  | q :: _, _, h => (decides_release h q).total_bind fun _ _ _ h => decides_releaseAll h

/-! ## Steps on names and notes -/

/-- A symbol has a qubit exactly if it is one of `D`. -/
theorem decides_lookup (h : Knows D w) (s : Symbol) : Decides (Knows D) (D s) (lookup s w) := by
  unfold lookup
  rw [Lowering.get_bind, ← h.env s]
  cases w.env.get? s with
  | some q => exact ⟨rfl, h⟩
  | none => exact .throw (by simp) (by simp)

/-- Notes can always be dropped. -/
theorem decides_forget (h : Knows D w) (q : Qubit) : Decides (Knows D) True (forget q w) :=
  .modify ⟨h.env, fun b hb => h.memo b (Memo.mem_eraseQubit.1 hb).1⟩

/-- A value that is noted was decided before; any other is decided by the step that makes it. -/
theorem decides_reuse {make : Lowering Qubit} (h : Knows D w) (hmake : Decides (Knows D) (e.Compilable D) (make w)) :
    Decides (Knows D) (e.Compilable D) (reuse e make w) := by
  unfold reuse
  rw [Lowering.get_bind]
  cases hm : (if w.options.memoize then w.memo.get? e else none) with
  | none => exact hmake
  | some p =>
    have hp : (e, p) ∈ w.memo.entries := by
      split at hm
      · exact Memo.mem_of_get? hm
      · cases hm
    exact ⟨h.memo _ hp, h⟩

/-- What is made can be compiled, so it may be noted. -/
theorem decides_remember {make : Lowering Qubit} (h : Knows D w) (hmake : Decides (Knows D) (e.Compilable D) (make w)) :
    Decides (Knows D) (e.Compilable D) (remember e make w) := by
  refine decides_reuse h (hmake.bind_total fun q w₁ _ he h => ?_)
  refine (Decides.modify (Q := Knows D) ?_).total_bind fun _ _ _ h => .pure h q
  split
  · refine ⟨h.env, fun b hb => ?_⟩
    rcases Memo.mem_insert hb with rfl | hb
    · exact he
    · exact h.memo b hb
  · exact h

/-- A value that is held and one that is not are decided alike. -/
theorem decides_held {a b : Lowering Unit} (ha : Decides (Knows D) P (a w)) (hb : Decides (Knows D) P (b w)) :
    Decides (Knows D) P ((do if ← isHeld e then a else b : Lowering Unit) w) := by
  change Decides (Knows D) P ((if w.options.memoize && w.memo.contains e then a else b) w)
  split
  · exact ha
  · exact hb

/-- An operator needs an operand. -/
theorem decides_atLeastOne {op : Operator} {m : Lowering α} (hm : Decides (Knows D) P (m w)) :
    Decides (Knows D) (es ≠ [] ∧ P) (atLeastOne op es m w) := by
  unfold atLeastOne
  cases es with
  | nil => exact .throw (by simp) (by simp)
  | cons e es => exact hm.congr (by simp)

/-! ## Leaves -/

/-- A constant can always be lowered. -/
theorem decides_const (hR : Ready ρ s₀ x S dest w) (h : Knows D w) (v : Bool) : Decides (Knows D) True (lowerConst v dest w) := by
  cases dest with
  | some d =>
    unfold lowerConst
    have hO := Onto.of_added hR (.refl hR.sound S (some d))
    cases v with
    | false => exact .pure h d
    | true => exact (hO.decides_x h).total_bind fun _ _ _ h => .pure h d
  | none =>
    rw [lowerConst, Lowering.get_bind]
    cases (if v then w.trueQubit else w.falseQubit) with
    | some q => exact .pure h q
    | none =>
      refine (Decides.onCircuit h.onCircuit).total_bind fun q w₁ hadd h => ?_
      obtain ⟨rfl, rfl⟩ := Lowering.onCircuit_eq_ok.1 hadd
      cases v with
      | false => exact (Decides.modify (Q := Knows D) ⟨h.env, h.memo⟩).total_bind fun _ _ _ h => .pure h _
      | true =>
        obtain ⟨hO, -⟩ := onto_addQubit (.refl hR.sound S none) (.const true)
        refine (hO.decides_x h).total_bind fun _ _ _ h => ?_
        exact (Decides.modify (Q := Knows D) ⟨h.env, h.memo⟩).total_bind fun _ _ _ h => .pure h _

/-- A symbol needs a qubit. A copy of it goes to a qubit that is not its own. -/
theorem decides_ref {s : Symbol} {target : Option Symbol} (hR : Ready ρ s₀ x (fun r => (Expression.ref s).mentions r) dest w)
    (h : Knows D w) : Decides (Knows D) (D s) (lowerRef s dest target w) := by
  refine (decides_lookup h s).bind_total fun q w₁ hl _ h => ?_
  obtain ⟨hq, rfl⟩ := lookup_eq_ok hl
  obtain ⟨hF, -, -⟩ : Lowered _ _ _ _ _ none _ _ _ _ := lowered_of_env hR hq
  rw [Lowering.get_bind]
  split
  · cases dest with
    | some d => exact ((Onto.of_ready hR hF).decides_cx h (by simp)).total_bind fun _ _ _ h => .pure h d
    | none =>
      refine (Decides.onCircuit h.onCircuit).total_bind fun out w₂ hadd h => ?_
      obtain ⟨rfl, rfl⟩ := Lowering.onCircuit_eq_ok.1 hadd
      obtain ⟨hO, -⟩ := onto_addQubit hF .none
      exact (hO.decides_cx h (by simp)).total_bind fun _ _ _ h => .pure h _
  · exact .pure h q

/-! ## Operators -/

/-- A conjunction is decided by its operands, if these are on distinct qubits that can be counted. -/
theorem decides_conjoin {operands : Lowering (List Qubit)} (hs : LowersAll ρ s₀ x S r operands)
    (hlist : ∀ qs w₁, operands w = .ok (qs, w₁) → qs.Nodup ∧ qs.length + 1 < Nat.pow 2 64) (hR : Ready ρ s₀ x S dest w)
    (hz : ∀ d, dest = some d → w.circuit.final s₀ d = false) (hops : Decides (Knows D) P (operands w)) :
    Decides (Knows D) P (conjoin operands dest w) := by
  refine hops.bind_total fun qs w₁ hrun _ h => ?_
  obtain ⟨E, hF, -, -⟩ := hs hR.withoutOut hrun
  obtain ⟨hnodup, hlen⟩ := hlist qs w₁ hrun
  split
  · exact .pure h _
  · refine (decides_scratch h _).total_bind fun out w₂ hscr h => ?_
    obtain ⟨hO, -⟩ := onto_scratch hR hz hF hscr
    refine (hO.decides_mcx h _ (fun _ hc => hc) hnodup hlen).total_bind fun _ w₃ _ h => ?_
    exact (decides_releaseAll h).total_bind fun _ _ _ h => .pure h out

/-- Also when it is added to a qubit that none of them is on. -/
theorem decides_addConjunction {operands : Lowering (List Qubit)} (hs : LowersAll ρ s₀ x S r operands)
    (hlist : ∀ qs w₁, operands w = .ok (qs, w₁) → qs.Nodup ∧ qs.length + 1 < Nat.pow 2 64)
    (hR : Ready ρ s₀ x S (some out) w) (hops : Decides (Knows D) P (operands w)) :
    Decides (Knows D) P (addConjunction operands out w) := by
  refine hops.bind_total fun qs w₁ hrun _ h => ?_
  obtain ⟨E, hF, -, -⟩ := hs hR.withoutOut hrun
  obtain ⟨hnodup, hlen⟩ := hlist qs w₁ hrun
  refine ((Onto.of_ready hR hF).decides_mcx h _ (fun _ hc => hc) hnodup hlen).total_bind fun _ w₂ _ h => ?_
  exact decides_releaseAll h

/-- Two operands are disjoined on a qubit that neither of them is on. -/
theorem Onto.decides_addOr {l r : Qubit} (hO : Onto ρ s₀ x S w [l, r] w₁ E out) (h : Knows D w₁) :
    Decides (Knows D) True (Workspace.addOr l r out w₁) := by
  unfold Workspace.addOr
  by_cases hlr : l = r
  · rw [if_pos hlr]
    exact hO.decides_cx h (by simp)
  · rw [if_neg hlr]
    have hne : r ≠ out := fun hr => hO.notOperand (by simp [hr])
    have hin : ∀ c ∈ [l, r], c < w₁.circuit.numQubits := fun c hc => (hO.fetched.inUse c hc).1
    have hccx : (Gate.ccx l r out).Fits w₁.circuit.numQubits :=
      Gate.fits_mcx [l, r] hin hO.inUse.1 (by simpa using hlr) hO.notOperand (show 2 + 1 < Nat.pow 2 64 by decide)
    obtain ⟨t, ht⟩ := hccx.toggles rfl
    obtain rfl : out = t := Option.some.inj ht.target
    have hconj := Circuit.appendConjugated_total hccx (Gate.fits_x (hin r (by simp))) ht hne
    refine (Decides.emit hconj h.onCircuit).total_bind fun _ w₂ hc h => ?_
    obtain ⟨hO, -⟩ := hO.conjugated rfl (by simp [Gate.ccx, Gate.controls]) (by simp) hc
    exact hO.decides_cx h (by simp)

/-- A disjunction is decided by its two operands. -/
theorem decides_disjoin {operands : Lowering (Qubit × Qubit)} (hs : LowersPair ρ s₀ x S r operands)
    (hR : Ready ρ s₀ x S dest w) (hz : ∀ d, dest = some d → w.circuit.final s₀ d = false)
    (hops : Decides (Knows D) P (operands w)) : Decides (Knows D) P (disjoin operands dest w) := by
  refine hops.bind_total fun p w₁ hrun _ h => ?_
  obtain ⟨E, hF, -, -⟩ := hs hR.withoutOut hrun
  dsimp only
  split
  · exact .pure h _
  · refine (decides_scratch h dest).total_bind fun out w₂ hscr h => ?_
    obtain ⟨hO, -⟩ := onto_scratch hR hz hF hscr
    refine (hO.decides_addOr h).total_bind fun _ w₃ _ h => ?_
    refine (decides_release h _).total_bind fun _ w₄ _ h => ?_
    exact (decides_release h _).total_bind fun _ _ _ h => .pure h out

/-- Also when it is added to a qubit that neither is on. -/
theorem decides_addDisjunction {operands : Lowering (Qubit × Qubit)} (hs : LowersPair ρ s₀ x S r operands)
    (hR : Ready ρ s₀ x S (some out) w) (hops : Decides (Knows D) P (operands w)) :
    Decides (Knows D) P (addDisjunction operands out w) := by
  refine hops.bind_total fun p w₁ hrun _ h => ?_
  obtain ⟨E, hF, -, -⟩ := hs hR.withoutOut hrun
  refine ((Onto.of_ready hR hF).decides_addOr h).total_bind fun _ w₂ _ h => ?_
  exact (decides_release h _).total_bind fun _ _ _ h => decides_release h _

/-- Whether a flip can be made in place is decided by the qubit of the symbol. -/
theorem decides_flipInPlace? {target : Option Symbol} (h : Knows D w) :
    Decides (Knows D) (∀ s t, e = .ref s → target = some t → dest = none → D s) (flipInPlace? e dest target w) := by
  unfold flipInPlace?
  split
  · next s t =>
    refine ((decides_lookup h s).bind_total fun q w₁ _ _ h => .pure h _).congr ⟨fun hs r _ he _ _ => ?_, fun hs => ?_⟩
    · exact Expression.ref.inj he ▸ hs
    · exact hs s t rfl rfl rfl
  · next hno => exact (Decides.pure h none).congr (iff_of_true trivial fun s t he ht hd => (hno s t he ht hd).elim)

/-- A negation is decided by its operand, also when it is made in place. -/
theorem decides_negate {target : Option Symbol} {operand : Lowering Qubit} (hs : Lowers ρ s₀ x S (e.eval ρ) none operand)
    (hR : Ready ρ s₀ x S dest w) (hz : ∀ d, dest = some d → w.circuit.final s₀ d = false) (h : Knows D w)
    (hop : Decides (Knows D) (e.Compilable D) (operand w)) :
    Decides (Knows D) (e.Compilable D) (negate e dest target operand w) := by
  have hflip : ∀ p w₁, Knows D w₁ → p < w₁.circuit.numQubits →
      Decides (Knows D) True ((do forget p; gate (.x p); return p : Lowering Qubit) w₁) := by
    intro p w₁ h hp
    refine (decides_forget h p).total_bind fun _ w₂ hf h => ?_
    obtain rfl := forget_eq_ok hf
    exact (decides_gate h (Gate.fits_x hp)).total_bind fun _ _ _ h => .pure h p
  have hfirst : Decides (Knows D) _ (flipInPlace? e dest target w) := decides_flipInPlace? h
  refine Decides.congr (P := _ ∧ e.Compilable D) (hfirst.bind fun f w₁ hf _ h => ?_) ⟨And.right, fun he => ⟨?_, he⟩⟩
  · obtain ⟨rfl, hsome⟩ := flipInPlace?_eq_ok hf
    cases f with
    | some p =>
      obtain ⟨-, t, rfl, -, hp, -⟩ := hsome p rfl
      have ht : (Expression.ref t).Compilable D := Expression.compilable_ref.2 ((h.env t).1 (by rw [hp]; rfl))
      exact (hflip p w₁ h (hR.sound.env_inUse hp).1).congr (iff_of_true trivial ht)
    | none =>
      dsimp only
      rw [Lowering.get_bind]
      refine hop.bind_total fun p w₂ hrun _ h => ?_
      obtain ⟨E, hL⟩ := hs hR.withoutOut (by simp) hrun
      rw [Lowering.get_bind]
      split
      · exact hflip p w₂ h (hL.fetched.inUse p (by simp)).1
      · refine (decides_scratch h dest).total_bind fun out w₃ hscr h => ?_
        obtain ⟨hO, -⟩ := onto_scratch hR hz hL.fetched hscr
        refine (hO.decides_cx h (by simp)).total_bind fun _ w₄ hg h => ?_
        obtain ⟨hO, -⟩ := hO.gate rfl rfl (by simp [Gate.cx, Gate.controls]) hg
        refine (hO.decides_x h).total_bind fun _ w₅ _ h => ?_
        exact (decides_release h p).total_bind fun _ _ _ h => .pure h out
  · rintro s t rfl - -
    exact Expression.compilable_ref.1 he

/-- A negation is added where its operand can be. -/
theorem decides_addNot {add : Lowering Unit} (hs : Adds ρ s₀ x S r out add) (hR : Ready ρ s₀ x S (some out) w)
    (hadd : Decides (Knows D) P (add w)) : Decides (Knows D) P ((do add; gate (.x out) : Lowering Unit) w) := by
  refine hadd.bind_total fun _ w₁ hrun _ h => ?_
  obtain ⟨E, hF, -⟩ := hs hR hrun
  exact (Onto.of_added hR hF).decides_x h

/-- A value is added where it can be made. -/
theorem decides_addValue {value : Lowering Qubit} (hs : Lowers ρ s₀ x S r none value) (hR : Ready ρ s₀ x S (some out) w)
    (hvalue : Decides (Knows D) P (value w)) : Decides (Knows D) P (addValue value out w) := by
  refine hvalue.bind_total fun q w₁ hrun _ h => ?_
  obtain ⟨E, hF, -, -⟩ := hs hR.withoutOut (by simp) hrun
  refine ((Onto.of_ready hR hF).decides_cx h (by simp)).total_bind fun _ w₂ _ h => ?_
  exact decides_release h q

/-- An exclusive or that is not added up in place is decided by its operands. There must be one. -/
theorem decides_sumUp {target : Option Symbol} {add : Qubit → Option Nat → Lowering Unit}
    (hadd : ∀ {out w}, Ready ρ s₀ x S (some out) w → Knows D w → Decides (Knows D) P (add out none w))
    (hR : Ready ρ s₀ x S dest w) (hz : ∀ d, dest = some d → w.circuit.final s₀ d = false) (h : Knows D w)
    (hin : w.sumInPlace? es dest target = none) : Decides (Knows D) (es ≠ [] ∧ P) (sumUp es dest target add w) := by
  unfold sumUp
  cases es with
  | nil => exact .throw_bind (by simp) (by simp)
  | cons e es =>
    rw [List.isEmpty_cons, if_neg (by simp)]
    dsimp only
    rw [Lowering.get_bind, hin]
    refine Decides.congr (P := P) ?_ (by simp)
    refine (decides_scratch h dest).total_bind fun out w₁ hscr h => ?_
    obtain ⟨hO, -⟩ := onto_scratch hR hz (.refl hR.sound S none) hscr
    exact (hadd (hO.ready hR) h).bind_total fun _ _ _ _ h => .pure h out

end Workspace

end ReversibleLogic
