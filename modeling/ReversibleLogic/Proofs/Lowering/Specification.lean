import ReversibleLogic.Proofs.Lowering.Emit

/-!
# The specification of lowering

`Lowers r dest m` is the specification of a step that leaves a value on a qubit, and `Adds r out m` that of a step that adds a
value to a qubit; `r` is what evaluation gives.

A step that may choose the qubit either finds the value where it is known to be, and then makes no operation, or leaves it on a
qubit that it has taken and that it has not read (`Placed`). This is why an operand may be returned as the result, and why a
negation may flip the operand's qubit.

Symbols, constants and values that are noted meet the specification by themselves.
-/

namespace ReversibleLogic

namespace Workspace

/-! ## Specifications -/

/-- Where a value is when it has been lowered. -/
inductive Placed (dest : Option Qubit) (w : Workspace) (q : Qubit) (E : List LogEntry) : Prop where
  /-- Where it was known to be: on a qubit that has a name or that a value is noted for. -/
  | known (hE : E = []) (hu : w.InUse q) (hq : q ∈ w.memo.qubits ∨ w.circuit.isDisposable q = false)
  /-- On a qubit that was taken for it and that no operation has read. -/
  | taken (hd : dest = none) (hn : ¬w.InUse q) (hr : ∀ e ∈ E, q ∉ e.reads)
  /-- On the destination. -/
  | delivered (hd : dest = some q)

/-- The value `r` has been lowered to the qubit `q`. -/
structure Lowered (ρ : Valuation) (s₀ : Bits) (x : Option Qubit) (S : Symbol → Bool) (r : Except EvalError Bool)
    (dest : Option Qubit) (w : Workspace) (q : Qubit) (w' : Workspace) (E : List LogEntry) : Prop where
  fetched : Fetched ρ s₀ x S dest w [q] w' E
  value : r = .ok (w'.circuit.final s₀ q)
  placed : Placed dest w q E

/-- The value `r` has been added to the qubit `out`. -/
structure Added (ρ : Valuation) (s₀ : Bits) (x : Option Qubit) (S : Symbol → Bool) (r : Except EvalError Bool)
    (out : Qubit) (w w' : Workspace) (E : List LogEntry) : Prop where
  fetched : Fetched ρ s₀ x S (some out) w [] w' E
  value : ∃ v, r = .ok v ∧ w'.circuit.final s₀ out = (w.circuit.final s₀ out ^^ v)

/-- A step leaves the value `r` of expressions over the symbols `S` on a qubit. The destination is at 0 before. -/
def Lowers (ρ : Valuation) (s₀ : Bits) (x : Option Qubit) (S : Symbol → Bool) (r : Except EvalError Bool)
    (dest : Option Qubit) (m : Lowering Qubit) : Prop :=
  ∀ ⦃w : Workspace⦄ ⦃q : Qubit⦄ ⦃w' : Workspace⦄, Ready ρ s₀ x S dest w →
    (∀ d, dest = some d → w.circuit.final s₀ d = false) → m w = .ok (q, w') → ∃ E, Lowered ρ s₀ x S r dest w q w' E

/-- A step adds the value `r` of expressions over the symbols `S` to the qubit `out`. -/
def Adds (ρ : Valuation) (s₀ : Bits) (x : Option Qubit) (S : Symbol → Bool) (r : Except EvalError Bool) (out : Qubit)
    (m : Lowering Unit) : Prop :=
  ∀ ⦃w : Workspace⦄ ⦃u : Unit⦄ ⦃w' : Workspace⦄, Ready ρ s₀ x S (some out) w → m w = .ok (u, w') →
    ∃ E, Added ρ s₀ x S r out w w' E

/-- A step leaves values on qubits whose conjunction is `r`. -/
def LowersAll (ρ : Valuation) (s₀ : Bits) (x : Option Qubit) (S : Symbol → Bool) (r : Except EvalError Bool)
    (m : Lowering (List Qubit)) : Prop :=
  ∀ ⦃w : Workspace⦄ ⦃qs : List Qubit⦄ ⦃w' : Workspace⦄, Ready ρ s₀ x S none w → m w = .ok (qs, w') →
    ∃ E, Fetched ρ s₀ x S none w qs w' E ∧ r = .ok (qs.all (w'.circuit.final s₀)) ∧ ∀ q, qs = [q] → Placed none w q E

/-- A step leaves two values on qubits whose disjunction is `r`. -/
def LowersPair (ρ : Valuation) (s₀ : Bits) (x : Option Qubit) (S : Symbol → Bool) (r : Except EvalError Bool)
    (m : Lowering (Qubit × Qubit)) : Prop :=
  ∀ ⦃w : Workspace⦄ ⦃p : Qubit × Qubit⦄ ⦃w' : Workspace⦄, Ready ρ s₀ x S none w → m w = .ok (p, w') →
    ∃ E, Fetched ρ s₀ x S none w [p.1, p.2] w' E ∧ r = .ok (w'.circuit.final s₀ p.1 || w'.circuit.final s₀ p.2) ∧
      (p.1 = p.2 → Placed none w p.1 E)

variable {ρ : Valuation} {s₀ : Bits} {x dest : Option Qubit} {S T : Symbol → Bool} {r : Except EvalError Bool}
  {w w' w₁ w₂ : Workspace} {q out : Qubit} {qs rs : List Qubit} {E : List LogEntry} {e : Expression}

/-! ## Results on qubits -/

/-- A result is on a qubit where it was. -/
theorem Fetched.known (hs : Sound ρ s₀ x w) (hu : w.InUse q) (hq : ¬Apart w S q) : Fetched ρ s₀ x S dest w [q] w [] := by
  refine ⟨Grows.refl dest w, hs, fun p hp => ?_, fun _ => Or.inl, by simp, fun p hp _ hmem => ?_, fun _ _ _ _ hb _ => hb⟩
  · rw [List.mem_singleton.1 hp]
    exact hu
  · exact hq (List.mem_singleton.1 hmem ▸ hp)

/-- Results may be listed otherwise. -/
theorem Fetched.relist {out : Option Qubit} (h : Fetched ρ s₀ x S out w qs w' E) (hmem : ∀ q, q ∈ qs ↔ q ∈ rs) :
    Fetched ρ s₀ x S out w rs w' E := by
  refine ⟨h.grows, h.sound, fun q hq => h.inUse q ((hmem q).2 hq), fun q hq => ?_, h.unread, fun q hq ho hm => ?_,
    fun q hq hm => ?_⟩
  · exact (h.loose q hq).imp_right fun h => h.imp_left (hmem q).1
  · exact h.notResult q hq ho ((hmem q).2 hm)
  · exact h.unnoted q hq fun hm' => hm ((hmem q).1 hm')

/-- What has been made on the destination, or on a qubit taken for it, is a result. -/
theorem Fetched.deliver (h : Fetched ρ s₀ x S (some out) w [] w' E) (hu : w'.InUse out)
    (hout : dest = some out ∨ dest = none ∧ ¬w.InUse out) :
    Fetched ρ s₀ x S dest w [out] w' E ∧ Placed dest w out E := by
  have huse : ∀ q ∈ [out], w'.InUse q := fun q hq => by
    rw [List.mem_singleton.1 hq]
    exact hu
  rcases hout with rfl | ⟨rfl, hnew⟩
  · refine ⟨⟨h.grows, h.sound, huse, fun q hq => ?_, h.unread, ?_, fun q hq _ => h.unnoted q hq (by simp)⟩, .delivered rfl⟩
    · exact (h.loose q hq).imp_right fun h => h.imp_left (by simp)
    · intro q _ ho hm
      exact ho (congrArg some (List.mem_singleton.1 hm).symm)
  · have hkeep := h.grows.keep fun q hq => Option.some.inj hq ▸ hnew
    refine ⟨⟨hkeep, h.sound, huse, fun q hq => ?_, h.unread, ?_, fun q hq _ => h.unnoted q hq (by simp)⟩,
      .taken rfl hnew fun e he hr => ((h.grows.entry e he).reads out hr).2 rfl⟩
    · rcases h.loose q hq with hq | hq | hq
      · exact Or.inl hq
      · simp at hq
      · exact Or.inr (Or.inl (List.mem_singleton.2 (Option.some.inj hq).symm))
    · intro q hq _ hm
      exact hnew (List.mem_singleton.1 hm ▸ hq.inUse)

/-- Between two additions to a qubit. -/
theorem Onto.of_added (hR : Ready ρ s₀ x S (some out) w) (hF : Fetched ρ s₀ x S (some out) w [] w' E) :
    Onto ρ s₀ x S w [] w' E out :=
  ⟨hF, hF.grows.inUse (hR.apart out rfl).inUse, hF.unnoted_of_apart (hR.apart out rfl) (hR.unnoted out rfl) (by simp),
    by simp⟩

/-- What has to do with the expression is not being overwritten. -/
theorem Ready.not_overwritten {out : Option Qubit} (h : Ready ρ s₀ x S out w) (hq : ¬Apart w S q) : x ≠ some q :=
  fun hx => hq (h.overwritten q hx)

/-! ## Known values -/

/-- The qubit noted for an expression is not apart from it. -/
theorem not_apart_of_memo (h : (e, q) ∈ w.memo.entries) : ¬Apart w (fun s => e.mentions s) q := by
  intro ha
  obtain ⟨s, hm, hs⟩ := ha.memo _ h rfl
  exact Bool.noConfusion (hm.symm.trans hs)

/-- A value that is noted is known; any other is made. -/
theorem reuse_cases {make : Lowering Qubit} (hR : Ready ρ s₀ x (fun s => e.mentions s) dest w)
    (hrun : reuse e make w = .ok (q, w')) :
    Lowered ρ s₀ x (fun s => e.mentions s) (e.eval ρ) dest w q w' [] ∨ make w = .ok (q, w') := by
  unfold reuse at hrun
  rw [Lowering.get_bind] at hrun
  cases hm : (if w.options.memoize then w.memo.get? e else none) with
  | none =>
    rw [hm] at hrun
    exact Or.inr hrun
  | some p =>
    rw [hm] at hrun
    obtain ⟨rfl, rfl⟩ := Lowering.pure_eq_ok.1 hrun
    have hp : (e, p) ∈ w.memo.entries := by
      split at hm
      · exact Memo.mem_of_get? hm
      · cases hm
    have hna := not_apart_of_memo hp
    have hu := hR.sound.memo_inUse _ hp
    exact Or.inl ⟨.known hR.sound hu hna, hR.sound.memo_value _ hp (hR.not_overwritten hna),
      .known rfl hu (Or.inl (Memo.mem_qubits.2 ⟨e, hp⟩))⟩

/-- A value that is noted is known; any other is made and may be noted. -/
theorem remember_cases {make : Lowering Qubit} (hR : Ready ρ s₀ x (fun s => e.mentions s) dest w)
    (hrun : remember e make w = .ok (q, w')) :
    Lowered ρ s₀ x (fun s => e.mentions s) (e.eval ρ) dest w q w' [] ∨
      ∃ w₁, make w = .ok (q, w₁) ∧ (w' = w₁ ∨ w' = { w₁ with memo := w₁.memo.insert e q }) := by
  refine (reuse_cases hR hrun).imp_right fun hrun => ?_
  obtain ⟨p, w₁, hmake, hrun⟩ := Lowering.bind_eq_ok.1 hrun
  obtain ⟨_, w₂, hnote, hrun⟩ := Lowering.bind_eq_ok.1 hrun
  obtain ⟨rfl, rfl⟩ := Lowering.pure_eq_ok.1 hrun
  have hw := Lowering.modify_eq_ok.1 hnote
  refine ⟨w₁, hmake, ?_⟩
  split at hw
  · exact Or.inr hw.symm
  · exact Or.inl hw.symm

/-- A value may be noted for the qubit it has been lowered to. -/
theorem Lowered.note (h : Lowered ρ s₀ x S (e.eval ρ) dest w q w' E) :
    Lowered ρ s₀ x S (e.eval ρ) dest w q { w' with memo := w'.memo.insert e q } E := by
  obtain ⟨hF, hv, hp⟩ := h
  refine ⟨⟨hF.grows.withMemo _, hF.sound.note (hF.inUse q (by simp)) fun _ => hv, hF.inUse, hF.loose, hF.unread,
    hF.notResult, fun a ha hap b hb he => ?_⟩, hv, hp⟩
  rcases Memo.mem_insert hb with rfl | hb
  · exact absurd (List.mem_singleton.2 he.symm) hap
  · exact hF.unnoted a ha hap b hb he

/-- A value that is noted is where the note says, and any other is made. -/
theorem lowers_reuse {make : Lowering Qubit} (h : Lowers ρ s₀ x (fun s => e.mentions s) (e.eval ρ) dest make) :
    Lowers ρ s₀ x (fun s => e.mentions s) (e.eval ρ) dest (reuse e make) := by
  intro w q w' hR hz hrun
  rcases reuse_cases hR hrun with hL | hmake
  · exact ⟨[], hL⟩
  · exact h hR hz hmake

/-- A value that is made may be noted. -/
theorem lowers_remember {make : Lowering Qubit} (h : Lowers ρ s₀ x (fun s => e.mentions s) (e.eval ρ) dest make) :
    Lowers ρ s₀ x (fun s => e.mentions s) (e.eval ρ) dest (remember e make) := by
  intro w q w' hR hz hrun
  rcases remember_cases hR hrun with hL | ⟨w₁, hmake, hw⟩
  · exact ⟨[], hL⟩
  · obtain ⟨E, hL⟩ := h hR hz hmake
    rcases hw with rfl | rfl
    · exact ⟨E, hL⟩
    · exact ⟨E, hL.note⟩

/-- A qubit with a name is not disposable. -/
theorem not_disposable_of_bound {c : Circuit} (h : q ∈ c.bound) : c.isDisposable q = false := by
  simp [Circuit.isDisposable, h]

/-- The qubit of a symbol holds its value. -/
theorem lowered_of_env {s : Symbol} {out : Option Qubit} (hR : Ready ρ s₀ x (fun r => (Expression.ref s).mentions r) out w)
    (hq : w.env.get? s = some q) :
    Lowered ρ s₀ x (fun r => (Expression.ref s).mentions r) ((Expression.ref s).eval ρ) dest w q w [] := by
  have hna : ¬Apart w (fun r => (Expression.ref s).mentions r) q := fun ha => ha.env s (by simp [Expression.mentions]) hq
  have hu := hR.sound.env_inUse hq
  refine ⟨.known hR.sound hu hna, ?_, .known rfl hu (Or.inr (not_disposable_of_bound (hR.sound.env_bound s q hq)))⟩
  exact Expression.eval_ref_eq_ok.2 (hR.sound.env_value s q hq (hR.not_overwritten hna))

/-- Looking up a symbol gives its qubit and changes nothing. -/
theorem lookup_eq_ok {s : Symbol} (h : lookup s w = .ok (q, w')) : w.env.get? s = some q ∧ w' = w := by
  unfold lookup at h
  rw [Lowering.get_bind] at h
  cases hq : w.env.get? s with
  | none =>
    rw [hq] at h
    exact (Lowering.throw_eq_ok.1 h).elim
  | some p =>
    rw [hq] at h
    obtain ⟨rfl, rfl⟩ := Lowering.pure_eq_ok.1 h
    exact ⟨rfl, rfl⟩

/-- The value of a symbol is on its qubit. -/
theorem lowers_ref (s : Symbol) :
    Lowers ρ s₀ x (fun r => (Expression.ref s).mentions r) ((Expression.ref s).eval ρ) dest (lowerRef s dest none) := by
  intro w q w' hR _ hrun
  unfold lowerRef at hrun
  obtain ⟨p, w₁, hl, hret⟩ := Lowering.bind_eq_ok.1 hrun
  obtain ⟨hp, rfl⟩ := lookup_eq_ok hl
  rw [Lowering.get_bind, if_neg (by simp)] at hret
  obtain ⟨rfl, rfl⟩ := Lowering.pure_eq_ok.1 hret
  exact ⟨[], lowered_of_env hR hp⟩

/-! ## Constants -/

/-- Notes the qubit that holds a constant. -/
def setConst (w : Workspace) (q : Qubit) : Bool → Workspace
  | true => { w with trueQubit := some q }
  | false => { w with falseQubit := some q }

theorem constQubit_setConst (v b : Bool) :
    (w.setConst q v).constQubit b = if b = v then some q else w.constQubit b := by
  cases v <;> cases b <;> rfl

/-- The qubit of a constant may be noted when it has a name, is no scratch qubit and holds the constant. -/
theorem Sound.setConst (h : Sound ρ s₀ x w) {v : Bool} (hb : q ∈ w.circuit.bound) (ha : q ∉ w.circuit.ancillas)
    (hv : w.circuit.final s₀ q = v) : Sound ρ s₀ x (w.setConst q v) := by
  have hconst : ∀ b p, (w.setConst q v).constQubit b = some p →
      p ∈ w.circuit.bound ∧ p ∉ w.circuit.ancillas ∧ w.circuit.final s₀ p = b := by
    intro b p hp
    rw [constQubit_setConst] at hp
    split at hp
    · subst b
      cases hp
      exact ⟨hb, ha, hv⟩
    · exact h.const_value b p hp
  cases v <;> exact ⟨h.ancilla_lt, h.bound_lt, h.free_scratch, h.marked_scratch, h.env_bound, h.memo_inUse, hconst,
    h.env_total, h.env_value, h.memo_value, h.zero⟩

/-- Noting the qubit of a constant that had none is a step. -/
theorem Grows.setConst {out : Option Qubit} (h : Grows out w w' E) {v : Bool} (hnone : w.constQubit v = none)
    (hq : w.circuit.numQubits ≤ q) : Grows out w (w'.setConst q v) E := by
  have hold : ∀ b p, w.constQubit b = some p → (w'.setConst q v).constQubit b = some p := by
    intro b p hp
    rw [constQubit_setConst, if_neg, h.const_old b p hp]
    rintro rfl
    simp [hnone] at hp
  have hnew : ∀ b p, (w'.setConst q v).constQubit b = some p → w.constQubit b = some p ∨ w.circuit.numQubits ≤ p := by
    intro b p hp
    rw [constQubit_setConst] at hp
    split at hp
    · cases hp
      exact Or.inr hq
    · exact h.const_new b p hp
  have hentry : ∀ e ∈ E, StepEntry out w (w'.setConst q v) e := fun e he => by
    obtain ⟨h1, h2, h3, h4, h5⟩ := h.entry e he
    cases v <;> exact ⟨h1, h2, h3, h4, h5⟩
  cases v <;> exact { h with const_old := hold, const_new := hnew, entry := hentry }

/-- Operands have been fetched, and a qubit is added at the end of the register to take their combination. -/
theorem onto_addQubit (hF : Fetched ρ s₀ x S none w qs w₁ E) {name : Option Symbol} (hname : NamesConst name) :
    Onto ρ s₀ x S w qs { w₁ with circuit := (w₁.circuit.addQubit name).1 } E w₁.circuit.numQubits ∧
      ¬w.InUse w₁.circuit.numQubits := by
  have hs := hF.sound
  have hgrow := Grows.addQubit w₁ hname
  have hnew : ¬w₁.InUse w₁.circuit.numQubits := fun hu => Nat.lt_irrefl _ hu.1
  have hfree : (w₁.circuit.addQubit name).1.free = w₁.circuit.free := by cases name <;> rfl
  have hread : ∀ e ∈ E, w₁.circuit.numQubits ∉ e.reads := fun e he hr => hnew ((hF.grows.entry e he).reads _ hr).1
  have hgrow' := hF.grows.trans hgrow
  rw [List.append_nil] at hgrow'
  refine ⟨⟨⟨hgrow'.handOver hread, hs.addQubit name, fun q hq => hgrow.inUse (hF.inUse q hq), fun q hq => ?_, hF.unread,
    fun q hq _ => hF.notResult q hq (by simp), hF.unnoted⟩, ⟨?_, fun hf => ?_⟩, (hs.unnoted_of_not_inUse hnew).onCircuit _,
    fun hmem => hnew (hF.inUse _ hmem)⟩, fun hu => hnew (hF.grows.inUse hu)⟩
  · obtain ⟨h1, h2, h3, h4⟩ := hq
    have hanc : q ∈ w₁.circuit.ancillas := by cases name <;> exact h1
    have hmark : q ∉ w₁.circuit.marked := by cases name <;> exact h4
    have hl : w₁.Loose q := ⟨hanc, fun hb => h2 (Circuit.bound_subset_addQubit hb), hfree ▸ h3, hmark⟩
    exact (hF.loose q hl).imp_right fun h => h.imp_right (by simp)
  · change w₁.circuit.numQubits < (w₁.circuit.addQubit name).1.numQubits
    rw [Circuit.numQubits_addQubit]
    exact Nat.lt_succ_self _
  · exact Nat.lt_irrefl _ (hs.ancilla_lt _ (hs.free_scratch _ (hfree ▸ hf)).1)

/-- What a qubit that was added for a constant is noted for. -/
theorem lowered_setConst {v : Bool} (hO : Onto ρ s₀ x S w [] w' E q) (hge : w.circuit.numQubits ≤ q)
    (hnone : w.constQubit v = none) (hb : q ∈ w'.circuit.bound) (ha : q ∉ w'.circuit.ancillas)
    (hv : w'.circuit.final s₀ q = v) : Lowered ρ s₀ x S (.ok v) none w q (w'.setConst q v) E := by
  have hF := hO.fetched
  have hF' : Fetched ρ s₀ x S (some q) w [] (w'.setConst q v) E := by
    refine ⟨hF.grows.setConst hnone hge, hF.sound.setConst hb ha hv, by simp, ?_, hF.unread, by simp, ?_⟩
    · cases v <;> exact hF.loose
    · cases v <;> exact hF.unnoted
  have hu : (w'.setConst q v).InUse q := by cases v <;> exact hO.inUse
  obtain ⟨hF'', hp⟩ := hF'.deliver hu (Or.inr ⟨rfl, fun hu => Nat.not_lt.2 hge hu.1⟩)
  refine ⟨hF'', congrArg Except.ok ?_, hp⟩
  cases v <;> exact hv.symm

/-- A constant that is put on a given qubit. -/
theorem lowers_const_onto {d : Qubit} (v : Bool) : Lowers ρ s₀ x S (.ok v) (some d) (lowerConst v (some d)) := by
  intro w q w' hR hz hrun
  unfold lowerConst at hrun
  have hO := Onto.of_added hR (.refl hR.sound S (some d))
  cases v with
  | false =>
    obtain ⟨rfl, rfl⟩ := Lowering.pure_eq_ok.1 hrun
    obtain ⟨hF, hp⟩ := hO.fetched.deliver hO.inUse (Or.inl rfl)
    exact ⟨[], hF, by rw [hz d rfl], hp⟩
  | true =>
    obtain ⟨_, w₁, hg, hrun⟩ := Lowering.bind_eq_ok.1 hrun
    obtain ⟨rfl, rfl⟩ := Lowering.pure_eq_ok.1 hrun
    obtain ⟨hO, hval⟩ := hO.gate rfl rfl (by simp [Gate.x, Gate.controls]) hg
    obtain ⟨hF, hp⟩ := hO.fetched.deliver hO.inUse (Or.inl rfl)
    refine ⟨_, hF, ?_, hp⟩
    rw [hval, Function.update_self, hz d rfl]
    rfl

/-- A constant is on the qubit it is asked for, or on the one qubit that the workspace has for it. -/
theorem lowers_const (v : Bool) : Lowers ρ s₀ x S (.ok v) dest (lowerConst v dest) := by
  cases dest with
  | some d => exact lowers_const_onto v
  | none =>
    intro w q w' hR hz hrun
    rw [lowerConst, Lowering.get_bind] at hrun
    have hc : (if v then w.trueQubit else w.falseQubit) = w.constQubit v := by cases v <;> rfl
    rw [hc] at hrun
    cases hq : w.constQubit v with
    | some p =>
      rw [hq] at hrun
      obtain ⟨rfl, rfl⟩ := Lowering.pure_eq_ok.1 hrun
      obtain ⟨hb, -, hv⟩ := hR.sound.const_value v p hq
      have hna : ¬Apart w S p := fun ha => ha.const v hq
      have hu := hR.sound.const_inUse hq
      exact ⟨[], .known hR.sound hu hna, by rw [hv], .known rfl hu (Or.inr (not_disposable_of_bound hb))⟩
    | none =>
      rw [hq] at hrun
      obtain ⟨p, w₁, hadd, hrun⟩ := Lowering.bind_eq_ok.1 hrun
      obtain ⟨rfl, rfl⟩ := Lowering.onCircuit_eq_ok.1 hadd
      obtain ⟨hO, -⟩ := onto_addQubit (.refl hR.sound S none) (.const v)
      have hzero : (w.circuit.addQubit (some (constName v))).1.final s₀ w.circuit.numQubits = false :=
        hR.sound.zero _ (Or.inr (Nat.le_refl _))
      have hb : w.circuit.numQubits ∈ (w.circuit.addQubit (some (constName v))).1.bound :=
        QubitSet.mem_insert.2 (Or.inl rfl)
      have ha : w.circuit.numQubits ∉ w.circuit.ancillas := fun ha => Nat.lt_irrefl _ (hR.sound.ancilla_lt _ ha)
      cases v with
      | false =>
        obtain ⟨_, w₂, hset, hrun⟩ := Lowering.bind_eq_ok.1 hrun
        obtain ⟨rfl, rfl⟩ := Lowering.pure_eq_ok.1 hrun
        obtain rfl := Lowering.modify_eq_ok.1 hset
        exact ⟨_, lowered_setConst hO (Nat.le_refl _) hq hb ha hzero⟩
      | true =>
        obtain ⟨_, w₂, hg, hrun⟩ := Lowering.bind_eq_ok.1 hrun
        obtain ⟨_, w₃, hset, hrun⟩ := Lowering.bind_eq_ok.1 hrun
        obtain ⟨rfl, rfl⟩ := Lowering.pure_eq_ok.1 hrun
        obtain rfl := Lowering.modify_eq_ok.1 hset
        obtain ⟨hO, hval⟩ := hO.gate rfl rfl (by simp [Gate.x, Gate.controls]) hg
        obtain ⟨c, hc, rfl⟩ := Lowering.emit_eq_ok.1 hg
        obtain ⟨-, t, -, rfl⟩ := Circuit.append_eq_ok rfl hc
        refine ⟨_, lowered_setConst hO (Nat.le_refl _) hq hb ha ?_⟩
        change Circuit.final _ s₀ w.circuit.numQubits = true
        rw [hval, Function.update_self, hzero]
        rfl

end Workspace

end ReversibleLogic
