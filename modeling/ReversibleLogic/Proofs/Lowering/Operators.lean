import ReversibleLogic.Proofs.Lowering.Specification

/-!
# What each operator does

Each operator meets the specification of its connective when the steps for its operands meet theirs. This is all that an
induction over expressions needs to know of the operators.
-/

namespace ReversibleLogic

namespace Workspace

variable {ρ : Valuation} {s₀ : Bits} {x dest : Option Qubit} {S T : Symbol → Bool} {r : Except EvalError Bool}
  {w w' w₁ w₂ : Workspace} {p q out : Qubit} {qs : List Qubit} {E : List LogEntry} {e : Expression}

/-! ## Conjunction -/

/-- The operands' conjunction is added to the destination or to a scratch qubit, which is at 0. -/
theorem lowered_mcx (hR : Ready ρ s₀ x S dest w) (hz : ∀ d, dest = some d → w.circuit.final s₀ d = false)
    (hF : Fetched ρ s₀ x S none w qs w₁ E) (hv : r = .ok (qs.all (w₁.circuit.final s₀)))
    (hrun : (do let out ← scratch dest; gate (.mcx qs out); releaseAll qs; return out : Lowering Qubit) w₁ = .ok (q, w')) :
    ∃ E', Lowered ρ s₀ x S r dest w q w' E' := by
  obtain ⟨out, w₂, hs, hrun⟩ := Lowering.bind_eq_ok.1 hrun
  obtain ⟨_, w₃, hg, hrun⟩ := Lowering.bind_eq_ok.1 hrun
  obtain ⟨_, w₄, hrel, hrun⟩ := Lowering.bind_eq_ok.1 hrun
  obtain ⟨rfl, rfl⟩ := Lowering.pure_eq_ok.1 hrun
  obtain ⟨hO, hfin, hzero, hout⟩ := onto_scratch hR hz hF hs
  obtain ⟨hO, hval⟩ := hO.gate (Gate.isClassical_mcx qs out) (Gate.target?_mcx qs out) (by simp [Gate.controls_mcx]) hg
  obtain ⟨hF', hu, hfin'⟩ := hO.settle hrel
  obtain ⟨hF', hp⟩ := hF'.deliver hu hout
  refine ⟨_, hF', ?_, hp⟩
  rw [hfin', hval, Function.update_self, hzero, Gate.controls_mcx, hfin, Bool.false_xor, hv]

/-- The conjunction of the operands is left on a qubit. -/
theorem lowers_conjoin {operands : Lowering (List Qubit)} (h : LowersAll ρ s₀ x S r operands) :
    Lowers ρ s₀ x S r dest (conjoin operands dest) := by
  intro w q w' hR hz hrun
  obtain ⟨qs, w₁, hops, hrun⟩ := Lowering.bind_eq_ok.1 hrun
  obtain ⟨E, hF, hv, hone⟩ := h hR.withoutOut hops
  split at hrun
  · obtain ⟨rfl, rfl⟩ := Lowering.pure_eq_ok.1 hrun
    exact ⟨E, hF, by simpa using hv, hone _ rfl⟩
  · exact lowered_mcx hR hz hF hv hrun

/-- Or it is added to one. -/
theorem adds_conjunction {operands : Lowering (List Qubit)} (h : LowersAll ρ s₀ x S r operands) :
    Adds ρ s₀ x S r out (addConjunction operands out) := by
  intro w u w' hR hrun
  obtain ⟨qs, w₁, hops, hrun⟩ := Lowering.bind_eq_ok.1 hrun
  obtain ⟨_, w₂, hg, hrel⟩ := Lowering.bind_eq_ok.1 hrun
  obtain ⟨E, hF, hv, -⟩ := h hR.withoutOut hops
  have hO := Onto.of_ready hR hF
  obtain ⟨hO, hval⟩ := hO.gate (Gate.isClassical_mcx qs out) (Gate.target?_mcx qs out) (by simp [Gate.controls_mcx]) hg
  obtain ⟨hF', -, hfin⟩ := hO.settle hrel
  refine ⟨_, hF', _, hv, ?_⟩
  rw [hfin, hval, Function.update_self, Gate.controls_mcx, hF.grows.final_of_inUse (hR.apart out rfl).inUse (by simp)]

/-! ## Disjunction -/

/-- Two operands are disjoined on `out`. -/
theorem Onto.addOr {l r : Qubit} {u : Unit} (h : Onto ρ s₀ x S w [l, r] w₁ E out)
    (hrun : Workspace.addOr l r out w₁ = .ok (u, w₂)) :
    ∃ E', Onto ρ s₀ x S w [l, r] w₂ E' out ∧
      w₂.circuit.final s₀ out = (w₁.circuit.final s₀ out ^^ (w₁.circuit.final s₀ l || w₁.circuit.final s₀ r)) := by
  unfold Workspace.addOr at hrun
  have hne : r ≠ out := fun hr => h.notOperand (by simp [hr])
  by_cases hlr : l = r
  · rw [if_pos hlr] at hrun
    obtain ⟨hO, hval⟩ := h.gate rfl rfl (by simp [Gate.cx, Gate.controls]) hrun
    refine ⟨_, hO, ?_⟩
    rw [hval, Function.update_self, hlr]
    simp [Gate.cx, Gate.controls]
  · rw [if_neg hlr] at hrun
    obtain ⟨_, w₃, hc, hg⟩ := Lowering.bind_eq_ok.1 hrun
    obtain ⟨hO, hval⟩ := h.conjugated rfl (by simp [Gate.ccx, Gate.controls]) (by simp) hc
    obtain ⟨hO, hval'⟩ := hO.gate rfl rfl (by simp [Gate.cx, Gate.controls]) hg
    refine ⟨_, hO, ?_⟩
    rw [hval', Function.update_self, hval, Function.update_self]
    simp only [Gate.cx, Gate.ccx, Gate.controls, List.dropLast, List.all_cons, List.all_nil, Bool.and_true,
      Function.update_of_ne hlr, Function.update_self, Function.update_of_ne hne]
    cases w₁.circuit.final s₀ l <;> cases w₁.circuit.final s₀ r <;> simp

/-- The disjunction of the two operands is left on a qubit. -/
theorem lowers_disjoin {operands : Lowering (Qubit × Qubit)} (h : LowersPair ρ s₀ x S r operands) :
    Lowers ρ s₀ x S r dest (disjoin operands dest) := by
  intro w q w' hR hz hrun
  obtain ⟨⟨l, r'⟩, w₁, hops, hrun⟩ := Lowering.bind_eq_ok.1 hrun
  obtain ⟨E, hF, hv, hone⟩ := h hR.withoutOut hops
  dsimp only at hrun hF hv hone
  by_cases hsame : l = r' ∧ dest = none
  · obtain ⟨rfl, rfl⟩ := hsame
    rw [if_pos ⟨rfl, rfl⟩] at hrun
    obtain ⟨rfl, rfl⟩ := Lowering.pure_eq_ok.1 hrun
    exact ⟨E, hF.relist (by simp), by simpa using hv, hone rfl⟩
  · rw [if_neg hsame] at hrun
    obtain ⟨out, w₂, hs, hrun⟩ := Lowering.bind_eq_ok.1 hrun
    obtain ⟨_, w₃, hor, hrun⟩ := Lowering.bind_eq_ok.1 hrun
    obtain ⟨_, w₄, hrel, hrun⟩ := Lowering.bind_eq_ok.1 hrun
    obtain ⟨_, w₅, hrel', hrun⟩ := Lowering.bind_eq_ok.1 hrun
    obtain ⟨rfl, rfl⟩ := Lowering.pure_eq_ok.1 hrun
    obtain ⟨hO, hfin, hzero, hout⟩ := onto_scratch hR hz hF hs
    obtain ⟨E', hO, hval⟩ := hO.addOr hor
    obtain ⟨hF', hu, hfin'⟩ := hO.settle (releaseAll_pair hrel hrel')
    obtain ⟨hF', hp⟩ := hF'.deliver hu hout
    refine ⟨_, hF', ?_, hp⟩
    rw [hfin', hval, hzero, hfin, Bool.false_xor, hv]

/-- Or it is added to one. -/
theorem adds_disjunction {operands : Lowering (Qubit × Qubit)} (h : LowersPair ρ s₀ x S r operands) :
    Adds ρ s₀ x S r out (addDisjunction operands out) := by
  intro w u w' hR hrun
  obtain ⟨⟨l, r'⟩, w₁, hops, hrun⟩ := Lowering.bind_eq_ok.1 hrun
  obtain ⟨_, w₂, hor, hrun⟩ := Lowering.bind_eq_ok.1 hrun
  obtain ⟨_, w₃, hrel, hrel'⟩ := Lowering.bind_eq_ok.1 hrun
  obtain ⟨E, hF, hv, -⟩ := h hR.withoutOut hops
  obtain ⟨E', hO, hval⟩ := (Onto.of_ready hR hF).addOr hor
  obtain ⟨hF', -, hfin⟩ := hO.settle (releaseAll_pair hrel hrel')
  refine ⟨_, hF', _, hv, ?_⟩
  rw [hfin, hval, hF.grows.final_of_inUse (hR.apart out rfl).inUse (by simp)]

/-! ## Negation -/

theorem eval_not {v : Bool} (h : e.eval ρ = .ok v) : (Expression.not e).eval ρ = .ok !v := by
  rw [Expression.eval, h]
  rfl

theorem forget_eq_ok {u : Unit} (h : forget q w = .ok (u, w')) : w' = { w with memo := w.memo.eraseQubit q } :=
  (Lowering.modify_eq_ok.1 h).symm

/-- A step may forget what has been noted. -/
theorem Fetched.forget {out : Option Qubit} (h : Fetched ρ s₀ x S out w qs w' E) (q : Qubit) :
    Fetched ρ s₀ x S out w qs { w' with memo := w'.memo.eraseQubit q } E := by
  have hsub : ∀ b ∈ (w'.memo.eraseQubit q).entries, b ∈ w'.memo.entries := fun b hb => (Memo.mem_eraseQubit.1 hb).1
  exact ⟨h.grows.withMemo _, h.sound.shrinkMemo hsub, h.inUse, h.loose, h.unread, h.notResult,
    fun p hp hq b hb he => h.unnoted p hp hq b (hsub b hb) he⟩

/-- The qubit of an operand is flipped where it is. It was not known before and is a scratch qubit without a name, so it has been
taken for the operand. -/
theorem lowered_flip (hs : Sound ρ s₀ x w) (hL : Lowered ρ s₀ x S (e.eval ρ) none w q w₁ E) (hq : q ∉ w.memo.qubits)
    (hd : w₁.circuit.isDisposable q = true)
    (hrun : (do forget q; gate (.x q); return q : Lowering Qubit) w₁ = .ok (p, w')) :
    ∃ E', Lowered ρ s₀ x S ((Expression.not e).eval ρ) none w p w' E' := by
  obtain ⟨_, w₂, hf, hrun⟩ := Lowering.bind_eq_ok.1 hrun
  obtain ⟨_, w₃, hg, hrun⟩ := Lowering.bind_eq_ok.1 hrun
  obtain ⟨rfl, rfl⟩ := Lowering.pure_eq_ok.1 hrun
  obtain rfl := forget_eq_ok hf
  obtain ⟨hF, hv, hp⟩ := hL
  have hdis : q ∈ w₁.circuit.ancillas ∧ q ∉ w₁.circuit.bound := by
    simpa [Circuit.isDisposable, Circuit.isAncilla] using hd
  cases hp with
  | delivered h => cases h
  | known _ hu hk =>
    rcases hk with hk | hk
    · exact absurd hk hq
    · have hd' : w.circuit.isDisposable q = true := by
        have h1 := (hF.grows.ancillas q hu.1).1 hdis.1
        have h2 := fun hb => hdis.2 ((hF.grows.bound q hu.1).2 hb)
        simpa [Circuit.isDisposable, Circuit.isAncilla] using And.intro h1 h2
      exact Bool.noConfusion (hk.symm.trans hd')
  | taken _ hn hr =>
    have hnote : Unnoted x { w₁ with memo := w₁.memo.eraseQubit q } q := by
      refine ⟨fun v hc => ?_, fun s hs' => ?_, fun b hb he => ?_⟩
      · exact (hF.sound.const_value v q hc).2.1 hdis.1
      · exact absurd (hs.env_inUse (hF.grows.env ▸ hs')) hn
      · exact absurd he (Memo.mem_eraseQubit.1 hb).2
    obtain ⟨hO, hval⟩ := (Onto.of_fresh (hF.forget q) hnote hn hr).gate rfl rfl (by simp [Gate.x, Gate.controls]) hg
    obtain ⟨hF', hp⟩ := hO.fetched.deliver hO.inUse (Or.inr ⟨rfl, hn⟩)
    refine ⟨_, hF', ?_, hp⟩
    rw [eval_not hv, hval, Function.update_self]
    simp [Gate.x, Gate.controls]

/-- Nothing is flipped in place for an expression that is not assigned. -/
theorem flipInPlace?_none (e : Expression) (dest : Option Qubit) (w : Workspace) :
    flipInPlace? e dest none w = .ok (none, w) := by
  cases e <;> rfl

/-- A negation that is not made in place. -/
theorem lowered_negate {target : Option Symbol} {operand : Lowering Qubit} (hop : Lowers ρ s₀ x S (e.eval ρ) none operand)
    (hR : Ready ρ s₀ x S dest w) (hz : ∀ d, dest = some d → w.circuit.final s₀ d = false)
    (hflip : flipInPlace? e dest target w = .ok (none, w)) (hrun : negate e dest target operand w = .ok (q, w')) :
    ∃ E, Lowered ρ s₀ x S ((Expression.not e).eval ρ) dest w q w' E := by
  obtain ⟨f, w₀, hf, hrun⟩ := Lowering.bind_eq_ok.1 hrun
  rw [hflip] at hf
  cases hf
  dsimp only at hrun
  rw [Lowering.get_bind] at hrun
  obtain ⟨p, w₁, hops, hrest⟩ := Lowering.bind_eq_ok.1 hrun
  rw [Lowering.get_bind] at hrest
  obtain ⟨E, hL⟩ := hop hR.withoutOut (by simp) hops
  split at hrest
  · next hcond =>
    simp only [Bool.and_eq_true, Option.isNone_iff_eq_none, Bool.not_eq_true', decide_eq_false_iff_not] at hcond
    obtain ⟨⟨rfl, -, hheld⟩, hd⟩ := hcond
    exact lowered_flip hR.sound hL hheld hd hrest
  · obtain ⟨out, w₂, hs, hrun⟩ := Lowering.bind_eq_ok.1 hrest
    obtain ⟨_, w₃, hg, hrun⟩ := Lowering.bind_eq_ok.1 hrun
    obtain ⟨_, w₄, hg', hrun⟩ := Lowering.bind_eq_ok.1 hrun
    obtain ⟨_, w₅, hrel, hrun⟩ := Lowering.bind_eq_ok.1 hrun
    obtain ⟨rfl, rfl⟩ := Lowering.pure_eq_ok.1 hrun
    obtain ⟨hO, hfin, hzero, hout⟩ := onto_scratch hR hz hL.fetched hs
    obtain ⟨hO, hval⟩ := hO.gate rfl rfl (by simp [Gate.cx, Gate.controls]) hg
    obtain ⟨hO, hval'⟩ := hO.gate rfl rfl (by simp [Gate.x, Gate.controls]) hg'
    obtain ⟨hF', hu, hfin'⟩ := hO.settle hrel
    obtain ⟨hF', hp⟩ := hF'.deliver hu hout
    refine ⟨_, hF', ?_, hp⟩
    rw [hfin', hval', Function.update_self, hval, Function.update_self, hzero, hfin, eval_not hL.value]
    simp [Gate.x, Gate.cx, Gate.controls]

/-- The negation of the operand is left on a qubit. -/
theorem lowers_negate {operand : Lowering Qubit} (hop : Lowers ρ s₀ x S (e.eval ρ) none operand) :
    Lowers ρ s₀ x S ((Expression.not e).eval ρ) dest (negate e dest none operand) :=
  fun _ _ _ hR hz hrun => lowered_negate hop hR hz (flipInPlace?_none e dest _) hrun

/-- Or it is added to one, by a flip. -/
theorem adds_not {add : Lowering Unit} (h : Adds ρ s₀ x S (e.eval ρ) out add) :
    Adds ρ s₀ x S ((Expression.not e).eval ρ) out (do add; gate (.x out)) := by
  intro w u w' hR hrun
  obtain ⟨_, w₁, hadd, hg⟩ := Lowering.bind_eq_ok.1 hrun
  obtain ⟨E, hF, v, hv, hval⟩ := h hR hadd
  obtain ⟨hO, hval'⟩ := (Onto.of_added hR hF).gate rfl rfl (by simp [Gate.x, Gate.controls]) hg
  refine ⟨_, hO.fetched, !v, eval_not hv, ?_⟩
  rw [hval', Function.update_self, hval]
  simp [Gate.x, Gate.controls]

/-! ## Exclusive or -/

/-- A constant is added by a flip or not at all. -/
theorem adds_const (v : Bool) : Adds ρ s₀ x S (.ok v) out (if v then gate (.x out) else return) := by
  intro w u w' hR hrun
  have hO := Onto.of_added hR (.refl hR.sound S (some out))
  cases v with
  | false =>
    obtain ⟨-, rfl⟩ := Lowering.pure_eq_ok.1 hrun
    exact ⟨[], hO.fetched, false, rfl, by simp⟩
  | true =>
    obtain ⟨hO, hval⟩ := hO.gate rfl rfl (by simp [Gate.x, Gate.controls]) hrun
    refine ⟨_, hO.fetched, true, rfl, ?_⟩
    rw [hval, Function.update_self]
    simp [Gate.x, Gate.controls]

/-- A value that is on a qubit is added from there. -/
theorem adds_value {value : Lowering Qubit} (h : Lowers ρ s₀ x S r none value) :
    Adds ρ s₀ x S r out (addValue value out) := by
  intro w u w' hR hrun
  obtain ⟨q, w₁, hval, hrun⟩ := Lowering.bind_eq_ok.1 hrun
  obtain ⟨_, w₂, hg, hrel⟩ := Lowering.bind_eq_ok.1 hrun
  obtain ⟨E, hF, hv, -⟩ := h hR.withoutOut (by simp) hval
  obtain ⟨hO, hval'⟩ := (Onto.of_ready hR hF).gate rfl rfl (by simp [Gate.cx, Gate.controls]) hg
  obtain ⟨hF', -, hfin⟩ := hO.settle hrel
  refine ⟨_, hF', _, hv, ?_⟩
  rw [hfin, hval', Function.update_self, hF.grows.final_of_inUse (hR.apart out rfl).inUse (by simp)]
  simp [Gate.cx, Gate.controls]

/-- A qubit on which operations are being made may be handed to further steps. -/
theorem Onto.ready (h : Onto ρ s₀ x S w [] w' E out) (hR : Ready ρ s₀ x S dest w) : Ready ρ s₀ x S (some out) w' := by
  have hx : ∀ p, x = some p → Apart w' S p := fun p hp =>
    h.fetched.apart (hR.overwritten p hp) (hR.overwritten p hp) (by simp)
  refine ⟨h.fetched.sound, hx, fun p hp => ?_, fun p hp => Option.some.inj hp ▸ h.unnoted⟩
  obtain rfl := Option.some.inj hp
  by_cases ho : x = some out
  · exact hx out ho
  · exact ⟨h.inUse, h.unnoted.const, fun s _ hs => ho (h.unnoted.env s hs), fun b hb he => absurd (h.unnoted.memo b hb he) ho⟩

/-- One addition after another. -/
theorem Fetched.andThen {E₁ E₂ : List LogEntry} (h₁ : Fetched ρ s₀ x S (some out) w [] w₁ E₁)
    (h₂ : Fetched ρ s₀ x S (some out) w₁ [] w₂ E₂) : Fetched ρ s₀ x S (some out) w [] w₂ (E₁ ++ E₂) :=
  (h₁.trans h₂ (by simp)).mono fun s hs => by simpa using hs

/-- An exclusive or that is not added up in place. -/
theorem lowered_sumUp {es : List Expression} {target : Option Symbol} {add : Qubit → Option Nat → Lowering Unit}
    (hadd : ∀ out, Adds ρ s₀ x S r out (add out none)) (hR : Ready ρ s₀ x S dest w)
    (hz : ∀ d, dest = some d → w.circuit.final s₀ d = false) (hin : w.sumInPlace? es dest target = none)
    (hrun : sumUp es dest target add w = .ok (q, w')) : ∃ E, Lowered ρ s₀ x S r dest w q w' E := by
  unfold sumUp at hrun
  cases hes : es.isEmpty with
  | true =>
    rw [hes, if_pos rfl] at hrun
    obtain ⟨_, _, h, _⟩ := Lowering.bind_eq_ok.1 hrun
    exact (Lowering.throw_eq_ok.1 h).elim
  | false =>
    rw [hes, if_neg (by simp)] at hrun
    dsimp only at hrun
    rw [Lowering.get_bind, hin] at hrun
    obtain ⟨out, w₁, hs, hrun⟩ := Lowering.bind_eq_ok.1 hrun
    obtain ⟨_, w₂, ha, hrun⟩ := Lowering.bind_eq_ok.1 hrun
    obtain ⟨rfl, rfl⟩ := Lowering.pure_eq_ok.1 hrun
    obtain ⟨hO, -, hzero, hout⟩ := onto_scratch hR hz (.refl hR.sound S none) hs
    obtain ⟨E, hF, v, hv, hval⟩ := hadd out (hO.ready hR) ha
    obtain ⟨hF', hp⟩ := (hO.fetched.andThen hF).deliver (hF.grows.inUse hO.inUse) hout
    refine ⟨_, hF', ?_, hp⟩
    rw [hval, hzero, Bool.false_xor, hv]

/-- The exclusive or of the operands is left on a qubit, if each of them can be added. -/
theorem lowers_sumUp {es : List Expression} {add : Qubit → Option Nat → Lowering Unit}
    (hadd : ∀ out, Adds ρ s₀ x S r out (add out none)) : Lowers ρ s₀ x S r dest (sumUp es dest none add) :=
  fun _ _ _ hR hz hrun => lowered_sumUp hadd hR hz rfl hrun

end Workspace

end ReversibleLogic
