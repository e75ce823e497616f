import ReversibleLogic.Proofs.Lowering.Expressions

/-!
# Lowering the value of an assignment

The expression of an assignment is lowered for its target. Then two things can happen that happen to no operand: an argument that
is assigned to itself is copied, and the value of the target can be changed where it is, by a flip or by adding to it. A value is
changed where it is only if nothing else has its qubit (`Updated`); in all other cases the expression is lowered as an operand is.
-/

namespace ReversibleLogic

/-- A bound name has a binding. -/
theorem NameMap.mem_of_get? {m : NameMap} {s : Symbol} {q : Qubit} (h : m.get? s = some q) : (s, q) ∈ m.entries := by
  obtain ⟨before, after, he, _⟩ := List.lookup_eq_some_iff.1 h
  rw [he]
  simp

namespace Workspace

open Expression (anyMentions evalFold allBoolean)

variable {ρ : Valuation} {s₀ : Bits} {x dest : Option Qubit} {S : Symbol → Bool} {w w' w₁ : Workspace} {q out : Qubit}
  {e : Expression} {es : List Expression} {t : Symbol} {E : List LogEntry}

/-! ## Copies -/

/-- A qubit that is no scratch qubit is not marked. -/
theorem release_of_not_disposable (h : w.circuit.isDisposable q = false) : release q w = .ok ((), w) := by
  refine Lowering.modify_eq_ok.2 ?_
  rw [if_neg (by simp [h])]

/-- The qubit of a symbol is copied to a qubit at 0. -/
theorem lowered_copy {s : Symbol} {u : Unit} (hq : w.env.get? s = some q)
    (hO : Onto ρ s₀ x S w [q] w₁ E out) (hv : (Expression.ref s).eval ρ = .ok (w₁.circuit.final s₀ q))
    (hzero : w₁.circuit.final s₀ out = false) (hout : dest = some out ∨ dest = none ∧ ¬w.InUse out)
    (hrun : gate (.cx q out) w₁ = .ok (u, w')) :
    ∃ E', Lowered ρ s₀ x S ((Expression.ref s).eval ρ) dest w out w' E' := by
  obtain ⟨hO, hval⟩ := hO.gate rfl rfl (by simp [Gate.cx, Gate.controls]) hrun
  have hb : q ∈ w'.circuit.bound := hO.fetched.sound.env_bound s q (by rw [hO.fetched.grows.env]; exact hq)
  have hrel : releaseAll [q] w' = .ok ((), w') := release_of_not_disposable (not_disposable_of_bound hb)
  obtain ⟨hF, hu, -⟩ := hO.settle hrel
  obtain ⟨hF, hp⟩ := hF.deliver hu hout
  refine ⟨_, hF, ?_, hp⟩
  rw [hval, Function.update_self, hzero, hv]
  simp [Gate.cx, Gate.controls]

/-- A symbol that is assigned to a symbol, to itself perhaps. -/
theorem lowered_ref {s : Symbol} {target : Option Symbol} (hR : Ready ρ s₀ x (fun r => (Expression.ref s).mentions r) dest w)
    (hz : ∀ d, dest = some d → w.circuit.final s₀ d = false) (hrun : lowerRef s dest target w = .ok (q, w')) :
    ∃ E, Lowered ρ s₀ x (fun r => (Expression.ref s).mentions r) ((Expression.ref s).eval ρ) dest w q w' E := by
  unfold lowerRef at hrun
  obtain ⟨p, w₁, hl, hrest⟩ := Lowering.bind_eq_ok.1 hrun
  obtain ⟨hp, rfl⟩ := lookup_eq_ok hl
  obtain ⟨hF, hv, -⟩ : Lowered _ _ _ _ _ none _ _ _ _ := lowered_of_env hR hp
  rw [Lowering.get_bind] at hrest
  split at hrest
  · cases dest with
    | some d =>
      obtain ⟨c, w₂, hc, hrest⟩ := Lowering.bind_eq_ok.1 hrest
      obtain ⟨rfl, rfl⟩ := Lowering.pure_eq_ok.1 hc
      obtain ⟨_, w₃, hg, hret⟩ := Lowering.bind_eq_ok.1 hrest
      obtain ⟨rfl, rfl⟩ := Lowering.pure_eq_ok.1 hret
      exact lowered_copy hp (.of_ready hR hF) hv (hz d rfl) (Or.inl rfl) hg
    | none =>
      obtain ⟨c, w₂, hc, hrest⟩ := Lowering.bind_eq_ok.1 hrest
      obtain ⟨rfl, rfl⟩ := Lowering.onCircuit_eq_ok.1 hc
      obtain ⟨_, w₃, hg, hret⟩ := Lowering.bind_eq_ok.1 hrest
      obtain ⟨rfl, rfl⟩ := Lowering.pure_eq_ok.1 hret
      obtain ⟨hO, hnew⟩ := onto_addQubit hF .none
      exact lowered_copy hp hO hv (hR.sound.zero _ (Or.inr (Nat.le_refl _))) (Or.inr ⟨rfl, hnew⟩) hg
  · obtain ⟨rfl, rfl⟩ := Lowering.pure_eq_ok.1 hrest
    exact ⟨[], lowered_of_env hR hp⟩

/-! ## Changes in place -/

/-- The value of `e` has been made on the qubit of the symbol `t`, in place of the value of `t`. -/
structure Updated (ρ : Valuation) (s₀ : Bits) (e : Expression) (t : Symbol) (w : Workspace) (q : Qubit) (w' : Workspace)
    (E : List LogEntry) : Prop where
  home : w.env.get? t = some q
  alone : w.canOverwrite t q = true
  grows : Grows (some q) w w' E
  sound : Sound ρ s₀ (some q) w'
  value : e.eval ρ = .ok (w'.circuit.final s₀ q)
  loose : ∀ p, w'.Loose p → w.Loose p ∨ p = q
  /-- What is noted for the qubit is the new value, in terms of the old one. -/
  noted : ∀ b ∈ w'.memo.entries, b.2 = q → b.1.mentions t = true

/-- A qubit that may be overwritten is the qubit of one symbol and of nothing else. -/
theorem canOverwrite_eq_true (h : w.canOverwrite t q = true) :
    (∀ v, w.constQubit v ≠ some q) ∧ ∀ s, w.env.get? s = some q → s = t := by
  simp only [canOverwrite, Bool.and_eq_true, bne_iff_ne, List.all_eq_true, Bool.or_eq_true, beq_iff_eq] at h
  obtain ⟨⟨ht, hf⟩, hall⟩ := h
  refine ⟨fun v => ?_, fun s hs => ?_⟩
  · cases v
    · exact hf
    · exact ht
  · exact (hall _ (NameMap.mem_of_get? hs)).resolve_right (by simp)

/-- Less is claimed while a qubit is overwritten. -/
theorem Sound.overwriting (hs : Sound ρ s₀ none w) (q : Qubit) : Sound ρ s₀ (some q) w :=
  { hs with
    env_value := fun s p hp _ => hs.env_value s p hp (by simp)
    memo_value := fun b hb _ => hs.memo_value b hb (by simp) }

/-- A qubit can be overwritten by steps that have nothing to do with it. -/
theorem Sound.ready (hs : Sound ρ s₀ none w) (ha : Apart w S q) : Ready ρ s₀ (some q) S (some q) w := by
  refine ⟨hs.overwriting q, fun p hp => ?_, fun p hp => ?_, fun p hp => ?_⟩
  · exact Option.some.inj hp ▸ ha
  · exact Option.some.inj hp ▸ ha
  · exact Option.some.inj hp ▸ ⟨ha.const, fun _ _ => rfl, fun _ _ _ => rfl⟩

/-- A qubit that may be overwritten can be handed to steps that have nothing to do with its symbol, when what was noted for it
is forgotten. -/
theorem ready_overwrite (hs : Sound ρ s₀ none w) (hq : w.env.get? t = some q) (ho : w.canOverwrite t q = true)
    (hS : S t = false) : Ready ρ s₀ (some q) S (some q) { w with memo := w.memo.eraseQubit q } := by
  obtain ⟨hconst, henv⟩ := canOverwrite_eq_true ho
  have hsub : ∀ b ∈ (w.memo.eraseQubit q).entries, b ∈ w.memo.entries := fun b hb => (Memo.mem_eraseQubit.1 hb).1
  refine (hs.shrinkMemo hsub).ready ⟨hs.env_inUse hq, hconst, fun s hs' he => ?_, fun b hb he => ?_⟩
  · rw [henv s he, hS] at hs'
    exact Bool.noConfusion hs'
  · exact absurd he (Memo.mem_eraseQubit.1 hb).2

/-- What has been added to the qubit of a symbol changes the symbol's value in place. -/
theorem updated_of_fetched (hs : Sound ρ s₀ none w) (hq : w.env.get? t = some q) (ho : w.canOverwrite t q = true)
    (hS : S t = false) (hF : Fetched ρ s₀ (some q) S (some q) { w with memo := w.memo.eraseQubit q } [] w' E)
    (hv : e.eval ρ = .ok (w'.circuit.final s₀ q)) : Updated ρ s₀ e t w q w' E := by
  have ha := (ready_overwrite hs hq ho hS).apart q rfl
  have hgrow := ((Grows.refl (some q) w).withMemo (w.memo.eraseQubit q)).trans hF.grows
  refine ⟨hq, ho, hgrow, hF.sound, hv, fun p hp => ?_, fun b hb he => ?_⟩
  · rcases hF.loose p hp with h | h | h
    · exact Or.inl h
    · simp at h
    · exact Or.inr (Option.some.inj h).symm
  · exact absurd he (Memo.mem_eraseQubit.1 (hF.unnoted q ha (by simp) b hb he)).2

/-- The new value may be noted. -/
theorem Updated.note (h : Updated ρ s₀ e t w q w' E) (ht : e.mentions t = true) :
    Updated ρ s₀ e t w q { w' with memo := w'.memo.insert e q } E := by
  refine ⟨h.home, h.alone, h.grows.withMemo _, h.sound.note ?_ fun hx => absurd rfl hx, h.value, h.loose,
    fun b hb he => ?_⟩
  · exact h.sound.env_inUse (h.grows.env ▸ h.home)
  · rcases Memo.mem_insert hb with rfl | hb
    · exact ht
    · exact h.noted b hb he

/-- A flip is made in place only for a symbol that is assigned to itself, and only where nothing else has its qubit. -/
theorem flipInPlace?_eq_ok {target : Option Symbol} {f : Option Qubit} (h : flipInPlace? e dest target w = .ok (f, w')) :
    w' = w ∧ ∀ q, f = some q →
      dest = none ∧ ∃ t, e = .ref t ∧ target = some t ∧ w.env.get? t = some q ∧ w.canOverwrite t q = true := by
  unfold flipInPlace? at h
  split at h
  · next s t =>
    obtain ⟨p, w₁, hl, hret⟩ := Lowering.bind_eq_ok.1 h
    obtain ⟨hp, rfl⟩ := lookup_eq_ok hl
    rw [Lowering.get_bind] at hret
    obtain ⟨rfl, rfl⟩ := Lowering.pure_eq_ok.1 hret
    refine ⟨rfl, fun q hq => ⟨rfl, t, ?_⟩⟩
    split at hq
    · next hcond =>
      obtain ⟨rfl, ho⟩ := hcond
      cases hq
      exact ⟨rfl, rfl, hp, ho⟩
    · cases hq
  · obtain ⟨rfl, rfl⟩ := Lowering.pure_eq_ok.1 h
    exact ⟨rfl, by simp⟩

/-- Operands are added up in place only where one of them is the target, no other mentions it, and nothing else has its qubit. -/
theorem sumInPlace?_eq_some {target : Option Symbol} {pos : Nat} (h : w.sumInPlace? es dest target = some (pos, q)) :
    dest = none ∧ ∃ t, target = some t ∧ es[pos]? = some (.ref t) ∧ w.env.get? t = some q ∧
      anyMentions t (es.eraseIdx pos) = false ∧ w.canOverwrite t q = true := by
  unfold sumInPlace? at h
  split at h
  · next t =>
    split at h
    · next i p hi hp =>
      split at h
      · next hcond =>
        cases h
        obtain ⟨hlt, href, -⟩ := List.findIdx?_eq_some_iff_getElem.1 hi
        simp only [Bool.and_eq_true, Bool.not_eq_true'] at hcond
        refine ⟨rfl, t, rfl, ?_, hp, hcond.1, hcond.2⟩
        have hget : es[pos] = .ref t := Expression.eq_of_ref? (by simpa using href)
        rw [List.getElem?_eq_getElem hlt, hget]
      · cases h
    · cases h
  · cases h

/-- The negation of a symbol that is assigned to it is made by a flip. -/
theorem updated_flip (hs : Sound ρ s₀ none w) (hq : w.env.get? t = some q) (ho : w.canOverwrite t q = true) {p : Qubit}
    (hrun : (do forget q; gate (.x q); return q : Lowering Qubit) w = .ok (p, w')) :
    p = q ∧ ∃ E, Updated ρ s₀ (.not (.ref t)) t w q w' E := by
  obtain ⟨_, w₁, hf, hrun⟩ := Lowering.bind_eq_ok.1 hrun
  obtain ⟨_, w₂, hg, hrun⟩ := Lowering.bind_eq_ok.1 hrun
  obtain ⟨rfl, rfl⟩ := Lowering.pure_eq_ok.1 hrun
  obtain rfl := forget_eq_ok hf
  have hR : Ready ρ s₀ (some q) (fun _ => false) (some q) { w with memo := w.memo.eraseQubit q } :=
    ready_overwrite hs hq ho rfl
  obtain ⟨hO, hval⟩ := (Onto.of_added hR (.refl hR.sound _ _)).gate rfl rfl (by simp [Gate.x, Gate.controls]) hg
  refine ⟨rfl, _, updated_of_fetched hs hq ho rfl hO.fetched ?_⟩
  rw [eval_not (Expression.eval_ref_eq_ok.2 (hs.env_value t q hq (by simp))), hval, Function.update_self]
  simp [Gate.x, Gate.controls]

/-- An exclusive or with a symbol that is assigned to it is made by adding the other operands. -/
theorem updated_sum (hes : allBoolean es = true) (hs : Sound ρ s₀ none w) (hq : w.env.get? t = some q)
    (ho : w.canOverwrite t q = true) {pos : Nat} (hpos : es[pos]? = some (.ref t))
    (hm : anyMentions t (es.eraseIdx pos) = false) {p : Qubit}
    (hrun : (do forget q; addAll es q (some pos); return q : Lowering Qubit) w = .ok (p, w')) :
    p = q ∧ ∃ E, Updated ρ s₀ (.xor es) t w q w' E := by
  obtain ⟨_, w₁, hf, hrun⟩ := Lowering.bind_eq_ok.1 hrun
  obtain ⟨_, w₂, ha, hrun⟩ := Lowering.bind_eq_ok.1 hrun
  obtain ⟨rfl, rfl⟩ := Lowering.pure_eq_ok.1 hrun
  obtain rfl := forget_eq_ok hf
  have hR := ready_overwrite (S := fun s => anyMentions s (skipped es (some pos))) hs hq ho hm
  obtain ⟨E, hF, v, hv, hval⟩ := addAll_spec hes q (some pos) hR ha
  refine ⟨rfl, E, updated_of_fetched hs hq ho hm hF ?_⟩
  have ht : (Expression.ref t).eval ρ = .ok (w.circuit.final s₀ q) :=
    Expression.eval_ref_eq_ok.2 (hs.env_value t q hq (by simp))
  rw [Expression.eval, Expression.evalFold_xor_eraseIdx hpos ht hv, hval]

/-! ## The value of an assignment -/

/-- The value of an assignment that is not changed in place is lowered as an operand is. -/
theorem lowered_root (he : e.isBoolean = true) (hR : Ready ρ s₀ x (fun s => e.mentions s) dest w)
    (hz : ∀ d, dest = some d → w.circuit.final s₀ d = false)
    (hflip : ∀ d, e = .not d → flipInPlace? d dest (some t) w = .ok (none, w))
    (hsum : ∀ es, e = .xor es → w.sumInPlace? es dest (some t) = none) (hrun : lower e dest (some t) w = .ok (q, w')) :
    ∃ E, Lowered ρ s₀ x (fun s => e.mentions s) (e.eval ρ) dest w q w' E := by
  cases e with
  | const v => exact lower_spec he dest hR hz hrun
  | and es => exact lower_spec he dest hR hz hrun
  | or es => exact lower_spec he dest hR hz hrun
  | blackBox tag es => simp [Expression.isBoolean] at he
  | ref s =>
    rcases reuse_cases hR hrun with hL | hmake
    · exact ⟨[], hL⟩
    · exact lowered_ref hR hz hmake
  | not e =>
    rcases remember_cases hR hrun with hL | ⟨w₁, hmake, hw⟩
    · exact ⟨[], hL⟩
    obtain ⟨E, hL⟩ := lowered_negate (lower_spec (e := e) he none) hR hz (hflip e rfl) hmake
    rcases hw with rfl | rfl
    · exact ⟨E, hL⟩
    · exact ⟨E, hL.note⟩
  | xor es =>
    rcases remember_cases hR hrun with hL | ⟨w₁, hmake, hw⟩
    · exact ⟨[], hL⟩
    obtain ⟨E, hL⟩ := lowered_sumUp (fun out => addAll_spec (l := es) he out none) hR hz (hsum es rfl) hmake
    rcases hw with rfl | rfl
    · exact ⟨E, hL⟩
    · exact ⟨E, hL.note⟩

/-- With a destination nothing is changed in place. -/
theorem lowered_dest {d : Qubit} (he : e.isBoolean = true) (hR : Ready ρ s₀ x (fun s => e.mentions s) (some d) w)
    (hz : w.circuit.final s₀ d = false) (hrun : lower e (some d) (some t) w = .ok (q, w')) :
    ∃ E, Lowered ρ s₀ x (fun s => e.mentions s) (e.eval ρ) (some d) w q w' E := by
  refine lowered_root he hR (fun d' hd => Option.some.inj hd ▸ hz) (fun e _ => ?_) (fun _ _ => rfl) hrun
  cases e <;> rfl

/-- The value of an assignment has been lowered, or it has replaced the value of the target in place. -/
theorem lower_root (he : e.isBoolean = true) (hR : Ready ρ s₀ none (fun s => e.mentions s) dest w)
    (hz : ∀ d, dest = some d → w.circuit.final s₀ d = false) (hrun : lower e dest (some t) w = .ok (q, w')) :
    (∃ E, Lowered ρ s₀ none (fun s => e.mentions s) (e.eval ρ) dest w q w' E) ∨
      dest = none ∧ ∃ E, Updated ρ s₀ e t w q w' E := by
  cases e with
  | const v => exact Or.inl (lowered_root he hR hz (by simp) (by simp) hrun)
  | and es => exact Or.inl (lowered_root he hR hz (by simp) (by simp) hrun)
  | or es => exact Or.inl (lowered_root he hR hz (by simp) (by simp) hrun)
  | blackBox tag es => simp [Expression.isBoolean] at he
  | ref s => exact Or.inl (lowered_root he hR hz (by simp) (by simp) hrun)
  | not e =>
    rcases remember_cases hR hrun with hL | ⟨w₁, hmake, hw⟩
    · exact Or.inl ⟨[], hL⟩
    obtain ⟨f, w₀, hf, hrest⟩ := Lowering.bind_eq_ok.1 hmake
    obtain ⟨rfl, hflip⟩ := flipInPlace?_eq_ok hf
    cases f with
    | none => exact Or.inl (lowered_root he hR hz (fun d hd => Expression.not.inj hd ▸ hf) (by simp) hrun)
    | some p =>
      obtain ⟨rfl, s, rfl, hst, hp, ho⟩ := hflip p rfl
      cases hst
      obtain ⟨rfl, E, hU⟩ := updated_flip hR.sound hp ho hrest
      rcases hw with rfl | rfl
      · exact Or.inr ⟨rfl, E, hU⟩
      · exact Or.inr ⟨rfl, E, hU.note (by simp [Expression.mentions])⟩
  | xor es =>
    rcases remember_cases hR hrun with hL | ⟨w₁, hmake, hw⟩
    · exact Or.inl ⟨[], hL⟩
    cases hin : w.sumInPlace? es dest (some t) with
    | none => exact Or.inl (lowered_root he hR hz (by simp) (fun l hl => Expression.xor.inj hl ▸ hin) hrun)
    | some r =>
      obtain ⟨pos, p⟩ := r
      obtain ⟨rfl, s, hst, hpos, hp, hm, ho⟩ := sumInPlace?_eq_some hin
      cases hst
      have hne : es.isEmpty = false := by
        cases es with
        | nil => simp at hpos
        | cons => rfl
      unfold sumUp at hmake
      rw [hne, if_neg (by simp)] at hmake
      dsimp only at hmake
      rw [Lowering.get_bind, hin] at hmake
      obtain ⟨rfl, E, hU⟩ := updated_sum he hR.sound hp ho hpos hm hmake
      have ht : (Expression.xor es).mentions t = true := by
        rw [Expression.mentions, Expression.anyMentions_eq, List.any_eq_true]
        exact ⟨.ref t, List.mem_of_getElem? hpos, by simp [Expression.mentions]⟩
      rcases hw with rfl | rfl
      · exact Or.inr ⟨rfl, E, hU⟩
      · exact Or.inr ⟨rfl, E, hU.note ht⟩

end Workspace

end ReversibleLogic
