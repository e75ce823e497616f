import Mathlib.Data.List.Perm.Basic
import ReversibleLogic.Proofs.Lowering.Decision

/-!
# Which expressions are lowered

Lowering succeeds exactly on the expressions that are well formed and whose symbols have qubits (`decides_lower`). The induction
is mutual with the lists of operands, as that of `lower_spec` is, and it takes from there what the workspace is like after an
operand. The expression of an assignment is lowered for its target, where a symbol can be copied, and where a negation or an
exclusive or can be made in place (`decides_root`).
-/

namespace ReversibleLogic

namespace Workspace

open Expression (anyMentions evalFold allBoolean allCountable compilable_const compilable_ref compilable_not compilable_and
  compilable_or compilable_xor)

variable {ρ : Valuation} {s₀ : Bits} {x dest : Option Qubit} {D : Symbol → Prop} {w w' : Workspace} {q : Qubit}
  {e : Expression} {es : List Expression}

/-! ## The qubits of a conjunction -/

/-- The qubits that are listed are distinct, and no more than the operands. -/
theorem lowerAll_nodup : ∀ {es : List Expression} {found qs : List Qubit} {w : Workspace}, found.Nodup →
    lowerAll es found w = .ok (qs, w') → qs.Nodup ∧ qs.length ≤ found.length + es.length := by
  intro es
  induction es with
  | nil =>
    intro found qs w hfound hrun
    obtain ⟨rfl, -⟩ := Lowering.pure_eq_ok.1 hrun
    exact ⟨hfound, Nat.le_refl _⟩
  | cons e es ih =>
    intro found qs w hfound hrun
    obtain ⟨q, w₁, -, hrest⟩ := Lowering.bind_eq_ok.1 hrun
    by_cases hq : q ∈ found
    · rw [if_pos hq] at hrest
      obtain ⟨hnodup, hlen⟩ := ih hfound hrest
      exact ⟨hnodup, by rw [List.length_cons]; omega⟩
    · rw [if_neg hq] at hrest
      have hfound' : (found ++ [q]).Nodup :=
        List.nodup_append.2 ⟨hfound, List.nodup_singleton q, fun a ha b hb hab => hq (List.mem_singleton.1 hb ▸ hab ▸ ha)⟩
      obtain ⟨hnodup, hlen⟩ := ih hfound' hrest
      refine ⟨hnodup, ?_⟩
      rw [List.length_append, List.length_singleton] at hlen
      rw [List.length_cons]
      omega

/-- So a gate can be made from them, if the operands can be counted. -/
theorem atLeastOne_lowerAll_nodup {op : Operator} {qs : List Qubit} (hes : es.length + 1 < Nat.pow 2 64)
    (hrun : atLeastOne op es (lowerAll es []) w = .ok (qs, w')) : qs.Nodup ∧ qs.length + 1 < Nat.pow 2 64 := by
  unfold atLeastOne at hrun
  split at hrun
  · exact (Lowering.throw_eq_ok.1 hrun).elim
  · obtain ⟨hnodup, hlen⟩ := lowerAll_nodup List.nodup_nil hrun
    exact ⟨hnodup, Nat.lt_of_le_of_lt (Nat.succ_le_succ (by simpa using hlen)) hes⟩

/-- The operands of a conjunction are lowered to qubits with its value. -/
theorem lowersAll_operands (hb : allBoolean es = true) (op : Operator) :
    LowersAll ρ s₀ x (fun s => anyMentions s es) (evalFold ρ (· && ·) true es) (atLeastOne op es (lowerAll es [])) :=
  lowersAll_atLeastOne (LowersAll.of_loweredAll fun _ _ _ hR hrun => lowerAll_spec hb hR (by simp) hrun)

/-- A conjunction needs an operand, and every operand has to be lowered. -/
theorem decides_and (hb : allBoolean es = true) (hlen : es.length + 1 < Nat.pow 2 64)
    (hR : Ready ρ s₀ x (fun s => anyMentions s es) dest w) (hz : ∀ d, dest = some d → w.circuit.final s₀ d = false)
    (h : Knows D w) (hops : Decides (Knows D) (∀ e ∈ es, e.Compilable D) (lowerAll es [] w)) :
    Decides (Knows D) ((Expression.and es).Compilable D)
      (remember (.and es) (conjoin (atLeastOne .and es (lowerAll es [])) dest) w) := by
  refine decides_remember h ?_
  refine decides_conjoin (lowersAll_operands hb .and) (fun _ _ => atLeastOne_lowerAll_nodup hlen) hR hz ?_
  exact (decides_atLeastOne hops).congr compilable_and.symm

/-- An exclusive or needs an operand, and every operand has to be added. -/
theorem decides_xor (hR : Ready ρ s₀ x (fun s => anyMentions s es) dest w)
    (hz : ∀ d, dest = some d → w.circuit.final s₀ d = false) (h : Knows D w)
    (hadd : ∀ {out w}, Ready ρ s₀ x (fun s => anyMentions s es) (some out) w → Knows D w →
      Decides (Knows D) (∀ e ∈ es, e.Compilable D) (addAll es out none w)) :
    Decides (Knows D) ((Expression.xor es).Compilable D) (remember (.xor es) (sumUp es dest none (addAll es)) w) :=
  decides_remember h ((decides_sumUp hadd hR hz h rfl).congr compilable_xor.symm)

/-- One value is added after another. -/
theorem decides_addCons {out : Qubit} {a b : Lowering Unit} (hs : Adds ρ s₀ x (fun s => e.mentions s) (e.eval ρ) out a)
    (hR : Ready ρ s₀ x (fun s => anyMentions s (e :: es)) (some out) w)
    (ha : Ready ρ s₀ x (fun s => e.mentions s) (some out) w → Decides (Knows D) (e.Compilable D) (a w))
    (hb : ∀ {w}, Ready ρ s₀ x (fun s => anyMentions s es) (some out) w → Knows D w →
      Decides (Knows D) (∀ d ∈ es, d.Compilable D) (b w)) :
    Decides (Knows D) (∀ d ∈ e :: es, d.Compilable D) ((do a; b : Lowering Unit) w) := by
  have hRe : Ready ρ s₀ x (fun s => e.mentions s) (some out) w := hR.mono fun s hs => by simp [anyMentions, hs]
  have hRes : Ready ρ s₀ x (fun s => anyMentions s es) (some out) w := hR.mono fun s hs => by simp [anyMentions, hs]
  rw [List.forall_mem_cons]
  refine (ha hRe).bind fun _ w₁ hrun _ h => ?_
  obtain ⟨E, hF, -⟩ := hs hRe hrun
  exact hb (hRe.after hRes hF (by simp)) h

/-! ## Expressions -/

mutual

/-- Lowering succeeds exactly if the expression is well formed and its symbols have qubits. -/
theorem decides_lower : ∀ {e : Expression}, e.isBoolean = true → e.isCountable = true → ∀ (dest : Option Qubit) {w : Workspace},
    Ready ρ s₀ x (fun s => e.mentions s) dest w → (∀ d, dest = some d → w.circuit.final s₀ d = false) → Knows D w →
    Decides (Knows D) (e.Compilable D) (lower e dest none w)
  | .const v, _, _, _, _, hR, _, h =>
    decides_reuse h ((decides_const hR h v).congr (iff_of_true trivial (compilable_const v)))
  | .ref _, _, _, _, _, hR, _, h => decides_reuse h ((decides_ref hR h).congr compilable_ref.symm)
  | .not e, hb, hc, _, _, hR, hz, h => by
    have hop := decides_lower (e := e) hb hc none hR.withoutOut (by simp) h
    exact decides_remember h ((decides_negate (lower_spec (e := e) hb none) hR hz h hop).congr compilable_not.symm)
  | .and es, hb, hc, _, _, hR, hz, h => by
    obtain ⟨hlen, hc⟩ : es.length + 1 < Nat.pow 2 64 ∧ allCountable es = true := by
      simpa [Expression.isCountable] using hc
    exact decides_and hb hlen hR hz h (decides_lowerAll (l := es) hb hc hR.withoutOut h [])
  | .or es, hb, hc, _, _, hR, hz, h => by
    have hops := decides_lowerPair (l := es) hb hc hR.withoutOut h
    exact decides_remember h ((decides_disjoin (lowerPair_spec (l := es) hb) hR hz hops).congr compilable_or.symm)
  | .xor es, hb, hc, _, _, hR, hz, h => decides_xor hR hz h fun hR h => decides_addAll (l := es) hb hc none hR h
  | .blackBox _ _, hb, _, _, _, _, _, _ => nomatch hb

/-- Lowering several expressions succeeds exactly if each can be lowered. -/
theorem decides_lowerAll : ∀ {l : List Expression}, allBoolean l = true → allCountable l = true → ∀ {w : Workspace},
    Ready ρ s₀ x (fun s => anyMentions s l) none w → Knows D w → ∀ found : List Qubit,
    Decides (Knows D) (∀ e ∈ l, e.Compilable D) (lowerAll l found w)
  | [], _, _, _, _, h, found => (Decides.pure h found).congr (by simp)
  | e :: es, hb, hc, w, hR, h, found => by
    obtain ⟨hb, hbs⟩ : e.isBoolean = true ∧ allBoolean es = true := by simpa [allBoolean] using hb
    obtain ⟨hc, hcs⟩ : e.isCountable = true ∧ allCountable es = true := by simpa [allCountable] using hc
    have hRe : Ready ρ s₀ x (fun s => e.mentions s) none w := hR.mono fun s hs => by simp [anyMentions, hs]
    have hRes : Ready ρ s₀ x (fun s => anyMentions s es) none w := hR.mono fun s hs => by simp [anyMentions, hs]
    rw [List.forall_mem_cons]
    refine (decides_lower (e := e) hb hc none hRe (by simp) h).bind fun q w₁ hrun _ h => ?_
    obtain ⟨E, hL⟩ := lower_spec hb none hRe (by simp) hrun
    exact decides_lowerAll (l := es) hbs hcs (hRe.after hRes hL.fetched (by simp)) h _

/-- Lowering two expressions succeeds exactly if there are two and each can be lowered. -/
theorem decides_lowerPair : ∀ {l : List Expression}, allBoolean l = true → allCountable l = true → ∀ {w : Workspace},
    Ready ρ s₀ x (fun s => anyMentions s l) none w → Knows D w →
    Decides (Knows D) (l.length = 2 ∧ ∀ e ∈ l, e.Compilable D) (lowerPair l w)
  | [a, b], hb, hc, w, hR, h => by
    obtain ⟨hab, hbb⟩ : a.isBoolean = true ∧ b.isBoolean = true := by simpa [allBoolean] using hb
    obtain ⟨hac, hbc⟩ : a.isCountable = true ∧ b.isCountable = true := by simpa [allCountable] using hc
    have hRa : Ready ρ s₀ x (fun s => a.mentions s) none w := hR.mono fun s hs => by simp [anyMentions, hs]
    have hRb : Ready ρ s₀ x (fun s => b.mentions s) none w := hR.mono fun s hs => by simp [anyMentions, hs]
    refine Decides.congr (P := a.Compilable D ∧ b.Compilable D) ?_ (by simp)
    refine (decides_lower (e := a) hab hac none hRa (by simp) h).bind fun q w₁ hrun _ h => ?_
    obtain ⟨E, hL⟩ := lower_spec hab none hRa (by simp) hrun
    have hrest := decides_lower (e := b) hbb hbc none (hRa.after hRb hL.fetched (by simp)) (by simp) h
    exact hrest.bind_total fun _ _ _ _ h => .pure h _
  | [], _, _, _, _, _ | [_], _, _, _, _, _ | _ :: _ :: _ :: _, _, _, _, _, _ => .throw (by simp) (by simp)

/-- Adding a value succeeds exactly if the expression is well formed and its symbols have qubits. -/
theorem decides_addTo : ∀ {e : Expression}, e.isBoolean = true → e.isCountable = true → ∀ {out : Qubit} {w : Workspace},
    Ready ρ s₀ x (fun s => e.mentions s) (some out) w → Knows D w → Decides (Knows D) (e.Compilable D) (addTo e out w)
  | .const v, _, _, out, w, hR, h => by
    refine Decides.congr (P := True) ?_ (iff_of_true trivial (compilable_const v))
    have hO := Onto.of_added hR (.refl hR.sound _ (some out))
    cases v with
    | false => exact .pure h ()
    | true => exact hO.decides_x h
  | .ref s, _, _, _, _, hR, h => decides_addValue (lowers_reuse (lowers_ref s)) hR
    (decides_reuse h ((decides_ref hR.withoutOut h).congr compilable_ref.symm))
  | .not e, hb, hc, _, _, hR, h => by
    have hadd := decides_addTo (e := e) hb hc hR h
    exact (decides_addNot (addTo_spec (e := e) hb _) hR hadd).congr compilable_not.symm
  | .and es, hb, hc, _, _, hR, h => by
    obtain ⟨hlen, hc⟩ : es.length + 1 < Nat.pow 2 64 ∧ allCountable es = true := by
      simpa [Expression.isCountable] using hc
    have hs : LowersAll ρ s₀ x _ _ (atLeastOne .and es (lowerAll es [])) := lowersAll_operands hb .and
    have hops := decides_lowerAll (l := es) hb hc hR.withoutOut h []
    have hvalue := decides_and hb hlen hR.withoutOut (by simp) h hops
    refine decides_held (decides_addValue (lowers_remember (lowers_conjoin hs)) hR hvalue) ?_
    refine decides_addConjunction hs (fun _ _ => atLeastOne_lowerAll_nodup hlen) hR ?_
    exact (decides_atLeastOne hops).congr compilable_and.symm
  | .or es, hb, hc, _, _, hR, h => by
    have hs : LowersPair ρ s₀ x _ _ (lowerPair es) := lowerPair_spec hb
    have hops := (decides_lowerPair (l := es) hb hc hR.withoutOut h).congr compilable_or.symm
    have hvalue := decides_remember h (decides_disjoin hs hR.withoutOut (by simp) hops)
    exact decides_held (decides_addValue (lowers_remember (lowers_disjoin hs)) hR hvalue) (decides_addDisjunction hs hR hops)
  | .xor es, hb, hc, _, _, hR, h => by
    have hvalue := decides_xor hR.withoutOut (by simp) h fun hR h => decides_addAll (l := es) hb hc none hR h
    exact decides_addValue (lowers_remember (lowers_sumUp fun out => addAll_spec (l := es) hb out none)) hR hvalue
  | .blackBox _ _, hb, _, _, _, _, _ => nomatch hb

/-- Adding values succeeds exactly if each can be added, but for the one that is skipped. -/
theorem decides_addAll : ∀ {l : List Expression}, allBoolean l = true → allCountable l = true →
    ∀ (skip : Option Nat) {out : Qubit} {w : Workspace},
    Ready ρ s₀ x (fun s => anyMentions s (skipped l skip)) (some out) w → Knows D w →
    Decides (Knows D) (∀ e ∈ skipped l skip, e.Compilable D) (addAll l out skip w)
  | [], _, _, skip, _, _, _, h => (Decides.pure h ()).congr (by cases skip <;> simp [skipped])
  | e :: es, hb, hc, some 0, _, _, hR, h => by
    obtain ⟨-, hbs⟩ : e.isBoolean = true ∧ allBoolean es = true := by simpa [allBoolean] using hb
    obtain ⟨-, hcs⟩ : e.isCountable = true ∧ allCountable es = true := by simpa [allCountable] using hc
    exact decides_addAll (l := es) hbs hcs none hR h
  | e :: es, hb, hc, none, out, w, hR, h => by
    obtain ⟨hb, hbs⟩ : e.isBoolean = true ∧ allBoolean es = true := by simpa [allBoolean] using hb
    obtain ⟨hc, hcs⟩ : e.isCountable = true ∧ allCountable es = true := by simpa [allCountable] using hc
    exact decides_addCons (addTo_spec hb out) hR (fun hR => decides_addTo (e := e) hb hc hR h)
      (fun hR h => decides_addAll (l := es) hbs hcs none hR h)
  | e :: es, hb, hc, some (i + 1), out, w, hR, h => by
    obtain ⟨hb, hbs⟩ : e.isBoolean = true ∧ allBoolean es = true := by simpa [allBoolean] using hb
    obtain ⟨hc, hcs⟩ : e.isCountable = true ∧ allCountable es = true := by simpa [allCountable] using hc
    exact decides_addCons (addTo_spec hb out) hR (fun hR => decides_addTo (e := e) hb hc hR h)
      (fun hR h => decides_addAll (l := es) hbs hcs (some i) hR h)

end

/-! ## The value of an assignment -/

/-- An exclusive or that is added up on the target's own qubit is decided by the other operands. -/
theorem decides_sumInPlace {t : Symbol} {pos : Nat} (hb : allBoolean es = true) (hc : allCountable es = true)
    (hs : Sound ρ s₀ none w) (h : Knows D w) (hpos : es[pos]? = some (.ref t)) (hq : w.env.get? t = some q)
    (hm : anyMentions t (es.eraseIdx pos) = false) (ho : w.canOverwrite t q = true) :
    Decides (Knows D) (es ≠ [] ∧ ∀ e ∈ es, e.Compilable D)
      ((do forget q; addAll es q (some pos); return q : Lowering Qubit) w) := by
  have hR := ready_overwrite (S := fun s => anyMentions s (skipped es (some pos))) hs hq ho hm
  refine Decides.congr (P := ∀ e ∈ es.eraseIdx pos, e.Compilable D) ?_ ?_
  · refine (decides_forget h q).total_bind fun _ w₁ hf h => ?_
    obtain rfl := forget_eq_ok hf
    exact (decides_addAll hb hc (some pos) hR h).bind_total fun _ _ _ _ h => .pure h q
  · obtain ⟨hlt, hget⟩ := List.getElem?_eq_some_iff.1 hpos
    have ht : (Expression.ref t).Compilable D := compilable_ref.2 ((h.env t).1 (by rw [hq]; rfl))
    have hmem : ∀ e, e ∈ es ↔ e = .ref t ∨ e ∈ es.eraseIdx pos := fun e => by
      rw [← (List.getElem_cons_eraseIdx_perm hlt).mem_iff, hget, List.mem_cons]
    refine ⟨fun hrest => ⟨List.ne_nil_of_mem (List.mem_of_getElem? hpos), fun e he => ?_⟩,
      fun hall e he => hall.2 e ((hmem e).2 (Or.inr he))⟩
    rcases (hmem e).1 he with rfl | he
    · exact ht
    · exact hrest e he

/-- The expression of an assignment is lowered exactly if it is well formed and its symbols have qubits. -/
theorem decides_root {t : Symbol} (hb : e.isBoolean = true) (hc : e.isCountable = true)
    (hR : Ready ρ s₀ none (fun s => e.mentions s) dest w) (hz : ∀ d, dest = some d → w.circuit.final s₀ d = false)
    (h : Knows D w) : Decides (Knows D) (e.Compilable D) (lower e dest (some t) w) := by
  cases e with
  | const v => exact decides_lower hb hc dest hR hz h
  | and es => exact decides_lower hb hc dest hR hz h
  | or es => exact decides_lower hb hc dest hR hz h
  | blackBox tag es => cases hb
  | ref s => exact decides_reuse h ((decides_ref hR h).congr compilable_ref.symm)
  | not e =>
    have hop := decides_lower (e := e) hb hc none hR.withoutOut (by simp) h
    exact decides_remember h ((decides_negate (lower_spec (e := e) hb none) hR hz h hop).congr compilable_not.symm)
  | xor es =>
    refine decides_remember h (Decides.congr ?_ compilable_xor.symm)
    cases hin : w.sumInPlace? es dest (some t) with
    | none => exact decides_sumUp (fun hR h => decides_addAll (l := es) hb hc none hR h) hR hz h hin
    | some r =>
      obtain ⟨pos, q⟩ := r
      obtain ⟨rfl, s, hst, hpos, hq, hm, ho⟩ := sumInPlace?_eq_some hin
      cases hst
      have hne : es.isEmpty = false := by
        cases es with
        | nil => simp at hpos
        | cons => rfl
      unfold sumUp
      rw [hne, if_neg (by simp)]
      dsimp only
      rw [Lowering.get_bind, hin]
      exact decides_sumInPlace hb hc hR.sound h hpos hq hm ho

end Workspace

end ReversibleLogic
