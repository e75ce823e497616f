import ReversibleLogic.Proofs.Lowering.Operators

/-!
# Lowering is correct

By induction over the expression: what `lower` leaves on a qubit, and what `addTo` adds to one, is the value that evaluation gives.
The induction is mutual with the lists of operands, and each connective is one use of its operator's lemma.
-/

namespace ReversibleLogic

namespace Workspace

open Expression (anyMentions evalFold allBoolean)

variable {ρ : Valuation} {s₀ : Bits} {x dest : Option Qubit} {S T : Symbol → Bool} {r : Except EvalError Bool}
  {w w' w₁ w₂ : Workspace} {q out : Qubit} {e : Expression} {es : List Expression}

/-! ## Lists of operands -/

/-- What `lowerAll` does beside the qubits `found` that it is given: the values of further operands are on these qubits or on the
qubits `more`. A single qubit at the end has been found by a single operation at most. -/
structure LoweredAll (ρ : Valuation) (s₀ : Bits) (x : Option Qubit) (es : List Expression) (found : List Qubit) (w : Workspace)
    (qs : List Qubit) (w' : Workspace) (more : List Qubit) (E : List LogEntry) : Prop where
  all : qs = found ++ more
  fetched : Fetched ρ s₀ x (fun s => anyMentions s es) none w more w' E
  value : ∃ v, evalFold ρ (· && ·) true es = .ok v ∧
    qs.all (w'.circuit.final s₀) = (found.all (w'.circuit.final s₀) && v)
  silent : ∀ q, qs = [q] → found = [q] → E = []
  placed : ∀ q, qs = [q] → found = [] → Placed none w q E

/-- Nothing is left to lower. -/
theorem LoweredAll.nil (hs : Sound ρ s₀ x w) (found : List Qubit) : LoweredAll ρ s₀ x [] found w found w [] [] := by
  refine ⟨by simp, .refl hs _ none, ⟨true, rfl, by simp⟩, fun _ _ _ => rfl, fun q hq hn => ?_⟩
  simp [hq] at hn

/-- A known or already listed value has been lowered without an operation. -/
theorem Placed.silent {E : List LogEntry} (h : Placed none w q E) (hu : w.InUse q) : E = [] := by
  cases h with
  | known hE => exact hE
  | taken _ hn => exact absurd hu hn
  | delivered hd => cases hd

/-- One operand is lowered before the others. -/
theorem LoweredAll.cons {found qs more : List Qubit} {E₁ E₂ : List LogEntry}
    (hfound : ∀ p ∈ found, w.InUse p) (h₁ : Lowered ρ s₀ x (fun s => e.mentions s) (e.eval ρ) none w q w₁ E₁)
    (h₂ : LoweredAll ρ s₀ x es (if q ∈ found then found else found ++ [q]) w₁ qs w₂ more E₂) :
    LoweredAll ρ s₀ x (e :: es) found w qs w₂ ((if q ∈ found then [] else [q]) ++ more) (E₁ ++ E₂) := by
  have hgrow := h₂.fetched.grows
  have hkeep : ∀ p, w₁.InUse p → w₂.circuit.final s₀ p = w₁.circuit.final s₀ p := fun p hp =>
    hgrow.final_of_inUse hp (by simp) s₀
  have hq₁ : w₁.InUse q := h₁.fetched.inUse q (by simp)
  have hval : e.eval ρ = .ok (w₂.circuit.final s₀ q) := by rw [hkeep q hq₁]; exact h₁.value
  obtain ⟨u, hu, hall⟩ := h₂.value
  -- a value found before lists no new qubit, and the step that found it has listed none
  have hF₁ : Fetched ρ s₀ x (fun s => e.mentions s) none w (if q ∈ found then [] else [q]) w₁ E₁ := by
    split
    · next hmem =>
      have hF := h₁.fetched
      have hq : w.InUse q := hfound q hmem
      refine ⟨hF.grows, hF.sound, by simp, fun p hp => ?_, hF.unread, by simp, fun p hp _ => ?_⟩
      · rcases hF.loose p hp with h | h | h
        · exact Or.inl h
        · rw [List.mem_singleton.1 h] at hp ⊢
          exact Or.inl (hF.grows.loose hq hp)
        · exact Or.inr (Or.inr h)
      · exact hF.unnoted p hp (hF.notResult p hp (by simp))
    · exact h₁.fetched
  refine ⟨?_, (hF₁.trans h₂.fetched (by simp)).mono fun s hs => hs, ?_, ?_, ?_⟩
  · rw [h₂.all]
    split <;> simp
  · refine ⟨_, Expression.evalFold_and_cons hval hu, ?_⟩
    rw [hall]
    split
    · next hmem =>
      cases hf : found.all (w₂.circuit.final s₀) with
      | false => rfl
      | true => rw [List.all_eq_true.1 hf q hmem]; rfl
    · simp [Bool.and_assoc]
  · intro p hp hf
    have hmem : q ∈ found := by
      by_contra hn
      rw [hp, if_neg hn, hf] at h₂
      simpa using h₂.all
    rw [if_pos hmem] at h₂
    rw [h₂.silent p hp hf, List.append_nil]
    exact h₁.placed.silent (hfound q hmem)
  · intro p hp hf
    subst hf
    simp only [List.not_mem_nil, if_false, List.nil_append] at h₂
    have hpq : q = p := by
      have := h₂.all
      rw [hp] at this
      simpa using (List.cons.inj this).1.symm
    subst hpq
    rw [h₂.silent q hp rfl, List.append_nil]
    exact h₁.placed

/-- With nothing found before, the listed qubits carry the conjunction of the operands. -/
theorem LowersAll.of_loweredAll (h : ∀ ⦃qs : List Qubit⦄ ⦃w w' : Workspace⦄, Ready ρ s₀ x (fun s => anyMentions s es) none w →
      lowerAll es [] w = .ok (qs, w') → ∃ more E, LoweredAll ρ s₀ x es [] w qs w' more E) :
    LowersAll ρ s₀ x (fun s => anyMentions s es) (evalFold ρ (· && ·) true es) (lowerAll es []) := by
  intro w qs w' hR hrun
  obtain ⟨more, E, hall, hF, ⟨v, hv, hval⟩, -, hone⟩ := h hR hrun
  obtain rfl : qs = more := hall
  refine ⟨E, hF, ?_, fun q hq => hone q hq rfl⟩
  rw [hval, hv, List.all_nil, Bool.true_and]

/-- Operands are lowered where there are any. -/
theorem lowersAll_atLeastOne {op : Operator} {m : Lowering (List Qubit)} (h : LowersAll ρ s₀ x S r m) :
    LowersAll ρ s₀ x S r (atLeastOne op es m) := by
  intro w qs w' hR hrun
  unfold atLeastOne at hrun
  split at hrun
  · exact (Lowering.throw_eq_ok.1 hrun).elim
  · exact h hR hrun

/-- Two operands are lowered one after the other. -/
theorem lowersPair_pair {a b : Expression} (ha : Lowers ρ s₀ x (fun s => a.mentions s) (a.eval ρ) none (lower a none none))
    (hb : Lowers ρ s₀ x (fun s => b.mentions s) (b.eval ρ) none (lower b none none)) :
    LowersPair ρ s₀ x (fun s => anyMentions s [a, b]) (evalFold ρ (· || ·) false [a, b]) (lowerPair [a, b]) := by
  intro w p w' hR hrun
  obtain ⟨l, w₁, hl, hrest⟩ := Lowering.bind_eq_ok.1 hrun
  obtain ⟨r, w₂, hr, hret⟩ := Lowering.bind_eq_ok.1 hrest
  obtain ⟨rfl, rfl⟩ := Lowering.pure_eq_ok.1 hret
  have hRa : Ready ρ s₀ x (fun s => a.mentions s) none w := hR.mono fun s hs => by simp [anyMentions, hs]
  have hRb : Ready ρ s₀ x (fun s => b.mentions s) none w := hR.mono fun s hs => by simp [anyMentions, hs]
  obtain ⟨E₁, hF₁, hv₁, hp₁⟩ := ha hRa (by simp) hl
  obtain ⟨E₂, hF₂, hv₂, hp₂⟩ := hb (hRa.after hRb hF₁ (by simp)) (by simp) hr
  have hlu : w₁.InUse l := hF₁.inUse l (by simp)
  refine ⟨E₁ ++ E₂, (hF₁.trans hF₂ (by simp)).mono fun s hs => ?_, ?_, ?_⟩
  · simpa [anyMentions] using hs
  · rw [evalFold, hv₁, ← hF₂.grows.final_of_inUse hlu (by simp)]
    change evalFold ρ (· || ·) (false || _) [b] = _
    rw [evalFold, hv₂]
    rfl
  · intro hlr
    obtain rfl : l = r := hlr
    rw [hp₂.silent hlu, List.append_nil]
    exact hp₁

/-- A value that may be held somewhere is added from there or made anew. -/
theorem adds_held {a b : Lowering Unit} (ha : Adds ρ s₀ x S r out a) (hb : Adds ρ s₀ x S r out b) :
    Adds ρ s₀ x S r out (do if ← isHeld e then a else b) := by
  intro w u w' hR hrun
  obtain ⟨held, w₁, hh, hrest⟩ := Lowering.bind_eq_ok.1 hrun
  obtain ⟨-, rfl⟩ := Lowering.pure_eq_ok.1 hh
  split at hrest
  · exact ha hR hrest
  · exact hb hR hrest

theorem adds_nil : Adds ρ s₀ x (fun s => anyMentions s []) (evalFold ρ (· ^^ ·) false []) out (pure ()) := by
  intro w u w' hR hrun
  obtain ⟨-, rfl⟩ := Lowering.pure_eq_ok.1 hrun
  exact ⟨[], .refl hR.sound _ _, false, rfl, by simp⟩

/-- One value is added after another. -/
theorem adds_cons {l : List Expression} {a b : Lowering Unit}
    (ha : Adds ρ s₀ x (fun s => e.mentions s) (e.eval ρ) out a)
    (hb : Adds ρ s₀ x (fun s => anyMentions s l) (evalFold ρ (· ^^ ·) false l) out b) :
    Adds ρ s₀ x (fun s => anyMentions s (e :: l)) (evalFold ρ (· ^^ ·) false (e :: l)) out (do a; b) := by
  intro w u w' hR hrun
  obtain ⟨_, w₁, hra, hrb⟩ := Lowering.bind_eq_ok.1 hrun
  have hRa : Ready ρ s₀ x (fun s => e.mentions s) (some out) w := hR.mono fun s hs => by simp [anyMentions, hs]
  have hRb : Ready ρ s₀ x (fun s => anyMentions s l) (some out) w := hR.mono fun s hs => by simp [anyMentions, hs]
  obtain ⟨E₁, hF₁, v, hv, hval⟩ := ha hRa hra
  obtain ⟨E₂, hF₂, u, hu, hval'⟩ := hb (hRa.after hRb hF₁ (by simp)) hrb
  refine ⟨E₁ ++ E₂, (hF₁.trans hF₂ (by simp)).mono fun s hs => hs, _, Expression.evalFold_xor_cons hv hu, ?_⟩
  rw [hval', hval, Bool.xor_assoc]

/-- The operands without the one at a position. -/
def skipped (es : List Expression) : Option Nat → List Expression
  | none => es
  | some i => es.eraseIdx i

/-! ## Expressions -/

mutual

/-- Lowering leaves the value of the expression on the qubit that it names. -/
theorem lower_spec : ∀ {e : Expression}, e.isBoolean = true → ∀ dest,
    Lowers ρ s₀ x (fun s => e.mentions s) (e.eval ρ) dest (lower e dest none)
  | .const v, _, dest => lowers_reuse (lowers_const v)
  | .ref s, _, dest => lowers_reuse (lowers_ref s)
  | .not e, h, dest => lowers_remember (lowers_negate (lower_spec (e := e) h none))
  | .and es, h, dest => lowers_remember (lowers_conjoin (lowersAll_atLeastOne (LowersAll.of_loweredAll fun _ _ _ hR hrun =>
    lowerAll_spec (l := es) h hR (by simp) hrun)))
  | .or es, h, dest => lowers_remember (lowers_disjoin (lowerPair_spec (l := es) h))
  | .xor es, h, dest => lowers_remember (lowers_sumUp fun out => addAll_spec (l := es) h out none)
  | .blackBox _ _, h, _ => by simp [Expression.isBoolean] at h

/-- Lowering several expressions leaves their values on the qubits that it lists. -/
theorem lowerAll_spec : ∀ {l : List Expression}, allBoolean l = true → ∀ {found qs : List Qubit} {w w' : Workspace},
    Ready ρ s₀ x (fun s => anyMentions s l) none w → (∀ q ∈ found, w.InUse q) → lowerAll l found w = .ok (qs, w') →
    ∃ more E, LoweredAll ρ s₀ x l found w qs w' more E
  | [], _, found, _, w, _, hR, _, hrun => by
    obtain ⟨rfl, rfl⟩ := Lowering.pure_eq_ok.1 hrun
    exact ⟨[], [], .nil hR.sound _⟩
  | e :: es, h, found, qs, w, w', hR, hfound, hrun => by
    obtain ⟨he, hes⟩ : e.isBoolean = true ∧ allBoolean es = true := by
      simpa [allBoolean] using h
    have hRe : Ready ρ s₀ x (fun s => e.mentions s) none w := hR.mono fun s hs => by simp [anyMentions, hs]
    have hRes : Ready ρ s₀ x (fun s => anyMentions s es) none w := hR.mono fun s hs => by simp [anyMentions, hs]
    obtain ⟨q, w₁, hq, hrest⟩ := Lowering.bind_eq_ok.1 hrun
    obtain ⟨E₁, hL⟩ := lower_spec (e := e) he none hRe (by simp) hq
    have hfound' : ∀ p ∈ (if q ∈ found then found else found ++ [q]), w₁.InUse p := by
      intro p hp
      by_cases hpq : p = q
      · rw [hpq]
        exact hL.fetched.inUse q (by simp)
      · refine hL.fetched.grows.inUse (hfound p ?_)
        split at hp
        · exact hp
        · simpa [hpq] using hp
    obtain ⟨more, E₂, hA⟩ := lowerAll_spec (l := es) hes (hRe.after hRes hL.fetched (by simp)) hfound' hrest
    exact ⟨_, _, .cons hfound hL hA⟩

/-- Lowering two expressions leaves their values on two qubits. -/
theorem lowerPair_spec : ∀ {l : List Expression}, allBoolean l = true →
    LowersPair ρ s₀ x (fun s => anyMentions s l) (evalFold ρ (· || ·) false l) (lowerPair l)
  | [a, b], h => by
    obtain ⟨ha, hb⟩ : a.isBoolean = true ∧ b.isBoolean = true := by simpa [allBoolean] using h
    exact lowersPair_pair (lower_spec (e := a) ha none) (lower_spec (e := b) hb none)
  | [], _ => fun _ _ _ _ hrun => (Lowering.throw_eq_ok.1 hrun).elim
  | [_], _ => fun _ _ _ _ hrun => (Lowering.throw_eq_ok.1 hrun).elim
  | _ :: _ :: _ :: _, _ => fun _ _ _ _ hrun => (Lowering.throw_eq_ok.1 hrun).elim

/-- The value of the expression is added to the qubit. -/
theorem addTo_spec : ∀ {e : Expression}, e.isBoolean = true → ∀ out,
    Adds ρ s₀ x (fun s => e.mentions s) (e.eval ρ) out (addTo e out)
  | .const v, _, out => adds_const v
  | .ref s, _, out => adds_value (lowers_reuse (lowers_ref s))
  | .not e, h, out => adds_not (addTo_spec (e := e) h out)
  | .and es, h, out => by
    have hall := LowersAll.of_loweredAll fun _ _ _ hR hrun => lowerAll_spec (l := es) h hR (by simp) hrun
    exact adds_held (adds_value (lowers_remember (lowers_conjoin (lowersAll_atLeastOne hall))))
      (adds_conjunction (lowersAll_atLeastOne hall))
  | .or es, h, out => by
    have hpair := lowerPair_spec (l := es) h
    exact adds_held (adds_value (lowers_remember (lowers_disjoin hpair))) (adds_disjunction hpair)
  | .xor es, h, out => adds_value (lowers_remember (lowers_sumUp fun out => addAll_spec (l := es) h out none))
  | .blackBox _ _, h, _ => by simp [Expression.isBoolean] at h

/-- The values of the expressions are added to the qubit, but for the one that is skipped. -/
theorem addAll_spec : ∀ {l : List Expression}, allBoolean l = true → ∀ out skip,
    Adds ρ s₀ x (fun s => anyMentions s (skipped l skip)) (evalFold ρ (· ^^ ·) false (skipped l skip)) out
      (addAll l out skip)
  | [], _, out, skip => by
    have hnil : skipped [] skip = [] := by cases skip <;> simp [skipped]
    rw [hnil]
    exact adds_nil
  | e :: es, h, out, some 0 => by
    obtain ⟨-, hes⟩ : e.isBoolean = true ∧ allBoolean es = true := by simpa [allBoolean] using h
    exact addAll_spec (l := es) hes out none
  | e :: es, h, out, none => by
    obtain ⟨he, hes⟩ : e.isBoolean = true ∧ allBoolean es = true := by simpa [allBoolean] using h
    exact adds_cons (addTo_spec (e := e) he out) (addAll_spec (l := es) hes out none)
  | e :: es, h, out, some (i + 1) => by
    obtain ⟨he, hes⟩ : e.isBoolean = true ∧ allBoolean es = true := by simpa [allBoolean] using h
    exact adds_cons (addTo_spec (e := e) he out) (addAll_spec (l := es) hes out (some i))

end

end Workspace

end ReversibleLogic
