import ReversibleLogic.Proofs.Simplify.NormalForm
import ReversibleLogic.Proofs.Simplify.Sound

/-!
# Affine expressions

An expression of constants, symbols, negations and exclusive ors alone is an affine function of its symbols. Its normal form is
an exclusive or of some symbols, flipped or not, and the function determines both: the flip is the value where no symbol is true,
and a symbol is among the summands exactly if the value changes when it alone becomes true (`Normal.eq_of_value_eq`). So affine
expressions with the same values are simplified to the same expression (`Simplifier.algebraic_eq_iff`).
-/

namespace ReversibleLogic

/-- The valuation in which no symbol is true. -/
def Valuation.zero : Valuation := fun _ => some false

/-- The valuation in which one symbol is true. -/
def Valuation.unit (s : Symbol) : Valuation := fun r => some (r == s)

namespace Expression

variable {ρ : Valuation} {e d : Expression} {es terms : List Expression} {s : Symbol}

/-! ## Affine expressions -/

mutual

/-- Whether the expression is made of constants, symbols, negations and exclusive ors alone. -/
def isAffine : Expression → Bool
  | .const _ | .ref _ => true
  | .not e => e.isAffine
  | .xor es => allAffine es
  | .and _ | .or _ | .blackBox _ _ => false

/-- Whether all expressions of the list are affine. -/
def allAffine : List Expression → Bool
  | [] => true
  | e :: es => e.isAffine && allAffine es

end

theorem allAffine_iff : allAffine es = true ↔ ∀ e ∈ es, e.isAffine = true := by
  induction es with
  | nil => simp [allAffine]
  | cons e es ih => simp [allAffine, ih]

/-- The rules for negations and exclusive ors keep expressions affine. -/
theorem xorPervasive_isAffine : XorPervasive fun e => e.isAffine = true where
  const _ := rfl
  not := Iff.rfl
  of_xor := allAffine_iff.1
  xor _ := allAffine_iff.2

mutual

/-- So does a round. -/
theorem isAffine_round : ∀ {e : Expression}, e.isAffine = true → e.round.isAffine = true
  | .const _, _ | .ref _, _ => rfl
  | .not e, h => xorPervasive_isAffine.negation (isAffine_round (e := e) h)
  | .xor es, h => xorPervasive_isAffine.parity (isAffine_roundAll (l := es) h)
  | .and _, h | .or _, h | .blackBox _ _, h => nomatch h

theorem isAffine_roundAll : ∀ {l : List Expression}, allAffine l = true → ∀ e ∈ roundAll l, e.isAffine = true
  | [], _ => List.forall_mem_nil _
  | e :: es, h => by
    rw [allAffine, Bool.and_eq_true] at h
    exact List.forall_mem_cons.2 ⟨isAffine_round (e := e) h.1, isAffine_roundAll (l := es) h.2⟩

end

mutual

/-- An affine expression has neither disjunctions nor black boxes. -/
theorem plain_of_isAffine : ∀ {e : Expression}, e.isAffine = true → e.isNarrow = true ∧ e.isBoolean = true
  | .const _, _ | .ref _, _ => ⟨rfl, rfl⟩
  | .not e, h => plain_of_isAffine (e := e) h
  | .xor es, h => plain_of_allAffine (l := es) h
  | .and _, h | .or _, h | .blackBox _ _, h => nomatch h

theorem plain_of_allAffine : ∀ {l : List Expression}, allAffine l = true → allNarrow l = true ∧ allBoolean l = true
  | [], _ => ⟨rfl, rfl⟩
  | e :: es, h => by
    rw [allAffine, Bool.and_eq_true] at h
    obtain ⟨hnarrow, hbool⟩ := plain_of_isAffine (e := e) h.1
    obtain ⟨hnarrows, hbools⟩ := plain_of_allAffine (l := es) h.2
    rw [allNarrow, allBoolean, hnarrow, hnarrows, hbool, hbools]
    exact ⟨rfl, rfl⟩

end

/-! ## What the values say about the summands -/

theorem value_ref_zero : (ref s).value .zero = false := rfl

theorem value_ref_unit {r : Symbol} : (ref r).value (.unit s) = (r == s) := rfl

/-- Where all symbols are false, no summand counts. -/
theorem oddly_zero (h : ∀ t ∈ terms, ∃ r, t = .ref r) : oddly .zero terms = false := by
  induction terms with
  | nil => rfl
  | cons t rest ih =>
    obtain ⟨r, rfl⟩ := h t List.mem_cons_self
    rw [oddly_cons, value_ref_zero, ih fun d hd => h d (List.mem_cons_of_mem _ hd)]
    rfl

/-- If one symbol is true, the count is odd exactly if the symbol is there. -/
theorem oddly_unit (h : ∀ t ∈ terms, ∃ r, t = .ref r) (hnodup : terms.Nodup) :
    oddly (.unit s) terms = decide (.ref s ∈ terms) := by
  induction terms with
  | nil => rfl
  | cons t rest ih =>
    obtain ⟨r, rfl⟩ := h t List.mem_cons_self
    obtain ⟨hr, hrest⟩ := List.nodup_cons.1 hnodup
    rw [oddly_cons, value_ref_unit, ih (fun d hd => h d (List.mem_cons_of_mem _ hd)) hrest]
    by_cases hs : r = s
    · subst hs
      simp [hr]
    · rw [beq_false_of_ne hs]
      simp [Ne.symm hs]

/-- The summands of an affine normal form are symbols. -/
theorem Normal.exists_ref (h : Normal e) (ha : e.isAffine = true) : ∀ d ∈ e.summands, ∃ r, d = .ref r := by
  intro d hd
  have hsum := (h.as_sum.2.2 d hd).1
  have haffine := xorPervasive_isAffine.of_mem_summands ha d hd
  cases d with
  | ref r => exact ⟨r, rfl⟩
  | const value | not e | xor es => cases hsum
  | and es | or es | blackBox tag es => cases haffine

/-- A normal form has no summand twice. -/
theorem Normal.nodup_summands (h : Normal e) : e.summands.Nodup := h.as_sum.2.1.nodup

/-- Where all symbols have values, an expression without black boxes has the value of its summands, flipped or not. -/
theorem value_eq_oddly (hb : e.isBoolean = true) (hρ : ∀ s, (ρ s).isSome = true) :
    e.value ρ = (oddly ρ e.summands ^^ e.flips) := by
  obtain ⟨v, hv⟩ := exists_eval hb fun s _ => hρ s
  exact (oddly_summands (hasValue_of_eval hv)).2.symm

/-- Affine normal forms that have the same value in every valuation of all symbols are equal. -/
theorem Normal.eq_of_value_eq (he : Normal e) (hd : Normal d) (hea : e.isAffine = true) (hda : d.isAffine = true)
    (h : ∀ ρ : Valuation, (∀ s, (ρ s).isSome = true) → e.value ρ = d.value ρ) : e = d := by
  have hsum : ∀ ρ : Valuation, (∀ s, (ρ s).isSome = true) →
      (oddly ρ e.summands ^^ e.flips) = (oddly ρ d.summands ^^ d.flips) := fun ρ hρ => by
    rw [← value_eq_oddly (plain_of_isAffine hea).2 hρ, ← value_eq_oddly (plain_of_isAffine hda).2 hρ, h ρ hρ]
  have hflips : e.flips = d.flips := by
    have hzero := hsum .zero fun _ => rfl
    rwa [oddly_zero (he.exists_ref hea), oddly_zero (hd.exists_ref hda), Bool.false_xor, Bool.false_xor] at hzero
  have href : ∀ s, .ref s ∈ e.summands ↔ .ref s ∈ d.summands := fun s => by
    have hunit := hsum (.unit s) fun _ => rfl
    rw [oddly_unit (he.exists_ref hea) he.nodup_summands, oddly_unit (hd.exists_ref hda) hd.nodup_summands, hflips,
      Bool.xor_left_inj] at hunit
    exact decide_eq_decide.1 hunit
  have hmem : ∀ t, t ∈ e.summands ↔ t ∈ d.summands := by
    intro t
    constructor
    · intro ht
      obtain ⟨s, rfl⟩ := he.exists_ref hea t ht
      exact (href s).1 ht
    · intro ht
      obtain ⟨s, rfl⟩ := hd.exists_ref hda t ht
      exact (href s).2 ht
  have hsummands : e.summands = d.summands := Sorted.eq_of_mem_iff he.as_sum.2.1 hd.as_sum.2.1 hmem
  calc e = ofSummands e.summands e.flips := he.as_sum.1
    _ = ofSummands d.summands d.flips := by rw [hsummands, hflips]
    _ = d := hd.as_sum.1.symm

end Expression

namespace Simplifier

/-- Two affine expressions have the same value in every valuation of their symbols exactly if they are simplified to the same
expression, whatever the limit on the rounds. -/
theorem algebraic_eq_iff (maxRounds : Nat) {e₁ e₂ : Expression} (h₁ : e₁.isAffine = true) (h₂ : e₂.isAffine = true) :
    (∀ ρ : Valuation, (∀ s ∈ e₁.symbols, (ρ s).isSome = true) → (∀ s ∈ e₂.symbols, (ρ s).isSome = true) →
        ∃ b, e₁.eval ρ = .ok b ∧ e₂.eval ρ = .ok b) ↔
      (algebraic maxRounds).simplify e₁ = (algebraic maxRounds).simplify e₂ := by
  obtain ⟨hnarrow₁, hbool₁⟩ := Expression.plain_of_isAffine h₁
  obtain ⟨hnarrow₂, hbool₂⟩ := Expression.plain_of_isAffine h₂
  rw [algebraic_of_isNarrow hnarrow₁, algebraic_of_isNarrow hnarrow₂]
  constructor
  · intro h
    refine (Expression.normal_round hnarrow₁).eq_of_value_eq (Expression.normal_round hnarrow₂)
      (Expression.isAffine_round h₁) (Expression.isAffine_round h₂) fun ρ hρ => ?_
    obtain ⟨b, hb₁, hb₂⟩ := h ρ (fun s _ => hρ s) fun s _ => hρ s
    rw [Expression.value_of_eval (Expression.eval_round hb₁), Expression.value_of_eval (Expression.eval_round hb₂)]
  · intro h ρ hρ₁ hρ₂
    obtain ⟨b₁, hb₁⟩ := Expression.exists_eval hbool₁ fun s hs => hρ₁ s (Expression.mem_symbols.2 hs)
    obtain ⟨b₂, hb₂⟩ := Expression.exists_eval hbool₂ fun s hs => hρ₂ s (Expression.mem_symbols.2 hs)
    have hround := Expression.eval_round hb₁
    rw [h, Expression.eval_round hb₂] at hround
    exact ⟨b₁, hb₁, hround ▸ hb₂⟩

/-- An exclusive or with a nested and negated one, in which one symbol occurs twice, is the other symbol. Its negation is not, and
some valuation of both symbols tells the two apart. -/
theorem algebraic_eq_iff_swapped :
    let e := Expression.xor [.ref "a", .not (.xor [.ref "b", .xor [], .ref "a"]), .const true]
    let d := Expression.ref "b"
    e.isAffine = true ∧ d.isAffine = true ∧ (algebraic 1).simplify e = (algebraic 1).simplify d ∧
      (∀ ρ : Valuation, (ρ "a").isSome = true → (ρ "b").isSome = true → ∃ b, e.eval ρ = .ok b ∧ d.eval ρ = .ok b) ∧
      ¬ ∀ ρ : Valuation, (∀ s ∈ (Expression.not e).symbols, (ρ s).isSome = true) → (∀ s ∈ d.symbols, (ρ s).isSome = true) →
        ∃ b, (Expression.not e).eval ρ = .ok b ∧ d.eval ρ = .ok b := by
  intro e d
  have hsame : (algebraic 1).simplify e = (algebraic 1).simplify d := by decide +kernel
  have hother : (algebraic 1).simplify (.not e) ≠ (algebraic 1).simplify d := by decide +kernel
  refine ⟨by decide +kernel, by decide +kernel, hsame, fun ρ ha hb => ?_, ?_⟩
  · refine (algebraic_eq_iff 1 (by decide +kernel) (by decide +kernel)).2 hsame ρ (fun s hs => ?_) fun s hs => ?_
    · have hs : s ∈ ["a", "b"] := hs
      simp only [List.mem_cons, List.not_mem_nil, or_false] at hs
      rcases hs with rfl | rfl
      · exact ha
      · exact hb
    · exact List.mem_singleton.1 hs ▸ hb
  · exact fun h => hother ((algebraic_eq_iff 1 (by decide +kernel) (by decide +kernel)).1 h)

end Simplifier

end ReversibleLogic
