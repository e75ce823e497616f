import Mathlib.Data.Nat.Bitwise
import Mathlib.Data.Set.Card
import ReversibleLogic.Optimize
import ReversibleLogic.Proofs.Value

/-!
# What the comparison of expressions decides

The comparison numbers the assignments of the symbols that two expressions mention. Each row gives values to these symbols
(`Valuation.isSome_ofRow`), and each assignment of them is a row (`Valuation.exists_ofRow_eq`). So the comparison accepts
exactly equal expressions, and expressions with few enough symbols that have the same value under every assignment
(`sameFunction_eq_true_iff`). An expression with a black box has no value, so it is accepted only beside itself. Without black
boxes the comparison decides whether two expressions are the same function, up to its bound (`sameFunction_decides`).
-/

namespace ReversibleLogic

variable {ρ : Valuation} {options : Options} {l r : Expression}

/-! ## Rows -/

/-- All of `n` numbers from `start` on. -/
theorem allFrom_eq_true_iff {p : Nat → Bool} {n : Nat} :
    ∀ {start : Nat}, allFrom p start n = true ↔ ∀ i, i < n → p (start + i) = true := by
  induction n with
  | zero => simp [allFrom]
  | succ n ih =>
    intro start
    rw [allFrom, Bool.and_eq_true, ih, Nat.forall_lt_succ_left]
    simp only [Nat.add_zero, Nat.add_right_comm start 1, Nat.add_assoc]

/-- There is a row with any given bits. -/
theorem exists_row (n : Nat) (b : Nat → Bool) : ∃ row, row < 2 ^ n ∧ ∀ i, i < n → row.testBit i = b i :=
  ⟨Nat.ofBits fun i : Fin n => b i, Nat.ofBits_lt_two_pow _, fun i hi => Nat.testBit_ofBits_lt _ i hi⟩

namespace Valuation

/-- Every symbol of the set has a value. -/
def Binds (ρ : Valuation) (S : Set Symbol) : Prop := ∀ s ∈ S, (ρ s).isSome = true

/-- A row gives values to the symbols it is over, and to no others. -/
theorem isSome_ofRow {symbols : List Symbol} {row : Nat} {s : Symbol} :
    (ofRow symbols row s).isSome = true ↔ s ∈ symbols := by
  rw [ofRow, Option.isSome_map, List.isSome_idxOf?]

/-- Any values of the symbols are those of a row. -/
theorem exists_ofRow_eq {symbols : List Symbol} (hρ : ∀ s ∈ symbols, (ρ s).isSome = true) :
    ∃ row, row < Nat.pow 2 symbols.length ∧ ∀ s ∈ symbols, ofRow symbols row s = ρ s := by
  obtain ⟨row, hlt, hrow⟩ := exists_row symbols.length fun i => (symbols[i]?.bind ρ).getD false
  refine ⟨row, hlt, fun s hs => ?_⟩
  obtain ⟨i, hi⟩ := Option.isSome_iff_exists.1 (List.isSome_idxOf?.2 hs)
  obtain ⟨hlen, hget, -⟩ := List.idxOf?_eq_some_iff.1 hi
  obtain ⟨b, hb⟩ := Option.isSome_iff_exists.1 (hρ s hs)
  rw [ofRow, hi, Option.map_some, hrow i hlen, List.getElem?_eq_getElem hlen, hget, Option.bind_some, hb, Option.getD_some]

end Valuation

/-! ## The same function -/

namespace Expression

/-- The symbols that two expressions mention together. -/
def jointSymbols (l r : Expression) : Set Symbol := {s | l.mentions s = true ∨ r.mentions s = true}

/-- Two expressions have the same value whenever all their symbols have values. -/
def Equivalent (l r : Expression) : Prop :=
  ∀ ρ : Valuation, ρ.Binds (l.jointSymbols r) → ∃ v, l.eval ρ = .ok v ∧ r.eval ρ = .ok v

/-- The comparison goes over the symbols that the two expressions mention. -/
theorem mem_addSymbols_symbols {s : Symbol} : s ∈ r.addSymbols l.symbols ↔ s ∈ l.jointSymbols r := by
  rw [mem_addSymbols, mem_symbols]
  rfl

/-- It goes over each of them once. -/
theorem ncard_jointSymbols (l r : Expression) : (l.jointSymbols r).ncard = (r.addSymbols l.symbols).length := by
  have hset : l.jointSymbols r = ↑(r.addSymbols l.symbols).toFinset := by
    ext s
    rw [List.coe_toFinset]
    exact mem_addSymbols_symbols.symm
  rw [hset, Set.ncard_coe_finset, List.toFinset_card_of_nodup]
  exact (ascending_addSymbols (ascending_addSymbols Sorted.ascending_nil)).nodup

/-- An expression without black boxes is the same function as itself. -/
theorem Equivalent.refl {e : Expression} (he : e.isBoolean = true) : e.Equivalent e := by
  intro ρ hρ
  obtain ⟨v, hv⟩ := exists_eval he fun s hs => hρ s (Or.inl hs)
  exact ⟨v, hv, hv⟩

/-- Expressions without black boxes are the same function as soon as they agree. -/
theorem equivalent_of_eval_eq (hl : l.isBoolean = true)
    (h : ∀ ρ : Valuation, ρ.Binds (l.jointSymbols r) → l.eval ρ = r.eval ρ) : l.Equivalent r := by
  intro ρ hρ
  obtain ⟨v, hv⟩ := exists_eval hl fun s hs => hρ s (Or.inl hs)
  exact ⟨v, hv, h ρ hρ ▸ hv⟩

/-- Only the values of the symbols that two expressions mention decide whether they agree. -/
theorem agree_congr {ρ' : Valuation} (h : ∀ s ∈ l.jointSymbols r, ρ s = ρ' s) :
    (∃ v, l.eval ρ = .ok v ∧ r.eval ρ = .ok v) ↔ ∃ v, l.eval ρ' = .ok v ∧ r.eval ρ' = .ok v := by
  rw [eval_congr fun s hs => h s (Or.inl hs), eval_congr (e := r) fun s hs => h s (Or.inr hs)]

end Expression

/-! ## The comparison -/

/-- What it means that two expressions agree on a row. -/
theorem agreeOn_eq_true_iff {symbols : List Symbol} {row : Nat} : agreeOn symbols l r row = true ↔
    ∃ v, l.eval (.ofRow symbols row) = .ok v ∧ r.eval (.ofRow symbols row) = .ok v := by
  rw [agreeOn]
  cases l.eval (.ofRow symbols row) with
  | error _ => simp
  | ok a =>
    cases r.eval (.ofRow symbols row) with
    | error _ => simp
    | ok b =>
      simp only [beq_iff_eq, Except.ok.injEq, exists_eq_left']
      exact eq_comm

/-- All rows agree exactly if the expressions are the same function. -/
theorem allFrom_agreeOn_iff : allFrom (agreeOn (r.addSymbols l.symbols) l r) 0
    (Nat.pow 2 (r.addSymbols l.symbols).length) = true ↔ l.Equivalent r := by
  rw [allFrom_eq_true_iff]
  constructor
  · -- the row of `ρ` differs from it only on symbols that neither expression mentions
    intro h ρ hρ
    obtain ⟨row, hlt, hrow⟩ := Valuation.exists_ofRow_eq fun s hs => hρ s (Expression.mem_addSymbols_symbols.1 hs)
    have hagree := h row hlt
    rw [Nat.zero_add, agreeOn_eq_true_iff] at hagree
    exact (Expression.agree_congr fun s hs => hrow s (Expression.mem_addSymbols_symbols.2 hs)).1 hagree
  · intro h row _
    refine agreeOn_eq_true_iff.2 (h _ fun s hs => ?_)
    exact Valuation.isSome_ofRow.2 (Expression.mem_addSymbols_symbols.2 hs)

/-- The comparison accepts exactly equal expressions, and expressions that are the same function and mention few enough
symbols. -/
theorem sameFunction_eq_true_iff : sameFunction options l r = true ↔
    l = r ∨ (l.jointSymbols r).ncard ≤ min options.maxVerifyInputs maxComparedSymbols ∧ l.Equivalent r := by
  unfold sameFunction
  by_cases heq : l = r
  · rw [if_pos heq]
    exact iff_of_true rfl (Or.inl heq)
  · rw [if_neg heq, Expression.ncard_jointSymbols, ← allFrom_agreeOn_iff]
    dsimp only
    split
    · next hmany => exact iff_of_false Bool.false_ne_true fun h => h.elim heq fun h => Nat.not_le.2 hmany h.1
    · next hfew => simp only [heq, Nat.not_lt.1 hfew, true_and, false_or]

/-- Expressions that pass the comparison have the same value wherever both have one. -/
theorem eq_of_sameFunction {a b : Bool} (h : sameFunction options l r = true) (hl : l.eval ρ = .ok a)
    (hr : r.eval ρ = .ok b) : a = b := by
  rcases sameFunction_eq_true_iff.1 h with rfl | ⟨-, hsame⟩
  · exact Except.ok.inj (hl.symm.trans hr)
  · obtain ⟨v, hlv, hrv⟩ := hsame ρ fun s hs =>
      hs.elim (Expression.isSome_of_eval hl s) (Expression.isSome_of_eval hr s)
    exact (Except.ok.inj (hl.symm.trans hlv)).trans (Except.ok.inj (hrv.symm.trans hr))

/-- The comparison decides whether two expressions without black boxes are the same function, up to its bound. What it accepts
has the same value under every valuation of all the symbols. Expressions that agree under all of these are accepted, if together
they mention no more symbols than the options allow, and no more than 32. -/
theorem sameFunction_decides (hl : l.isBoolean = true) (hr : r.isBoolean = true) :
    (sameFunction options l r = true →
      ∀ ρ : Valuation, ρ.Binds (l.jointSymbols r) → ∃ v, l.eval ρ = .ok v ∧ r.eval ρ = .ok v) ∧
    ((∀ ρ : Valuation, ρ.Binds (l.jointSymbols r) → l.eval ρ = r.eval ρ) →
      (l.jointSymbols r).ncard ≤ min options.maxVerifyInputs 32 → sameFunction options l r = true) := by
  constructor
  · intro h
    rcases sameFunction_eq_true_iff.1 h with rfl | ⟨-, hsame⟩
    · exact Expression.Equivalent.refl hr
    · exact hsame
  · intro h hfew
    exact sameFunction_eq_true_iff.2 (Or.inr ⟨hfew, Expression.equivalent_of_eval_eq hl h⟩)

/-- The majority of three values as the parity of the pairs that are both set. -/
def majorityOfPairs : Expression :=
  .xor [.and [.ref "a", .ref "b"], .and [.ref "b", .ref "c"], .and [.ref "a", .ref "c"]]

/-- The majority of three values as a disjunction. -/
def majorityOfTwo : Expression :=
  .or [.and [.ref "a", .ref "b"], .and [.ref "c", .or [.ref "a", .ref "b"]]]

/-- The parity of three values. -/
def parityOfThree : Expression := .xor [.ref "a", .ref "b", .ref "c"]

/-- The two forms of the majority agree, so they are accepted where three symbols may be compared, and they are not where only
two may. The parity is not accepted in their place, so it differs from the majority somewhere. -/
theorem sameFunction_decides_majority :
    sameFunction { maxVerifyInputs := 3 } majorityOfPairs majorityOfTwo = true ∧
    sameFunction { maxVerifyInputs := 2 } majorityOfPairs majorityOfTwo = false ∧
    majorityOfPairs.Equivalent majorityOfTwo ∧
    ¬ ∀ ρ : Valuation, ρ.Binds (majorityOfPairs.jointSymbols parityOfThree) →
      majorityOfPairs.eval ρ = parityOfThree.eval ρ := by
  have hagree : ∀ ρ : Valuation, ρ.Binds (majorityOfPairs.jointSymbols majorityOfTwo) →
      majorityOfPairs.eval ρ = majorityOfTwo.eval ρ := by
    intro ρ hρ
    obtain ⟨a, ha⟩ := Option.isSome_iff_exists.1 (hρ "a" (Or.inl (by decide)))
    obtain ⟨b, hb⟩ := Option.isSome_iff_exists.1 (hρ "b" (Or.inl (by decide)))
    obtain ⟨c, hc⟩ := Option.isSome_iff_exists.1 (hρ "c" (Or.inl (by decide)))
    simp only [majorityOfPairs, majorityOfTwo, Expression.eval, Expression.evalFold, ha, hb, hc]
    cases a <;> cases b <;> cases c <;> rfl
  have hforms : (majorityOfPairs.jointSymbols majorityOfTwo).ncard = 3 := by
    rw [Expression.ncard_jointSymbols]
    decide +kernel
  have hparity : (majorityOfPairs.jointSymbols parityOfThree).ncard = 3 := by
    rw [Expression.ncard_jointSymbols]
    decide +kernel
  have hpass : sameFunction { maxVerifyInputs := 3 } majorityOfPairs majorityOfTwo = true :=
    (sameFunction_decides (by decide) (by decide)).2 hagree (by rw [hforms]; decide)
  refine ⟨hpass, by decide +kernel, (sameFunction_decides (by decide) (by decide)).1 hpass, fun h => ?_⟩
  have hfail : sameFunction {} majorityOfPairs parityOfThree = false := by decide +kernel
  have hsame : sameFunction {} majorityOfPairs parityOfThree = true :=
    (sameFunction_decides (by decide) (by decide)).2 h (by rw [hparity]; decide)
  exact Bool.false_ne_true (hfail.symm.trans hsame)

end ReversibleLogic
