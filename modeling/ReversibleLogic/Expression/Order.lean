import ReversibleLogic.Expression.Basic

/-!
# The order on expressions

Expressions are compared first by the kind of their root, in the order constant, symbol, negation, conjunction, disjunction,
exclusive or, black box, and then by their contents. Lists of operands compare element by element, and a list stands before
every longer list that starts with it. `cmp_eq_iff` says that only equal expressions compare as equal, so the
comparison also decides equality. The order is linear: `cmp_swap` and `cmp_lt_trans` make it one that ascending lists can be
kept by.
-/

namespace ReversibleLogic.Expression

mutual

/-- The order of two expressions. -/
def cmp : Expression → Expression → Ordering
  | .const a, .const b => compare a b
  | .const _, _ => .lt
  | _, .const _ => .gt
  | .ref a, .ref b => compare a b
  | .ref _, _ => .lt
  | _, .ref _ => .gt
  | .not a, .not b => cmp a b
  | .not _, _ => .lt
  | _, .not _ => .gt
  | .and a, .and b => cmpAll a b
  | .and _, _ => .lt
  | _, .and _ => .gt
  | .or a, .or b => cmpAll a b
  | .or _, _ => .lt
  | _, .or _ => .gt
  | .xor a, .xor b => cmpAll a b
  | .xor _, _ => .lt
  | _, .xor _ => .gt
  | .blackBox s a, .blackBox t b => (compare s t).then (cmpAll a b)

/-- The order of two lists of expressions, element by element and a shorter list first. -/
def cmpAll : List Expression → List Expression → Ordering
  | [], [] => .eq
  | [], _ :: _ => .lt
  | _ :: _, [] => .gt
  | a :: as, b :: bs => (cmp a b).then (cmpAll as bs)

end

instance : Ord Expression := ⟨cmp⟩

mutual

/-- An expression compares as equal only with itself. -/
theorem eq_of_cmp : ∀ {a b : Expression}, cmp a b = .eq → a = b
  | .const a, b, h => by
    cases b <;> simp [cmp] at h ⊢
    exact h
  | .ref a, b, h => by
    cases b <;> simp [cmp] at h ⊢
    exact h
  | .not a, b, h => by
    cases b <;> simp [cmp] at h ⊢
    exact eq_of_cmp h
  | .and a, b, h => by
    cases b <;> simp [cmp] at h ⊢
    exact eq_of_cmpAll h
  | .or a, b, h => by
    cases b <;> simp [cmp] at h ⊢
    exact eq_of_cmpAll h
  | .xor a, b, h => by
    cases b <;> simp [cmp] at h ⊢
    exact eq_of_cmpAll h
  | .blackBox s a, b, h => by
    cases b <;> simp [cmp, Ordering.then_eq_eq] at h ⊢
    exact ⟨h.1, eq_of_cmpAll h.2⟩

theorem eq_of_cmpAll : ∀ {as bs : List Expression}, cmpAll as bs = .eq → as = bs
  | [], bs, h => by cases bs <;> simp [cmpAll] at h ⊢
  | a :: as, bs, h => by
    cases bs <;> simp [cmpAll, Ordering.then_eq_eq] at h ⊢
    exact ⟨eq_of_cmp h.1, eq_of_cmpAll h.2⟩

end

mutual

/-- An expression is equal to itself in the order. -/
theorem cmp_self : ∀ a : Expression, cmp a a = .eq
  | .const a => by simp [cmp]
  | .ref a => by simp [cmp]
  | .not a => by simp [cmp, cmp_self a]
  | .and a | .or a | .xor a => by simp [cmp, cmpAll_self a]
  | .blackBox s a => by simp [cmp, cmpAll_self a]

theorem cmpAll_self : ∀ as : List Expression, cmpAll as as = .eq
  | [] => rfl
  | a :: as => by simp [cmpAll, cmp_self a, cmpAll_self as]

end

/-- Two expressions compare as equal exactly when they are the same expression. -/
theorem cmp_eq_iff {a b : Expression} : cmp a b = .eq ↔ a = b :=
  ⟨eq_of_cmp, fun h => h ▸ cmp_self a⟩

instance : Std.LawfulEqCmp cmp where
  compare_self := cmp_self _
  eq_of_compare := eq_of_cmp

instance : DecidableEq Expression := fun a b =>
  if h : cmp a b = .eq then .isTrue (eq_of_cmp h) else .isFalse fun e => h (e ▸ cmp_self a)

/-! ## The order is linear -/

mutual

/-- The order of two expressions the other way round. -/
theorem cmp_swap : ∀ a b : Expression, cmp a b = (cmp b a).swap
  | .const a, b => by cases b <;> simp [cmp, @Std.OrientedCmp.eq_swap _ compare _ a]
  | .ref a, b => by cases b <;> simp [cmp, @Std.OrientedCmp.eq_swap _ compare _ a]
  | .not a, b => by cases b <;> simp [cmp, cmp_swap a]
  | .and a, b | .or a, b | .xor a, b => by cases b <;> simp [cmp, cmpAll_swap a]
  | .blackBox s a, b => by
    cases b <;> simp [cmp, Ordering.swap_then, @Std.OrientedCmp.eq_swap _ compare _ s, cmpAll_swap a]

theorem cmpAll_swap : ∀ as bs : List Expression, cmpAll as bs = (cmpAll bs as).swap
  | [], bs => by cases bs <;> simp [cmpAll]
  | a :: as, bs => by cases bs <;> simp [cmpAll, Ordering.swap_then, cmp_swap a, cmpAll_swap as]

end

/-- Where a first comparison that only equal things pass goes before a second one, the two are transitive together if each is. -/
theorem then_lt_trans {α : Type} {f : α → α → Ordering} [Std.LawfulEqCmp f] {a b c : α} {x y z : Ordering}
    (hfirst : f a b = .lt → f b c = .lt → f a c = .lt) (hsecond : x = .lt → y = .lt → z = .lt)
    (hab : (f a b).then x = .lt) (hbc : (f b c).then y = .lt) : (f a c).then z = .lt := by
  rw [Ordering.then_eq_lt] at hab hbc ⊢
  rcases hab with hab | ⟨hab, hx⟩
  · rcases hbc with hbc | ⟨hbc, -⟩
    · exact .inl (hfirst hab hbc)
    · exact .inl (Std.LawfulEqCmp.eq_of_compare hbc ▸ hab)
  · obtain rfl := Std.LawfulEqCmp.eq_of_compare hab
    exact hbc.imp_right fun ⟨hbc, hy⟩ => ⟨hbc, hsecond hx hy⟩

mutual

/-- The order is transitive. -/
theorem cmp_lt_trans : ∀ {a b c : Expression}, cmp a b = .lt → cmp b c = .lt → cmp a c = .lt
  | .const a, b, c, hab, hbc => by
    cases b <;> cases c <;> simp [cmp] at hab hbc ⊢
    exact Std.TransCmp.lt_trans hab hbc
  | .ref a, b, c, hab, hbc => by
    cases b <;> cases c <;> simp [cmp] at hab hbc ⊢
    exact Std.TransCmp.lt_trans hab hbc
  | .not a, b, c, hab, hbc => by
    cases b <;> cases c <;> simp [cmp] at hab hbc ⊢
    exact cmp_lt_trans hab hbc
  | .and a, b, c, hab, hbc | .or a, b, c, hab, hbc | .xor a, b, c, hab, hbc => by
    cases b <;> cases c <;> simp [cmp] at hab hbc ⊢
    exact cmpAll_lt_trans hab hbc
  | .blackBox s a, b, c, hab, hbc => by
    cases b <;> cases c <;> simp only [cmp, reduceCtorEq] at hab hbc ⊢
    exact then_lt_trans Std.TransCmp.lt_trans (fun h h' => cmpAll_lt_trans (l := a) h h') hab hbc

/-- The order of lists is transitive. -/
theorem cmpAll_lt_trans : ∀ {l m n : List Expression}, cmpAll l m = .lt → cmpAll m n = .lt → cmpAll l n = .lt
  | [], bs, cs, hab, hbc => by cases bs <;> cases cs <;> simp [cmpAll] at hab hbc ⊢
  | a :: as, bs, cs, hab, hbc => by
    cases bs <;> cases cs <;> simp only [cmpAll, reduceCtorEq] at hab hbc ⊢
    exact then_lt_trans (fun h h' => cmp_lt_trans (a := a) h h') (fun h h' => cmpAll_lt_trans (l := as) h h') hab hbc

end

instance : Std.TransCmp cmp where
  eq_swap := cmp_swap _ _
  isLE_trans {a b c} hab hbc := by
    rcases Ordering.isLE_iff_eq_lt_or_eq_eq.1 hab with hlt | heq
    · rcases Ordering.isLE_iff_eq_lt_or_eq_eq.1 hbc with hlt' | heq'
      · exact Ordering.isLE_iff_eq_lt_or_eq_eq.2 (.inl (cmp_lt_trans hlt hlt'))
      · exact eq_of_cmp heq' ▸ hab
    · exact eq_of_cmp heq ▸ hbc

end ReversibleLogic.Expression
