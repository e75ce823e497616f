/-!
# Ascending lists

Finite sets are kept as ascending lists without repetition, so that a set has one list and its members are met in order.
`Sorted.insert` puts an element into its place. The two main statements are that it adds exactly that element
(`mem_insert`) and that it keeps the order (`ascending_insert`); `eq_of_mem_iff` says that the members fix the list.
-/

namespace ReversibleLogic.Sorted

variable {α : Type} {cmp : α → α → Ordering}

/-- Puts `a` into its place in an ascending list. An element that is there already is not repeated. -/
def insert (cmp : α → α → Ordering) (a : α) : List α → List α
  | [] => [a]
  | b :: rest =>
    match cmp a b with
    | .lt => a :: b :: rest
    | .eq => b :: rest
    | .gt => b :: insert cmp a rest

/-- The ascending list of the elements of `l`. -/
def ofList (cmp : α → α → Ordering) (l : List α) : List α :=
  l.foldl (fun sorted a => insert cmp a sorted) []

/-- Each element stands before all later ones. -/
def Ascending (cmp : α → α → Ordering) (l : List α) : Prop :=
  l.Pairwise fun a b => cmp a b = .lt

theorem ascending_nil : Ascending cmp [] := List.Pairwise.nil

theorem Ascending.tail {a : α} {l : List α} (h : Ascending cmp (a :: l)) : Ascending cmp l :=
  (List.pairwise_cons.1 h).2

theorem Ascending.filter {l : List α} (h : Ascending cmp l) (p : α → Bool) : Ascending cmp (l.filter p) :=
  List.Pairwise.filter p h

/-- Insertion adds the one element and nothing else. -/
theorem mem_insert [Std.LawfulEqCmp cmp] {a b : α} {l : List α} : b ∈ insert cmp a l ↔ b = a ∨ b ∈ l := by
  induction l with
  | nil => simp [insert]
  | cons c rest ih =>
    unfold insert
    split
    · simp
    · next h =>
      have := Std.LawfulEqCmp.eq_of_compare h
      subst this
      simp
    · simp [ih, or_left_comm]

/-- Insertion keeps the order. -/
theorem ascending_insert [Std.TransCmp cmp] [Std.LawfulEqCmp cmp] {a : α} {l : List α} (h : Ascending cmp l) :
    Ascending cmp (insert cmp a l) := by
  induction l with
  | nil => simp [insert, Ascending]
  | cons c rest ih =>
    have ⟨hc, hr⟩ := List.pairwise_cons.1 h
    unfold insert
    split
    · next hac =>
      refine List.pairwise_cons.2 ⟨fun d hd => ?_, h⟩
      rcases List.mem_cons.1 hd with rfl | hd
      · exact hac
      · exact Std.TransCmp.lt_trans hac (hc d hd)
    · exact h
    · next hac =>
      refine List.pairwise_cons.2 ⟨fun d hd => ?_, ih hr⟩
      rcases mem_insert.1 hd with rfl | hd
      · exact Std.OrientedCmp.lt_of_gt hac
      · exact hc d hd

/-- Inserting elements one by one keeps the order. -/
theorem foldl_insert_ascending [Std.TransCmp cmp] [Std.LawfulEqCmp cmp] (l : List α) :
    ∀ s : List α, Ascending cmp s → Ascending cmp (l.foldl (fun sorted a => insert cmp a sorted) s) := by
  induction l with
  | nil => exact fun _ h => h
  | cons a rest ih => exact fun s h => ih _ (ascending_insert h)

/-- Inserting elements one by one adds these and no others. -/
theorem mem_foldl_insert [Std.LawfulEqCmp cmp] (l : List α) {b : α} :
    ∀ s : List α, b ∈ l.foldl (fun sorted a => insert cmp a sorted) s ↔ b ∈ s ∨ b ∈ l := by
  induction l with
  | nil => simp
  | cons a rest ih =>
    intro s
    rw [List.foldl_cons, ih, mem_insert, List.mem_cons]
    constructor
    · rintro ((h | h) | h)
      · exact Or.inr (Or.inl h)
      · exact Or.inl h
      · exact Or.inr (Or.inr h)
    · rintro (h | h | h)
      · exact Or.inl (Or.inr h)
      · exact Or.inl (Or.inl h)
      · exact Or.inr h

theorem ascending_ofList [Std.TransCmp cmp] [Std.LawfulEqCmp cmp] (l : List α) : Ascending cmp (ofList cmp l) :=
  foldl_insert_ascending l [] ascending_nil

/-- Sorting changes neither which elements there are nor invents one. -/
theorem mem_ofList [Std.LawfulEqCmp cmp] {l : List α} {b : α} : b ∈ ofList cmp l ↔ b ∈ l := by
  simp [ofList, mem_foldl_insert]

/-- An ascending list holds its head once. -/
theorem Ascending.not_mem_tail [Std.TransCmp cmp] {a : α} {l : List α} (h : Ascending cmp (a :: l)) : a ∉ l := by
  intro ha
  have := (List.pairwise_cons.1 h).1 a ha
  rw [(Std.ReflCmp.compare_self : cmp a a = .eq)] at this
  exact Ordering.noConfusion this

/-- An ascending list holds each element once. -/
theorem Ascending.nodup [Std.TransCmp cmp] {l : List α} (h : Ascending cmp l) : l.Nodup :=
  h.imp fun hlt heq => by
    rw [heq, (Std.ReflCmp.compare_self : cmp _ _ = .eq)] at hlt
    exact Ordering.noConfusion hlt

/-- Ascending lists with the same members are equal. -/
theorem eq_of_mem_iff [Std.TransCmp cmp] [Std.LawfulEqCmp cmp] :
    ∀ {l m : List α}, Ascending cmp l → Ascending cmp m → (∀ a, a ∈ l ↔ a ∈ m) → l = m
  | [], [], _, _, _ => rfl
  | [], b :: _, _, _, h => absurd ((h b).2 (by simp)) (by simp)
  | a :: _, [], _, _, h => absurd ((h a).1 (by simp)) (by simp)
  | a :: l, b :: m, hl, hm, h => by
    have hab : a = b := by
      rcases List.mem_cons.1 ((h a).1 (by simp)) with e | ha
      · exact e
      rcases List.mem_cons.1 ((h b).2 (by simp)) with e | hb
      · exact e.symm
      have h1 := (List.pairwise_cons.1 hm).1 a ha
      have h2 := (List.pairwise_cons.1 hl).1 b hb
      have h3 := Std.TransCmp.lt_trans h1 h2
      rw [(Std.ReflCmp.compare_self : cmp b b = .eq)] at h3
      exact Ordering.noConfusion h3
    subst hab
    have : l = m := by
      refine eq_of_mem_iff hl.tail hm.tail fun c => ?_
      have hc := h c
      simp only [List.mem_cons] at hc
      constructor
      · intro hcl
        rcases hc.1 (Or.inr hcl) with rfl | hcm
        · exact absurd hcl hl.not_mem_tail
        · exact hcm
      · intro hcm
        rcases hc.2 (Or.inr hcm) with rfl | hcl
        · exact absurd hcm hm.not_mem_tail
        · exact hcl
    rw [this]

/-- Sorting leaves an ascending list as it is. -/
theorem ofList_of_ascending [Std.TransCmp cmp] [Std.LawfulEqCmp cmp] {l : List α} (h : Ascending cmp l) : ofList cmp l = l :=
  eq_of_mem_iff (ascending_ofList l) h fun _ => mem_ofList

end ReversibleLogic.Sorted
