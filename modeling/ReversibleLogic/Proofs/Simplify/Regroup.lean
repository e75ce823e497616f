import ReversibleLogic.Proofs.Simplify.NormalForm

/-!
# Order and grouping of operands

Conjunction and exclusive or are associative and commutative: their operands can be put in any order, and a nested operator can
be replaced by its operands or put in for some of them (`Regroups`). A round does not see such a change (`Regroups.round_eq`). The
simplified conjunction depends on which operands there are once nested conjunctions are opened (`conjunction_congr`), and the
simplified exclusive or on how often each summand occurs, modulo two (`parity_congr`). A nested operator is simplified before its
parent sees it, and can have become a constant, a negation or one of its operands; the two splice laws say that this comes to the
same.
-/

namespace ReversibleLogic

namespace Expression

variable {e d : Expression} {es ds terms : List Expression}

/-- The second expression is the first with the operands of one conjunction or exclusive or permuted, or with one nested in another
of its kind replaced by its operands. This can be at any depth. -/
inductive Regroups : Expression → Expression → Prop
  | permuteAnd {es ds : List Expression} : es.Perm ds → Regroups (.and es) (.and ds)
  | permuteXor {es ds : List Expression} : es.Perm ds → Regroups (.xor es) (.xor ds)
  | spliceAnd (before inner after : List Expression) :
      Regroups (.and (before ++ .and inner :: after)) (.and (before ++ inner ++ after))
  | spliceXor (before inner after : List Expression) :
      Regroups (.xor (before ++ .xor inner :: after)) (.xor (before ++ inner ++ after))
  | not {e d : Expression} : Regroups e d → Regroups (.not e) (.not d)
  | and {e d : Expression} (before after : List Expression) : Regroups e d →
      Regroups (.and (before ++ e :: after)) (.and (before ++ d :: after))
  | or {e d : Expression} (before after : List Expression) : Regroups e d →
      Regroups (.or (before ++ e :: after)) (.or (before ++ d :: after))
  | xor {e d : Expression} (before after : List Expression) : Regroups e d →
      Regroups (.xor (before ++ e :: after)) (.xor (before ++ d :: after))
  | blackBox {e d : Expression} (tag : String) (before after : List Expression) : Regroups e d →
      Regroups (.blackBox tag (before ++ e :: after)) (.blackBox tag (before ++ d :: after))

/-! ## Conjunctions -/

mutual

/-- What stands in a conjunction once nested conjunctions are opened is not a conjunction. -/
theorem conjuncts_of_mem_conjuncts : ∀ {e : Expression}, ∀ d ∈ e.conjuncts, d.conjuncts = [d]
  | .and es => conjuncts_of_mem_allConjuncts (l := es)
  | .const _ | .ref _ | .not _ | .or _ | .xor _ | .blackBox _ _ => fun d hd => by
    rw [List.mem_singleton.1 hd]
    rfl

/-- What flattening gives is flat. -/
theorem conjuncts_of_mem_allConjuncts : ∀ {l : List Expression}, ∀ d ∈ allConjuncts l, d.conjuncts = [d]
  | [] => List.forall_mem_nil _
  | e :: es => List.forall_mem_append.2 ⟨conjuncts_of_mem_conjuncts (e := e), conjuncts_of_mem_allConjuncts (l := es)⟩

end

theorem mem_allConjuncts_append : d ∈ allConjuncts (es ++ ds) ↔ d ∈ allConjuncts es ∨ d ∈ allConjuncts ds := by
  simp only [mem_allConjuncts, List.mem_append, or_and_right, exists_or]

/-- The operands exclude each other: one is false, or one is the negation of another. -/
def Clash (es : List Expression) : Prop := .const false ∈ allConjuncts es ∨ hasComplement (keptConjuncts es) = true

/-- Operands that clash make a conjunction false. -/
theorem conjunction_of_clash (h : Clash es) : conjunction es = .const false := by
  rw [conjunction_eq]
  split
  · rfl
  · next hfalse => rw [if_pos (h.resolve_left hfalse)]

/-- Operands that do not clash are kept, but for the constant that changes nothing. -/
theorem conjunction_of_not_clash (h : ¬ Clash es) : conjunction es = ofConjuncts (keptConjuncts es) := by
  obtain ⟨hfalse, hneg⟩ := not_or.1 h
  rw [conjunction_eq, if_neg hfalse, if_neg hneg]

/-- More operands do not take a clash away. -/
theorem Clash.mono (h : Clash es) (hsub : ∀ d ∈ allConjuncts es, d ∈ allConjuncts ds) : Clash ds := by
  have hkept : ∀ d ∈ keptConjuncts es, d ∈ keptConjuncts ds := fun d hd =>
    mem_keptConjuncts.2 ((mem_keptConjuncts.1 hd).imp_left (hsub d))
  refine h.imp (hsub _) fun hneg => ?_
  obtain ⟨t, ht, hneg⟩ := List.any_eq_true.1 hneg
  exact List.any_eq_true.2 ⟨t, hkept t ht, decide_eq_true (hkept _ (of_decide_eq_true hneg))⟩

/-- A conjunction is simplified by what its operands are once nested conjunctions are opened. The true constant does not count. -/
theorem conjunction_congr (h : ∀ d, d ≠ .const true → (d ∈ allConjuncts es ↔ d ∈ allConjuncts ds)) :
    conjunction es = conjunction ds := by
  have hkept : keptConjuncts es = keptConjuncts ds := by
    refine Sorted.eq_of_mem_iff (Sorted.ascending_ofList _) (Sorted.ascending_ofList _) fun d => ?_
    rw [mem_keptConjuncts, mem_keptConjuncts]
    exact and_congr_left fun htrue => h d htrue
  have hfalse : .const false ∈ allConjuncts es ↔ .const false ∈ allConjuncts ds := h _ (by simp)
  rw [conjunction_eq, conjunction_eq, hkept]
  simp only [hfalse]

/-- The order of the operands of a conjunction does not matter. -/
theorem conjunction_perm (h : es.Perm ds) : conjunction es = conjunction ds :=
  conjunction_congr fun d _ => by simp only [mem_allConjuncts, h.mem_iff]

/-- The conjunction of terms that are not conjunctions has these terms, or it is true. -/
theorem mem_conjuncts_ofConjuncts (h : ∀ t ∈ terms, t.conjuncts = [t]) (hd : d ≠ .const true) :
    d ∈ (ofConjuncts terms).conjuncts ↔ d ∈ terms := by
  match terms, h with
  | [], _ => simp [ofConjuncts, conjuncts, hd]
  | [t], h => rw [ofConjuncts, h t List.mem_cons_self]
  | t :: u :: rest, h =>
    change d ∈ allConjuncts (t :: u :: rest) ↔ _
    rw [mem_allConjuncts]
    constructor
    · rintro ⟨c, hc, hdc⟩
      rw [h c hc, List.mem_singleton] at hdc
      exact hdc ▸ hc
    · exact fun hd => ⟨d, hd, by rw [h d hd]; exact List.mem_singleton_self d⟩

/-- It is the same to simplify operands together before they join a conjunction. -/
theorem conjunction_splice (before inner after : List Expression) :
    conjunction (before ++ conjunction inner :: after) = conjunction (before ++ inner ++ after) := by
  have hinner : ∀ {d : Expression} {e : Expression}, d ∈ allConjuncts (before ++ e :: after) ↔
      d ∈ allConjuncts before ∨ d ∈ e.conjuncts ∨ d ∈ allConjuncts after := by
    intro d e
    rw [mem_allConjuncts_append, allConjuncts, List.mem_append]
  by_cases hclash : Clash inner
  · -- a clash inside makes the inner conjunction false, and it stays a clash outside
    have hwhole : Clash (before ++ inner ++ after) := hclash.mono fun d hd =>
      mem_allConjuncts_append.2 (Or.inl (mem_allConjuncts_append.2 (Or.inr hd)))
    rw [conjunction_of_clash hclash, conjunction_of_clash hwhole]
    exact conjunction_of_clash (Or.inl (hinner.2 (Or.inr (Or.inl (List.mem_singleton_self _)))))
  · refine conjunction_congr fun d hd => ?_
    have hkept : ∀ t ∈ keptConjuncts inner, t.conjuncts = [t] := fun t ht =>
      conjuncts_of_mem_allConjuncts t (mem_keptConjuncts.1 ht).1
    rw [hinner, conjunction_of_not_clash hclash, mem_conjuncts_ofConjuncts hkept hd, mem_keptConjuncts, mem_allConjuncts_append,
      mem_allConjuncts_append, or_assoc]
    simp only [ne_eq, hd, not_false_eq_true, and_true]

/-! ## Exclusive ors -/

mutual

/-- What flattening gives can stand in an exclusive or. -/
theorem isSummand_of_mem_summands : ∀ {e : Expression}, ∀ d ∈ e.summands, d.isSummand = true
  | .const _ => List.forall_mem_nil _
  | .not e => isSummand_of_mem_summands (e := e)
  | .xor es => isSummand_of_mem_allSummands (l := es)
  | .ref _ | .and _ | .or _ | .blackBox _ _ => fun d hd => by
    rw [List.mem_singleton.1 hd]
    rfl

theorem isSummand_of_mem_allSummands : ∀ {l : List Expression}, ∀ d ∈ allSummands l, d.isSummand = true
  | [] => List.forall_mem_nil _
  | e :: es => List.forall_mem_append.2 ⟨isSummand_of_mem_summands (e := e), isSummand_of_mem_allSummands (l := es)⟩

end

/-- A summand that is added changes its count by one, modulo two. -/
theorem count_toggle (e d : Expression) (terms : List Expression) :
    (toggle e terms).count d % 2 = ((e :: terms).count d) % 2 := by
  induction terms with
  | nil => rfl
  | cons t rest ih =>
    unfold toggle
    split
    · rfl
    · next h =>
      rw [eq_of_cmp h, List.count_cons, List.count_cons]
      omega
    · rw [List.count_cons, Nat.add_mod, ih, ← Nat.add_mod, List.count_cons, List.count_cons, List.count_cons, Nat.add_right_comm]

/-- The summands that are left occur once, and are those that occur an odd number of times. -/
theorem count_oddTerms (d : Expression) (es : List Expression) : (oddTerms es).count d = es.count d % 2 := by
  have hfold : ∀ l acc : List Expression,
      (l.foldl (fun odd e => toggle e odd) acc).count d % 2 = (acc.count d + l.count d) % 2 := by
    intro l
    induction l with
    | nil => exact fun _ => rfl
    | cons e l ih =>
      intro acc
      rw [List.foldl_cons, ih, Nat.add_mod, count_toggle, ← Nat.add_mod, List.count_cons, List.count_cons]
      congr 1
      omega
  have hodd : (oddTerms es).count d % 2 = es.count d % 2 := by rw [oddTerms, hfold, List.count_nil, Nat.zero_add]
  have hone := List.nodup_iff_count.1 (ascending_oddTerms es).nodup d
  omega

/-- Which summands are left depends on how often each occurs, modulo two. -/
theorem oddTerms_congr (h : ∀ d, es.count d % 2 = ds.count d % 2) : oddTerms es = oddTerms ds := by
  refine Sorted.eq_of_mem_iff (ascending_oddTerms es) (ascending_oddTerms ds) fun d => ?_
  rw [← List.count_pos_iff, ← List.count_pos_iff, count_oddTerms, count_oddTerms, h d]

/-- An exclusive or is simplified by how often its summands occur, modulo two, and by whether they are flipped. -/
theorem parity_congr (h : ∀ d, (allSummands es).count d % 2 = (allSummands ds).count d % 2) (hflips : allFlips es = allFlips ds) :
    parity es = parity ds := by
  rw [parity_eq, parity_eq, oddTerms_congr h, hflips]

theorem allSummands_eq (es : List Expression) : allSummands es = es.flatMap summands := by
  induction es with
  | nil => rfl
  | cons e es ih => rw [allSummands, ih, List.flatMap_cons]

/-- The order of the operands does not matter for the flip. -/
theorem allFlips_perm (h : es.Perm ds) : allFlips es = allFlips ds := by
  induction h with
  | nil => rfl
  | cons e _ ih => rw [allFlips, allFlips, ih]
  | swap d e l => simp only [allFlips, Bool.xor_left_comm]
  | trans _ _ ih₁ ih₂ => exact ih₁.trans ih₂

/-- Nor for the exclusive or. -/
theorem parity_perm (h : es.Perm ds) : parity es = parity ds := by
  refine parity_congr (fun d => ?_) (allFlips_perm h)
  rw [allSummands_eq, allSummands_eq, (h.flatMap_right summands).count_eq]

/-- The exclusive or of summands has these summands, and is flipped as it was made. -/
theorem summands_ofSummands (h : ∀ t ∈ terms, t.isSummand = true) (flip : Bool) :
    (ofSummands terms flip).summands = terms ∧ (ofSummands terms flip).flips = flip := by
  match terms, h with
  | [], _ => exact ⟨rfl, rfl⟩
  | [t], h =>
    obtain ⟨hsum, hflip⟩ := summands_of_isSummand (h t List.mem_cons_self)
    cases flip with
    | false => exact ⟨hsum, hflip⟩
    | true => exact ⟨hsum, by rw [ofSummands, if_pos rfl, flips, hflip]; rfl⟩
  | _ :: _ :: _, h => exact summands_flipped h flip

/-- What the rule for exclusive ors gives has the summands that are left, and the flip. -/
theorem summands_parity (es : List Expression) :
    (parity es).summands = oddTerms (allSummands es) ∧ (parity es).flips = allFlips es :=
  summands_ofSummands (fun t ht => isSummand_of_mem_allSummands t (mem_of_mem_oddTerms ht)) _

/-- It is the same to simplify operands together before they join an exclusive or. -/
theorem parity_splice (before inner after : List Expression) :
    parity (before ++ parity inner :: after) = parity (before ++ inner ++ after) := by
  obtain ⟨hsum, hflip⟩ := summands_parity inner
  refine parity_congr (fun d => ?_) ?_
  · have hodd := count_oddTerms d (allSummands inner)
    rw [allSummands_append, allSummands, hsum, allSummands_append, allSummands_append]
    simp only [List.count_append]
    omega
  · rw [allFlips_append, allFlips, hflip, allFlips_append, allFlips_append, Bool.xor_assoc]

/-! ## Rounds -/

/-- A round gives the same before and after. The induction is on where the change is: below it, the rounds of the operands are
equal. -/
theorem Regroups.round_eq (h : Regroups e d) : e.round = d.round := by
  induction h with
  | permuteAnd h => rw [round, round, roundAll_eq, roundAll_eq, conjunction_perm (h.map round)]
  | permuteXor h => rw [round, round, roundAll_eq, roundAll_eq, parity_perm (h.map round)]
  | spliceAnd before inner after =>
    simp only [round, roundAll_eq, List.map_append, List.map_cons]
    rw [conjunction_splice]
  | spliceXor before inner after =>
    simp only [round, roundAll_eq, List.map_append, List.map_cons]
    rw [parity_splice]
  | not _ ih => rw [round, round, ih]
  | and _ _ _ ih | or _ _ _ ih | xor _ _ _ ih | blackBox _ _ _ _ ih =>
    simp only [round, roundAll_eq, List.map_append, List.map_cons, ih]

end Expression

namespace Simplifier

/-- Expressions that come from each other by any number of changes in the order and the grouping of the operands of conjunctions
and exclusive ors, at any depth and in both directions, are simplified to the same expression, whatever the limit on the rounds. -/
theorem algebraic_regroup (maxRounds : Nat) {e d : Expression} (h : Relation.EqvGen Expression.Regroups e d) :
    (algebraic maxRounds).simplify e = (algebraic maxRounds).simplify d := by
  have hround : e.round = d.round := by
    induction h with
    | rel e d h => exact h.round_eq
    | refl e => rfl
    | symm e d _ ih => exact ih.symm
    | trans e d f _ _ ih₁ ih₂ => exact ih₁.trans ih₂
  rw [simplify_algebraic, simplify_algebraic, hround]

/-- Five steps in the two operands of a disjunction. Before them the inner conjunction is false on its own, after them no
conjunction is nested; the exclusive or is put together anew from operands of which two cancel. -/
theorem algebraic_regroup_disjunction :
    let e := Expression.or [.and [.ref "a", .and [.ref "b", .not (.ref "b")]],
      .xor [.xor [.ref "c", .ref "d"], .const true, .ref "c"]]
    let d := Expression.or [.and [.not (.ref "b"), .ref "a", .ref "b"],
      .xor [.const true, .ref "c", .xor [.ref "c", .ref "d"]]]
    e ≠ d ∧ Relation.EqvGen Expression.Regroups e d ∧ (algebraic 1).simplify e = (algebraic 1).simplify d ∧
      (algebraic 1).simplify d = .not (.ref "d") := by
  intro e d
  have hopen : Expression.Regroups (.and [.ref "a", .and [.ref "b", .not (.ref "b")]])
      (.and [.ref "a", .ref "b", .not (.ref "b")]) := .spliceAnd [_] _ []
  have hturn : Expression.Regroups (.and [.ref "a", .ref "b", .not (.ref "b")]) (.and [.not (.ref "b"), .ref "a", .ref "b"]) :=
    .permuteAnd (by decide +kernel)
  have hopen' : Expression.Regroups (.xor [.xor [.ref "c", .ref "d"], .const true, .ref "c"])
      (.xor [.ref "c", .ref "d", .const true, .ref "c"]) := .spliceXor [] _ _
  have hturn' : Expression.Regroups (.xor [.ref "c", .ref "d", .const true, .ref "c"])
      (.xor [.const true, .ref "c", .ref "c", .ref "d"]) := .permuteXor (by decide +kernel)
  have hclose : Expression.Regroups (.xor [.const true, .ref "c", .xor [.ref "c", .ref "d"]])
      (.xor [.const true, .ref "c", .ref "c", .ref "d"]) := .spliceXor [_, _] _ []
  have hsteps : Relation.EqvGen Expression.Regroups e d :=
    .trans _ _ _ (.rel _ _ (.or [] [_] hopen)) <| .trans _ _ _ (.rel _ _ (.or [] [_] hturn)) <|
      .trans _ _ _ (.rel _ _ (.or [_] [] hopen')) <| .trans _ _ _ (.rel _ _ (.or [_] [] hturn')) <|
        .symm _ _ (.rel _ _ (.or [_] [] hclose))
  exact ⟨by decide +kernel, hsteps, algebraic_regroup 1 hsteps, by decide +kernel⟩

end Simplifier

end ReversibleLogic
