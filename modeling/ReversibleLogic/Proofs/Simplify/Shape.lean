import ReversibleLogic.Proofs.Simplify.NormalForm

/-!
# Size and operand counts

A rule gives at most one node beside the nodes of its operands: what it takes out of nested operators it uses once, and the
constant that flips an exclusive or stands for a negation or a constant that was there. Only nesting makes more nodes, one for
every operand of a disjunction beyond two (`size_round`). No rule leaves an operator with an operand count that a circuit cannot
be made from, and only a black box that was given no arguments keeps its count (`isWellFormed_round`).
-/

namespace ReversibleLogic

namespace Expression

variable {e : Expression} {es ds : List Expression}

/-! ## Sizes of lists -/

theorem sizeAll_append (es ds : List Expression) : sizeAll (es ++ ds) = sizeAll es + sizeAll ds := by
  induction es with
  | nil => exact (Nat.zero_add _).symm
  | cons e es ih => rw [List.cons_append, sizeAll, sizeAll, ih, Nat.add_assoc]

/-- The size does not depend on the order. -/
theorem sizeAll_perm (h : es.Perm ds) : sizeAll es = sizeAll ds := by
  induction h with
  | nil => rfl
  | cons e _ ih => rw [sizeAll, sizeAll, ih]
  | swap d e l => simp only [sizeAll, Nat.add_left_comm]
  | trans _ _ ih₁ ih₂ => exact ih₁.trans ih₂

/-- Leaving expressions out makes nothing larger. -/
theorem sizeAll_sublist (h : es.Sublist ds) : sizeAll es ≤ sizeAll ds := by
  induction h with
  | slnil => exact Nat.le_refl 0
  | cons e _ ih => exact Nat.le_trans ih (Nat.le_add_left _ _)
  | cons_cons e _ ih => exact Nat.add_le_add_left ih _

/-- Expressions that are used once are together no larger than those they come from. -/
theorem sizeAll_le_of_nodup (hnodup : es.Nodup) (hsub : ∀ d ∈ es, d ∈ ds) : sizeAll es ≤ sizeAll ds := by
  obtain ⟨l, hperm, hsublist⟩ := hnodup.subperm hsub
  calc sizeAll es = sizeAll l := (sizeAll_perm hperm).symm
    _ ≤ sizeAll ds := sizeAll_sublist hsublist

mutual

/-- Taking the operands out of nested conjunctions makes nothing larger. -/
theorem sizeAll_conjuncts : ∀ e : Expression, sizeAll e.conjuncts ≤ e.size
  | .and es => Nat.le_trans (sizeAll_allConjuncts es) (Nat.le_add_left _ 1)
  | .const _ | .ref _ | .not _ | .or _ | .xor _ | .blackBox _ _ => Nat.le_refl _

theorem sizeAll_allConjuncts : ∀ l : List Expression, sizeAll (allConjuncts l) ≤ sizeAll l
  | [] => Nat.le_refl 0
  | e :: es => by
    rw [allConjuncts, sizeAll_append, sizeAll]
    exact Nat.add_le_add (sizeAll_conjuncts e) (sizeAll_allConjuncts es)

end

mutual

/-- There is a node for the flip beside the nodes of the summands. -/
theorem sizeAll_summands : ∀ e : Expression, sizeAll e.summands + e.flips.toNat ≤ e.size
  | .const value => by
    rw [summands, flips, sizeAll, size, Nat.zero_add]
    exact Bool.toNat_le value
  | .not e => by
    have ih := sizeAll_summands e
    have hflip := Bool.toNat_le (!e.flips)
    rw [summands, flips, size]
    omega
  | .xor es => Nat.le_trans (sizeAll_allSummands es) (Nat.le_add_left _ 1)
  | .ref _ | .and _ | .or _ | .blackBox _ _ => Nat.le_refl _

theorem sizeAll_allSummands : ∀ l : List Expression, sizeAll (allSummands l) + (allFlips l).toNat ≤ sizeAll l
  | [] => Nat.le_refl 0
  | e :: es => by
    have hfirst := sizeAll_summands e
    have hrest := sizeAll_allSummands es
    have hflip : (e.flips ^^ allFlips es).toNat ≤ e.flips.toNat + (allFlips es).toNat := by
      cases e.flips <;> cases allFlips es <;> decide
    rw [allSummands, allFlips, sizeAll_append, sizeAll]
    omega

end

/-! ## Sizes that the rules give -/

/-- An exclusive or is one node beside its summands, and one more for a flip. -/
theorem size_ofSummands (terms : List Expression) (flip : Bool) :
    (ofSummands terms flip).size ≤ 1 + (sizeAll terms + flip.toNat) := by
  match terms, flip with
  | [], _ => exact Nat.le_add_right 1 _
  | [e], false => exact Nat.le_add_left e.size 1
  | [e], true => exact Nat.add_le_add_left (Nat.le_add_right e.size 1) 1
  | _ :: _ :: _, false => exact Nat.le_refl _
  | d :: e :: rest, true => exact Nat.add_le_add_left (Nat.le_of_eq (sizeAll_append (d :: e :: rest) [.const true])) 1

/-- The rule for exclusive ors gives at most one node beside the operands. -/
theorem size_parity (es : List Expression) : (parity es).size ≤ 1 + sizeAll es := by
  have hodd : sizeAll (oddTerms (allSummands es)) ≤ sizeAll (allSummands es) :=
    sizeAll_le_of_nodup (ascending_oddTerms _).nodup fun _ => mem_of_mem_oddTerms
  have hall := sizeAll_allSummands es
  have hsize := size_ofSummands (oddTerms (allSummands es)) (allFlips es)
  rw [parity_eq]
  omega

/-- So does the rule for negations. -/
theorem size_negation (e : Expression) : (negation e).size ≤ 1 + e.size := by
  cases e with
  | const value => exact Nat.le_add_left 1 1
  | not e => exact Nat.le_trans (Nat.le_add_left e.size 1) (Nat.le_add_left _ 1)
  | xor es =>
    have hsize := size_parity (es ++ [.const true])
    rw [sizeAll_append] at hsize
    calc (parity (es ++ [.const true])).size ≤ 1 + (sizeAll es + 1) := hsize
      _ = 1 + (1 + sizeAll es) := by rw [Nat.add_comm (sizeAll es)]
  | ref name | and es | or es | blackBox tag es => exact Nat.le_refl _

/-- A conjunction is one node beside its operands, if it is made at all. -/
theorem size_ofConjuncts (terms : List Expression) : (ofConjuncts terms).size ≤ 1 + sizeAll terms := by
  match terms with
  | [] => exact Nat.le_refl 1
  | [e] => exact Nat.le_add_left e.size 1
  | _ :: _ :: _ => exact Nat.le_refl _

/-- The rule for conjunctions gives at most one node beside the operands. -/
theorem size_conjunction (es : List Expression) : (conjunction es).size ≤ 1 + sizeAll es := by
  have hkept : sizeAll (keptConjuncts es) ≤ sizeAll es :=
    Nat.le_trans (sizeAll_le_of_nodup (Sorted.ascending_ofList _).nodup fun _ hd => (mem_keptConjuncts.1 hd).1)
      (sizeAll_allConjuncts es)
  rw [conjunction_eq]
  split
  · exact Nat.le_add_right 1 _
  · split
    · exact Nat.le_add_right 1 _
    · exact Nat.le_trans (size_ofConjuncts _) (Nat.add_le_add_left hkept 1)

/-- Nesting makes one node less than there are operands. -/
theorem size_ofDisjuncts (e : Expression) (es : List Expression) :
    (ofDisjuncts (e :: es)).size = sizeAll (e :: es) + es.length := by
  induction es generalizing e with
  | nil => rfl
  | cons d es ih =>
    change 1 + (e.size + ((ofDisjuncts (d :: es)).size + 0)) = e.size + sizeAll (d :: es) + (es.length + 1)
    rw [ih]
    omega

/-- The rule for disjunctions gives at most one node beside the operands, and one for every operand beyond two. -/
theorem size_disjunction (es : List Expression) : (disjunction es).size ≤ 1 + sizeAll es + (es.length - 2) := by
  rw [disjunction_eq]
  split
  · exact Nat.le_trans (Nat.le_add_right 1 (sizeAll es)) (Nat.le_add_right _ _)
  · split
    · exact Nat.le_trans (Nat.le_add_right 1 (sizeAll es)) (Nat.le_add_right _ _)
    · have hsize : sizeAll (distinct (es.filter (· ≠ .const false))) ≤ sizeAll es :=
        sizeAll_le_of_nodup (nodup_distinct _) fun _ hd => (List.mem_filter.1 (mem_distinct.1 hd)).1
      have hlen : (distinct (es.filter (· ≠ .const false))).length ≤ es.length :=
        Nat.le_trans (length_distinct_le _) (List.length_filter_le _ es)
      match distinct (es.filter (· ≠ .const false)), hsize, hlen with
      | [], _, _ => exact Nat.le_trans (Nat.le_add_right 1 (sizeAll es)) (Nat.le_add_right _ _)
      | e :: rest, hsize, hlen =>
        rw [List.length_cons] at hlen
        rw [size_ofDisjuncts]
        omega

/-! ## Sizes after a round -/

mutual

/-- The number of operands that the disjunctions in the tree have beyond two. -/
def surplus : Expression → Nat
  | .const _ | .ref _ => 0
  | .not e => e.surplus
  | .or es => es.length - 2 + allSurplus es
  | .and es | .xor es | .blackBox _ es => allSurplus es

/-- The number of operands that the disjunctions in the trees of the list have beyond two. -/
def allSurplus : List Expression → Nat
  | [] => 0
  | e :: es => e.surplus + allSurplus es

end

mutual

/-- Where no disjunction has more than two operands, there is none beyond two. -/
theorem surplus_of_isNarrow : ∀ {e : Expression}, e.isNarrow = true → e.surplus = 0
  | .const _, _ | .ref _, _ => rfl
  | .not e, h => surplus_of_isNarrow (e := e) h
  | .or es, h => by
    rw [isNarrow, Bool.and_eq_true, decide_eq_true_iff] at h
    rw [surplus, Nat.sub_eq_zero_of_le h.1, allSurplus_of_allNarrow (l := es) h.2]
  | .and es, h | .xor es, h | .blackBox _ es, h => allSurplus_of_allNarrow (l := es) h

theorem allSurplus_of_allNarrow : ∀ {l : List Expression}, allNarrow l = true → allSurplus l = 0
  | [], _ => rfl
  | e :: es, h => by
    rw [allNarrow, Bool.and_eq_true] at h
    rw [allSurplus, surplus_of_isNarrow (e := e) h.1, allSurplus_of_allNarrow (l := es) h.2]

end

mutual

/-- A round makes at most one node for every operand of a disjunction beyond two. -/
theorem size_round : ∀ e : Expression, e.round.size ≤ e.size + e.surplus
  | .const _ | .ref _ => Nat.le_refl 1
  | .not e => by
    have hrule := size_negation e.round
    have ih := size_round e
    rw [round, size, surplus]
    omega
  | .and es => by
    have hrule := size_conjunction (roundAll es)
    have ih := sizeAll_roundAll es
    rw [round, size, surplus]
    omega
  | .or es => by
    have hrule := size_disjunction (roundAll es)
    have ih := sizeAll_roundAll es
    rw [length_roundAll] at hrule
    rw [round, size, surplus]
    omega
  | .xor es => by
    have hrule := size_parity (roundAll es)
    have ih := sizeAll_roundAll es
    rw [round, size, surplus]
    omega
  | .blackBox _ es => by
    have ih := sizeAll_roundAll es
    rw [round, size, size, surplus]
    omega

theorem sizeAll_roundAll : ∀ l : List Expression, sizeAll (roundAll l) ≤ sizeAll l + allSurplus l
  | [] => Nat.le_refl 0
  | e :: es => by
    have hfirst := size_round e
    have hrest := sizeAll_roundAll es
    rw [roundAll, sizeAll, sizeAll, allSurplus]
    omega

end

/-- A round makes no node there. -/
theorem size_round_of_isNarrow (h : e.isNarrow = true) : e.round.size ≤ e.size := by
  have hsize := size_round e
  rwa [surplus_of_isNarrow h] at hsize

/-- After the first round no round makes nodes, as no round leaves a disjunction of more than two operands. -/
theorem size_roundsUpTo_round (n : Nat) (e : Expression) : (roundsUpTo n e.round).size ≤ e.size + e.surplus := by
  have hkeeps := roundsUpTo_keeps (P := fun d => d.isNarrow = true ∧ d.size ≤ e.size + e.surplus)
    (fun {d} h => ⟨isNarrow_round d, Nat.le_trans (size_round_of_isNarrow h.1) h.2⟩) n ⟨isNarrow_round e, size_round e⟩
  exact hkeeps.2

/-! ## Well-formed trees -/

theorem allWellFormed_iff : allWellFormed es = true ↔ ∀ e ∈ es, e.isWellFormed = true := by
  rw [allWellFormed_eq, List.all_eq_true]

/-- Two well-formed operands or more are enough for an operator. -/
theorem wellFormed_operands (hlen : 2 ≤ es.length) (h : ∀ e ∈ es, e.isWellFormed = true) :
    (!es.isEmpty && allWellFormed es) = true := by
  match es, hlen with
  | _ :: _ :: _, _ => exact allWellFormed_iff.2 h

/-- No rule makes an operator with too few operands. -/
theorem pervasive_isWellFormed : Pervasive fun e => e.isWellFormed = true where
  const _ := rfl
  not := Iff.rfl
  of_xor h := allWellFormed_iff.1 (Bool.and_eq_true_iff.1 h).2
  xor := wellFormed_operands
  of_and h := allWellFormed_iff.1 (Bool.and_eq_true_iff.1 h).2
  and := wellFormed_operands
  or hd he := by
    rw [isWellFormed, allWellFormed, allWellFormed, allWellFormed, hd, he]
    rfl

mutual

/-- Whether every black box in the tree has an argument. -/
def hasArguments : Expression → Bool
  | .const _ | .ref _ => true
  | .not e => e.hasArguments
  | .and es | .or es | .xor es => allHaveArguments es
  | .blackBox _ es => !es.isEmpty && allHaveArguments es

/-- Whether every black box in the trees of the list has an argument. -/
def allHaveArguments : List Expression → Bool
  | [] => true
  | e :: es => e.hasArguments && allHaveArguments es

end

mutual

/-- In a well-formed tree every black box has an argument. -/
theorem hasArguments_of_isWellFormed : ∀ {e : Expression}, e.isWellFormed = true → e.hasArguments = true
  | .const _, _ | .ref _, _ => rfl
  | .not e, h => hasArguments_of_isWellFormed (e := e) h
  | .and es, h | .or es, h | .xor es, h => allHaveArguments_of_allWellFormed (l := es) (Bool.and_eq_true_iff.1 h).2
  | .blackBox _ es, h => by
    obtain ⟨hne, h⟩ := Bool.and_eq_true_iff.1 h
    rw [hasArguments, hne, allHaveArguments_of_allWellFormed (l := es) h]
    rfl

theorem allHaveArguments_of_allWellFormed : ∀ {l : List Expression}, allWellFormed l = true → allHaveArguments l = true
  | [], _ => rfl
  | e :: es, h => by
    obtain ⟨he, hes⟩ := Bool.and_eq_true_iff.1 h
    rw [allHaveArguments, hasArguments_of_isWellFormed (e := e) he, allHaveArguments_of_allWellFormed (l := es) hes]
    rfl

end

mutual

/-- A round gives a well-formed tree, if every black box has an argument. -/
theorem isWellFormed_round : ∀ {e : Expression}, e.hasArguments = true → e.round.isWellFormed = true
  | .const _, _ | .ref _, _ => rfl
  | .not e, h => pervasive_isWellFormed.negation (isWellFormed_round (e := e) h)
  | .and es, h => pervasive_isWellFormed.conjunction (isWellFormed_roundAll (l := es) h)
  | .or es, h => pervasive_isWellFormed.disjunction (isWellFormed_roundAll (l := es) h)
  | .xor es, h => pervasive_isWellFormed.parity (isWellFormed_roundAll (l := es) h)
  | .blackBox _ (e :: es), h => by
    have hall := isWellFormed_roundAll (l := e :: es) (Bool.and_eq_true_iff.1 h).2
    exact allWellFormed_iff.2 hall

theorem isWellFormed_roundAll : ∀ {l : List Expression}, allHaveArguments l = true → ∀ e ∈ roundAll l, e.isWellFormed = true
  | [], _ => List.forall_mem_nil _
  | e :: es, h => by
    rw [allHaveArguments, Bool.and_eq_true] at h
    exact List.forall_mem_cons.2 ⟨isWellFormed_round (e := e) h.1, isWellFormed_roundAll (l := es) h.2⟩

end

/-- A well-formed tree stays well formed, however many rounds are made. -/
theorem isWellFormed_roundsUpTo (n : Nat) (h : e.isWellFormed = true) : (roundsUpTo n e).isWellFormed = true :=
  roundsUpTo_keeps (P := fun e => e.isWellFormed = true) (fun h => isWellFormed_round (hasArguments_of_isWellFormed h)) n h

end Expression

namespace Simplifier

/-- Whatever the limit on the rounds, the simplified expression has at most one node more than the expression for every operand
of a disjunction beyond two, so it is no larger where there is no such operand. It is well formed if every black box in the
expression has an argument, whatever the operand counts of the operators are. -/
theorem algebraic_compact_wellFormed (maxRounds : Nat) (e : Expression) :
    ((algebraic maxRounds).simplify e).size ≤ e.size + e.surplus ∧
      (e.isNarrow = true → ((algebraic maxRounds).simplify e).size ≤ e.size) ∧
      (e.hasArguments = true → ((algebraic maxRounds).simplify e).isWellFormed = true) := by
  rw [simplify_algebraic]
  have hsize := Expression.size_roundsUpTo_round (maxRounds - 1) e
  refine ⟨hsize, fun hnarrow => ?_, fun hargs => ?_⟩
  · rwa [Expression.surplus_of_isNarrow hnarrow] at hsize
  · exact Expression.isWellFormed_roundsUpTo _ (Expression.isWellFormed_round hargs)

/-- An exclusive or of a disjunction of one, a conjunction of nothing, a negated exclusive or and a black box with an empty
disjunction among its arguments becomes smaller and well formed. A disjunction of four gets as many nodes as it may. -/
theorem algebraic_compact_wellFormed_collapsing :
    let e := Expression.xor [.not (.or [.ref "a"]), .and [], .not (.xor [.ref "b", .not (.ref "c")]),
      .blackBox "f" [.and [.ref "a", .or []], .ref "d"]]
    let d := Expression.or [.ref "a", .ref "b", .ref "c", .ref "d"]
    e.isNarrow = true ∧ e.hasArguments = true ∧ e.isWellFormed = false ∧
      ((algebraic 1).simplify e).size ≤ e.size ∧ ((algebraic 1).simplify e).isWellFormed = true ∧
      ((algebraic 8).simplify d).size ≤ d.size + d.surplus ∧ ((algebraic 8).simplify d).size = 7 ∧ d.size + d.surplus = 7 :=
  ⟨by decide, by decide, by decide, (algebraic_compact_wellFormed 1 _).2.1 (by decide),
    (algebraic_compact_wellFormed 1 _).2.2 (by decide), (algebraic_compact_wellFormed 8 _).1, by decide +kernel, by decide⟩

end Simplifier

end ReversibleLogic
