import Mathlib.Data.List.Perm.Subperm
import ReversibleLogic.Proofs.Simplify

/-!
# Normal forms

`Normal` says what a simplified expression looks like at every node, and a round leaves such an expression as it is
(`Normal.round_eq`). A rule that gets normal operands gives a normal expression, with one exception: a disjunction of more than
two is nested to the right, and an operand can meet its negation only in what nesting makes of the operands after it. So one
round is enough where no disjunction has more than two operands (`normal_round`), and since no round leaves such a disjunction
(`isNarrow_round`), two rounds are enough everywhere (`Simplifier.algebraic_settles`).
-/

namespace ReversibleLogic

namespace Expression

variable {e d : Expression} {es terms : List Expression}

/-! ## Operands that stay -/

/-- Whether an exclusive or can have the expression as an operand when it is simplified. -/
def isSummand : Expression → Bool
  | .ref _ | .and _ | .or _ | .blackBox _ _ => true
  | .const _ | .not _ | .xor _ => false

/-- Whether a conjunction can have the expression as an operand when it is simplified. -/
def isConjunct : Expression → Bool
  | .const _ | .and _ => false
  | .ref _ | .not _ | .or _ | .xor _ | .blackBox _ _ => true

/-- Such an operand is its own summand and brings no flip. -/
theorem summands_of_isSummand (h : e.isSummand = true) : e.summands = [e] ∧ e.flips = false := by
  cases e with
  | const value | not e | xor es => cases h
  | ref name | and es | or es | blackBox tag es => exact ⟨rfl, rfl⟩

/-- Its negation is written with a negation in front. -/
theorem negation_of_isSummand (h : e.isSummand = true) : negation e = .not e := by
  cases e with
  | const value | not e | xor es => cases h
  | ref name | and es | or es | blackBox tag es => rfl

/-- Such an operand is its own conjunct. -/
theorem conjuncts_of_isConjunct (h : e.isConjunct = true) : e.conjuncts = [e] := by
  cases e with
  | const value | and es => cases h
  | ref name | not e | or es | xor es | blackBox tag es => rfl

theorem allSummands_append (es ds : List Expression) : allSummands (es ++ ds) = allSummands es ++ allSummands ds := by
  induction es with
  | nil => rfl
  | cons e es ih => rw [List.cons_append, allSummands, allSummands, ih, List.append_assoc]

theorem allFlips_append (es ds : List Expression) : allFlips (es ++ ds) = (allFlips es ^^ allFlips ds) := by
  induction es with
  | nil => exact (Bool.false_xor _).symm
  | cons e es ih => rw [List.cons_append, allFlips, allFlips, ih, Bool.xor_assoc]

/-- Operands that stay are the summands, without a flip. -/
theorem allSummands_of_isSummand (h : ∀ e ∈ es, e.isSummand = true) : allSummands es = es ∧ allFlips es = false := by
  induction es with
  | nil => exact ⟨rfl, rfl⟩
  | cons e es ih =>
    obtain ⟨hsum, hflip⟩ := summands_of_isSummand (h e List.mem_cons_self)
    obtain ⟨hsums, hflips⟩ := ih fun d hd => h d (List.mem_cons_of_mem e hd)
    exact ⟨by rw [allSummands, hsum, hsums]; rfl, by rw [allFlips, hflip, hflips]; rfl⟩

/-- Operands that stay are the conjuncts. -/
theorem allConjuncts_of_isConjunct (h : ∀ e ∈ es, e.isConjunct = true) : allConjuncts es = es := by
  induction es with
  | nil => rfl
  | cons e es ih =>
    rw [allConjuncts, conjuncts_of_isConjunct (h e List.mem_cons_self), ih fun d hd => h d (List.mem_cons_of_mem e hd)]
    rfl

theorem mem_allSummands : d ∈ allSummands es ↔ ∃ e ∈ es, d ∈ e.summands := by
  induction es with
  | nil => simp [allSummands]
  | cons e es ih => simp [allSummands, ih]

theorem mem_allConjuncts : d ∈ allConjuncts es ↔ ∃ e ∈ es, d ∈ e.conjuncts := by
  induction es with
  | nil => simp [allConjuncts]
  | cons e es ih => simp [allConjuncts, ih]

/-! ## Ascending summands -/

/-- Putting in a summand, or taking it out, keeps the order. -/
theorem ascending_toggle (h : Sorted.Ascending cmp terms) (e : Expression) : Sorted.Ascending cmp (toggle e terms) := by
  induction terms with
  | nil => exact List.pairwise_singleton _ e
  | cons t rest ih =>
    have ⟨ht, hrest⟩ := List.pairwise_cons.1 h
    unfold toggle
    split
    · next hlt =>
      refine List.pairwise_cons.2 ⟨fun d hd => ?_, h⟩
      rcases List.mem_cons.1 hd with rfl | hd
      · exact hlt
      · exact Std.TransCmp.lt_trans hlt (ht d hd)
    · exact hrest
    · next hgt =>
      refine List.pairwise_cons.2 ⟨fun d hd => ?_, ih hrest⟩
      rcases mem_toggle hd with rfl | hd
      · exact Std.OrientedCmp.lt_of_gt hgt
      · exact ht d hd

/-- The summands that are left ascend. -/
theorem ascending_oddTerms (es : List Expression) : Sorted.Ascending cmp (oddTerms es) :=
  List.foldlRecOn es _ Sorted.ascending_nil fun _ h e _ => ascending_toggle h e

/-- A summand after all that are there goes to the end. -/
theorem toggle_of_forall_lt (h : ∀ t ∈ terms, cmp t e = .lt) : toggle e terms = terms ++ [e] := by
  induction terms with
  | nil => rfl
  | cons t rest ih =>
    have hgt : cmp e t = .gt := Std.OrientedCmp.gt_of_lt (h t List.mem_cons_self)
    simp only [toggle, hgt]
    rw [ih fun d hd => h d (List.mem_cons_of_mem t hd)]
    rfl

/-- Summands that ascend are all left. -/
theorem oddTerms_of_ascending (h : Sorted.Ascending cmp es) : oddTerms es = es := by
  have hfold : ∀ l acc : List Expression, Sorted.Ascending cmp (acc ++ l) →
      l.foldl (fun odd e => toggle e odd) acc = acc ++ l := by
    intro l
    induction l with
    | nil => exact fun acc _ => (List.append_nil acc).symm
    | cons e l ih =>
      intro acc h
      have hlt : ∀ t ∈ acc, cmp t e = .lt := fun t ht => (List.pairwise_append.1 h).2.2 t ht e List.mem_cons_self
      rw [List.foldl_cons, toggle_of_forall_lt hlt, ih _ (by rwa [List.append_assoc]), List.append_assoc]
      rfl
  exact hfold es [] h

/-! ## Normal forms -/

/-- A simplified expression: constants stand alone or flip an exclusive or, operators do not stand in operands that they could
be merged with, the operands of conjunctions and exclusive ors ascend, and no operand of a conjunction or disjunction is met by
its negation. -/
inductive Normal : Expression → Prop
  | const (value : Bool) : Normal (.const value)
  | ref (name : Symbol) : Normal (.ref name)
  | not {e : Expression} : e.isSummand = true → Normal e → Normal (.not e)
  | and {es : List Expression} : 2 ≤ es.length → Sorted.Ascending cmp es → (∀ e ∈ es, e.isConjunct = true) →
      (∀ e ∈ es, negation e ∉ es) → (∀ e ∈ es, Normal e) → Normal (.and es)
  | or {d e : Expression} : d ≠ e → (∀ value, .const value ∉ [d, e]) → (∀ t ∈ [d, e], negation t ∉ [d, e]) → Normal d →
      Normal e → Normal (.or [d, e])
  | xor {terms : List Expression} (flip : Bool) : 2 ≤ terms.length → Sorted.Ascending cmp terms →
      (∀ e ∈ terms, e.isSummand = true) → (∀ e ∈ terms, Normal e) →
      Normal (.xor (if flip then terms ++ [.const true] else terms))
  | blackBox {tag : String} {es : List Expression} : (∀ e ∈ es, Normal e) → Normal (.blackBox tag es)

/-- What it means that no operand is met by its negation. -/
theorem hasComplement_eq_false : hasComplement terms = false ↔ ∀ t ∈ terms, negation t ∉ terms := by
  simp [hasComplement]

/-- Two summands or more make an exclusive or. -/
theorem ofSummands_of_two_le (h : 2 ≤ terms.length) (flip : Bool) :
    ofSummands terms flip = .xor (if flip then terms ++ [.const true] else terms) := by
  match terms, h with
  | _ :: _ :: _, _ => rfl

/-- Two conjuncts or more make a conjunction. -/
theorem ofConjuncts_of_two_le (h : 2 ≤ terms.length) : ofConjuncts terms = .and terms := by
  match terms, h with
  | _ :: _ :: _, _ => rfl

/-! ### Normal forms as exclusive ors -/

/-- The constant at the end of an exclusive or is its flip, and the operands before it are its summands. -/
theorem summands_flipped (h : ∀ e ∈ terms, e.isSummand = true) (flip : Bool) :
    (xor (if flip then terms ++ [.const true] else terms)).summands = terms ∧
      (xor (if flip then terms ++ [.const true] else terms)).flips = flip := by
  obtain ⟨hsums, hflips⟩ := allSummands_of_isSummand h
  cases flip with
  | false => exact ⟨hsums, hflips⟩
  | true =>
    change allSummands (terms ++ [.const true]) = terms ∧ allFlips (terms ++ [.const true]) = true
    rw [allSummands_append, allFlips_append, hsums, hflips]
    exact ⟨List.append_nil _, rfl⟩

/-- A normal form is the exclusive or of its summands, flipped or not, and these ascend. -/
theorem Normal.as_sum (h : Normal e) : e = ofSummands e.summands e.flips ∧ Sorted.Ascending cmp e.summands ∧
    ∀ d ∈ e.summands, d.isSummand = true ∧ Normal d := by
  by_cases hsum : e.isSummand = true
  · obtain ⟨hsums, hflip⟩ := summands_of_isSummand hsum
    rw [hsums, hflip]
    exact ⟨rfl, List.pairwise_singleton _ e, List.forall_mem_singleton.2 ⟨hsum, h⟩⟩
  · cases h with
    | const value => exact ⟨rfl, Sorted.ascending_nil, List.forall_mem_nil _⟩
    | @not e hsum' h =>
      obtain ⟨hsums, hflip⟩ := summands_of_isSummand hsum'
      rw [summands, flips, hsums, hflip]
      exact ⟨rfl, List.pairwise_singleton _ e, List.forall_mem_singleton.2 ⟨hsum', h⟩⟩
    | xor flip hlen hasc hsum' h =>
      obtain ⟨hsums, hflip⟩ := summands_flipped hsum' flip
      rw [hsums, hflip, ofSummands_of_two_le hlen]
      exact ⟨rfl, hasc, fun d hd => ⟨hsum' d hd, h d hd⟩⟩
    | ref name | and | or | blackBox => exact absurd rfl hsum

/-- Ascending summands in normal form make a normal form, however few they are. -/
theorem normal_ofSummands (hasc : Sorted.Ascending cmp terms) (hsum : ∀ d ∈ terms, d.isSummand = true)
    (hnormal : ∀ d ∈ terms, Normal d) (flip : Bool) : Normal (ofSummands terms flip) := by
  match terms, hasc, hsum, hnormal with
  | [], _, _, _ => exact .const flip
  | [e], _, hsum, hnormal =>
    have he := hnormal e List.mem_cons_self
    cases flip with
    | false => exact he
    | true => exact .not (hsum e List.mem_cons_self) he
  | d :: e :: rest, hasc, hsum, hnormal => exact .xor flip (by simp) hasc hsum hnormal

/-! ## Rules for normal operands -/

/-- An exclusive or of normal forms is simplified to a normal form. -/
theorem normal_parity (h : ∀ e ∈ es, Normal e) : Normal (parity es) := by
  have hterms : ∀ d ∈ oddTerms (allSummands es), d.isSummand = true ∧ Normal d := by
    intro d hd
    obtain ⟨e, he, hd⟩ := mem_allSummands.1 (mem_of_mem_oddTerms hd)
    exact (h e he).as_sum.2.2 d hd
  exact normal_ofSummands (ascending_oddTerms _) (fun d hd => (hterms d hd).1) (fun d hd => (hterms d hd).2) _

/-- So is a negation. -/
theorem normal_negation (h : Normal e) : Normal (negation e) := by
  cases h with
  | const value => exact .const _
  | ref name => exact .not rfl (.ref name)
  | not _ h => exact h
  | and hlen hasc hconj hneg h => exact .not rfl (.and hlen hasc hconj hneg h)
  | or hne hconst hneg hd he => exact .not rfl (.or hne hconst hneg hd he)
  | xor flip hlen hasc hsum h =>
    exact normal_parity (forall_mem_flipped (.const true) (forall_mem_flipped (.const true) h flip) true)
  | blackBox h => exact .not rfl (.blackBox h)

/-- The conjuncts of a normal form are normal forms that can stay, unless they are constants. -/
theorem Normal.of_mem_conjuncts (h : Normal e) (hd : d ∈ e.conjuncts) (hconst : ∀ value, d ≠ .const value) :
    d.isConjunct = true ∧ Normal d := by
  cases e with
  | const value => exact absurd (List.mem_singleton.1 hd) (hconst value)
  | and es =>
    cases h with
    | and _ _ hconj _ h =>
      rw [conjuncts, allConjuncts_of_isConjunct hconj] at hd
      exact ⟨hconj d hd, h d hd⟩
  | ref name | not e | or es | xor es | blackBox tag es => exact List.mem_singleton.1 hd ▸ ⟨rfl, h⟩

/-- Ascending conjuncts in normal form make a normal form, if none is met by its negation. -/
theorem normal_ofConjuncts (hasc : Sorted.Ascending cmp terms) (hconj : ∀ e ∈ terms, e.isConjunct = true)
    (hneg : ∀ e ∈ terms, negation e ∉ terms) (hnormal : ∀ e ∈ terms, Normal e) : Normal (ofConjuncts terms) := by
  match terms, hasc, hconj, hneg, hnormal with
  | [], _, _, _, _ => exact .const true
  | [e], _, _, _, hnormal => exact hnormal e List.mem_cons_self
  | d :: e :: rest, hasc, hconj, hneg, hnormal => exact .and (by simp) hasc hconj hneg hnormal

/-- A conjunction of normal forms is simplified to a normal form. -/
theorem normal_conjunction (h : ∀ e ∈ es, Normal e) : Normal (conjunction es) := by
  rw [conjunction_eq]
  split
  · exact .const false
  · next hfalse =>
    have hterms : ∀ d ∈ keptConjuncts es, d.isConjunct = true ∧ Normal d := by
      intro d hd
      obtain ⟨hd, htrue⟩ := mem_keptConjuncts.1 hd
      obtain ⟨e, he, hde⟩ := mem_allConjuncts.1 hd
      refine (h e he).of_mem_conjuncts hde fun value hvalue => ?_
      cases value with
      | false => exact hfalse (hvalue ▸ hd)
      | true => exact htrue hvalue
    split
    · exact .const false
    · next hneg =>
      rw [Bool.not_eq_true, hasComplement_eq_false] at hneg
      exact normal_ofConjuncts (Sorted.ascending_ofList _) (fun d hd => (hterms d hd).1) hneg fun d hd => (hterms d hd).2

/-- What is kept has no operand twice. -/
theorem nodup_distinct (es : List Expression) : (distinct es).Nodup := by
  refine List.foldlRecOn (motive := List.Nodup) es _ List.nodup_nil fun kept h e _ => ?_
  split
  · exact h
  · next he =>
    refine List.nodup_append.2 ⟨h, List.pairwise_singleton _ e, fun a ha b hb hab => ?_⟩
    exact he (List.mem_singleton.1 hb ▸ hab ▸ ha)

/-- No more operands are kept than there were. -/
theorem length_distinct_le (es : List Expression) : (distinct es).length ≤ es.length :=
  ((nodup_distinct es).subperm fun _ => mem_distinct.1).length_le

/-- Of at most two operands no more are left, and these are not nested. -/
theorem normal_disjunction (hlen : es.length ≤ 2) (h : ∀ e ∈ es, Normal e) : Normal (disjunction es) := by
  rw [disjunction_eq]
  split
  · exact .const true
  · next htrue =>
    split
    · exact .const true
    · next hneg =>
      rw [Bool.not_eq_true, hasComplement_eq_false] at hneg
      have hterm : ∀ d ∈ distinct (es.filter (· ≠ .const false)), d ∈ es ∧ d ≠ .const false := fun d hd => by
        rwa [mem_distinct, List.mem_filter, decide_eq_true_iff] at hd
      have hconst : ∀ value, .const value ∉ distinct (es.filter (· ≠ .const false)) := fun value hd => by
        cases value with
        | false => exact (hterm _ hd).2 rfl
        | true => exact htrue (hterm _ hd).1
      have hnodup := nodup_distinct (es.filter (· ≠ .const false))
      have hle : (distinct (es.filter (· ≠ .const false))).length ≤ 2 :=
        Nat.le_trans (length_distinct_le _) (Nat.le_trans (List.length_filter_le _ es) hlen)
      match distinct (es.filter (· ≠ .const false)), hterm, hconst, hneg, hnodup, hle with
      | [], _, _, _, _, _ => exact .const false
      | [e], hterm, _, _, _, _ => exact h e (hterm e List.mem_cons_self).1
      | [d, e], hterm, hconst, hneg, hnodup, _ =>
        have hne : d ≠ e := fun hde => (List.nodup_cons.1 hnodup).1 (List.mem_singleton.2 hde)
        exact .or hne hconst hneg (h d (hterm d (by simp)).1) (h e (hterm e (by simp)).1)

/-! ## Rules on normal forms -/

/-- The rule for exclusive ors leaves a normal form as it is. -/
theorem parity_of_normal (h : Normal (.xor es)) : parity es = .xor es := by
  obtain ⟨he, hasc, -⟩ := h.as_sum
  calc parity es = ofSummands (oddTerms (xor es).summands) (xor es).flips := rfl
    _ = ofSummands (xor es).summands (xor es).flips := by rw [oddTerms_of_ascending hasc]
    _ = .xor es := he.symm

/-- The rule for conjunctions leaves a normal form as it is. -/
theorem conjunction_of_normal (h : Normal (.and es)) : conjunction es = .and es := by
  cases h with
  | and hlen hasc hconj hneg _ =>
    have hconst : ∀ value, .const value ∉ es := fun value hmem => nomatch hconj _ hmem
    have hfilter : es.filter (· ≠ .const true) = es :=
      List.filter_eq_self.2 fun d hd => decide_eq_true fun hd' => hconst true (hd' ▸ hd)
    have hkept : keptConjuncts es = es := by
      rw [keptConjuncts, allConjuncts_of_isConjunct hconj, hfilter, Sorted.ofList_of_ascending hasc]
    rw [conjunction_eq, allConjuncts_of_isConjunct hconj, if_neg (hconst false), hkept, hasComplement_eq_false.2 hneg,
      if_neg Bool.false_ne_true, ofConjuncts_of_two_le hlen]

/-- The rule for disjunctions leaves a normal form as it is. -/
theorem disjunction_of_normal (h : Normal (.or es)) : disjunction es = .or es := by
  cases h with
  | @or d e hne hconst hneg _ _ =>
    have hfilter : [d, e].filter (· ≠ .const false) = [d, e] :=
      List.filter_eq_self.2 fun t ht => decide_eq_true fun ht' => hconst false (ht' ▸ ht)
    have hdistinct : distinct [d, e] = [d, e] := by simp [distinct, Ne.symm hne]
    rw [disjunction_eq, if_neg (hconst true), hfilter, hdistinct, hasComplement_eq_false.2 hneg, if_neg Bool.false_ne_true]
    rfl

/-! ## Rounds -/

/-- A round leaves operands as they are, if it leaves each. -/
theorem roundAll_eq_self (h : ∀ e ∈ es, e.round = e) : roundAll es = es := by
  induction es with
  | nil => rfl
  | cons e es ih => rw [roundAll, h e List.mem_cons_self, ih fun d hd => h d (List.mem_cons_of_mem e hd)]

/-- A round leaves a normal form as it is. -/
theorem Normal.round_eq (h : Normal e) : e.round = e := by
  induction h with
  | const value => rfl
  | ref name => rfl
  | not hsum _ ih => rw [round, ih, negation_of_isSummand hsum]
  | and hlen hasc hconj hneg h ih => rw [round, roundAll_eq_self ih, conjunction_of_normal (.and hlen hasc hconj hneg h)]
  | or hne hconst hneg hd he ihd ihe =>
    rw [round, roundAll_eq_self (by simp [ihd, ihe]), disjunction_of_normal (.or hne hconst hneg hd he)]
  | xor flip hlen hasc hsum h ih =>
    have hround := forall_mem_flipped (P := fun e => e.round = e) rfl ih flip
    rw [round, roundAll_eq_self hround, parity_of_normal (.xor flip hlen hasc hsum h)]
  | blackBox h ih => rw [round, roundAll_eq_self ih]

mutual

/-- Whether every disjunction in the tree has at most two operands. -/
def isNarrow : Expression → Bool
  | .const _ | .ref _ => true
  | .not e => e.isNarrow
  | .or es => decide (es.length ≤ 2) && allNarrow es
  | .and es | .xor es | .blackBox _ es => allNarrow es

/-- Whether every disjunction in the trees of the list has at most two operands. -/
def allNarrow : List Expression → Bool
  | [] => true
  | e :: es => e.isNarrow && allNarrow es

end

theorem allNarrow_iff : allNarrow es = true ↔ ∀ e ∈ es, e.isNarrow = true := by
  induction es with
  | nil => simp [allNarrow]
  | cons e es ih => simp [allNarrow, ih]

theorem roundAll_eq (es : List Expression) : roundAll es = es.map round := by
  induction es with
  | nil => rfl
  | cons e es ih => rw [roundAll, ih, List.map_cons]

theorem length_roundAll (es : List Expression) : (roundAll es).length = es.length := by
  rw [roundAll_eq, List.length_map]

mutual

/-- A round gives a normal form, if no disjunction has more than two operands. -/
theorem normal_round : ∀ {e : Expression}, e.isNarrow = true → Normal e.round
  | .const value, _ => .const value
  | .ref name, _ => .ref name
  | .not e, h => normal_negation (normal_round (e := e) h)
  | .and es, h => normal_conjunction (normal_roundAll (l := es) h)
  | .or es, h => by
    rw [isNarrow, Bool.and_eq_true, decide_eq_true_iff] at h
    exact normal_disjunction ((length_roundAll es).symm ▸ h.1) (normal_roundAll (l := es) h.2)
  | .xor es, h => normal_parity (normal_roundAll (l := es) h)
  | .blackBox _ es, h => .blackBox (normal_roundAll (l := es) h)

theorem normal_roundAll : ∀ {l : List Expression}, allNarrow l = true → ∀ e ∈ roundAll l, Normal e
  | [], _ => List.forall_mem_nil _
  | e :: es, h => by
    rw [allNarrow, Bool.and_eq_true] at h
    exact List.forall_mem_cons.2 ⟨normal_round (e := e) h.1, normal_roundAll (l := es) h.2⟩

end

/-- No rule makes a disjunction of more than two operands. -/
theorem pervasive_isNarrow : Pervasive fun e => e.isNarrow = true where
  const _ := rfl
  not := Iff.rfl
  of_xor := allNarrow_iff.1
  xor _ := allNarrow_iff.2
  of_and := allNarrow_iff.1
  and _ := allNarrow_iff.2
  or hd he := by
    change (_ && allNarrow _) = true
    rw [allNarrow, allNarrow, allNarrow, hd, he]
    rfl

mutual

/-- No round leaves a disjunction of more than two operands. -/
theorem isNarrow_round : ∀ e : Expression, e.round.isNarrow = true
  | .const _ | .ref _ => rfl
  | .not e => pervasive_isNarrow.negation (isNarrow_round e)
  | .and es => pervasive_isNarrow.conjunction (isNarrow_roundAll es)
  | .or es => pervasive_isNarrow.disjunction (isNarrow_roundAll es)
  | .xor es => pervasive_isNarrow.parity (isNarrow_roundAll es)
  | .blackBox _ es => allNarrow_iff.2 (isNarrow_roundAll es)

theorem isNarrow_roundAll : ∀ (l : List Expression), ∀ e ∈ roundAll l, e.isNarrow = true
  | [] => List.forall_mem_nil _
  | e :: es => List.forall_mem_cons.2 ⟨isNarrow_round e, isNarrow_roundAll es⟩

end

/-- A second round changes nothing then. -/
theorem round_round (h : e.isNarrow = true) : e.round.round = e.round := (normal_round h).round_eq

/-- Where a round changes nothing, no number of rounds does. -/
theorem roundsUpTo_of_round_eq (h : e.round = e) : ∀ n : Nat, roundsUpTo n e = e
  | 0 => rfl
  | _ + 1 => if_pos h

/-- To stop where a round changes nothing is to make the round all the same. -/
theorem roundsUpTo_succ (n : Nat) (e : Expression) : roundsUpTo (n + 1) e = roundsUpTo n e.round := by
  by_cases h : e.round = e
  · rw [h, roundsUpTo_of_round_eq h, roundsUpTo_of_round_eq h]
  · exact if_neg h

end Expression

namespace Simplifier

/-- The first round is made whatever the limit is. -/
theorem simplify_algebraic (maxRounds : Nat) (e : Expression) :
    (algebraic maxRounds).simplify e = Expression.roundsUpTo (maxRounds - 1) e.round := by
  have hmax : max maxRounds 1 = maxRounds - 1 + 1 := by omega
  change Expression.roundsUpTo (max maxRounds 1) e = _
  rw [hmax, Expression.roundsUpTo_succ]

/-- However many rounds may be made, one gives the result, if no disjunction has more than two operands. -/
theorem algebraic_of_isNarrow {e : Expression} (h : e.isNarrow = true) (n : Nat) : (algebraic n).simplify e = e.round := by
  rw [simplify_algebraic, Expression.roundsUpTo_of_round_eq (Expression.round_round h)]

/-- Two rounds give the result, however many more may be made. -/
theorem algebraic_of_two_le {n : Nat} (hn : 2 ≤ n) (e : Expression) : (algebraic n).simplify e = e.round.round := by
  obtain ⟨k, rfl⟩ := Nat.exists_eq_add_of_le' hn
  have hround := Expression.round_round (Expression.isNarrow_round e)
  rw [simplify_algebraic]
  change Expression.roundsUpTo (k + 1) e.round = _
  rw [Expression.roundsUpTo_succ, Expression.roundsUpTo_of_round_eq hround]

/-- A second round changes nothing where no disjunction has more than two operands, and a third round changes nothing anywhere.
So all limits of two rounds or more give the same, and what they give is left as it is when it is simplified again. -/
theorem algebraic_settles :
    (∀ e : Expression, e.isNarrow = true → e.round.round = e.round) ∧
      (∀ e : Expression, e.round.round.round = e.round.round) ∧
      ∀ (m n : Nat) (e : Expression), 2 ≤ m → 2 ≤ n →
        (algebraic m).simplify ((algebraic m).simplify e) = (algebraic m).simplify e ∧
          (algebraic m).simplify e = (algebraic n).simplify e := by
  have hthird : ∀ e : Expression, e.round.round.round = e.round.round := fun e =>
    Expression.round_round (Expression.isNarrow_round e)
  refine ⟨fun e he => Expression.round_round he, hthird, fun m n e hm hn => ?_⟩
  rw [algebraic_of_two_le hm, algebraic_of_two_le hm, algebraic_of_two_le hn, hthird, hthird]
  exact ⟨rfl, rfl⟩

/-- A disjunction of three. The first operand is the negation of what nesting makes of the other two, so the second round still
finds something to do, and a limit of one round is too low. -/
theorem algebraic_settles_nested :
    let e := Expression.or [.not (.or [.ref "b", .ref "c"]), .ref "b", .ref "c"]
    e.isNarrow = false ∧ e.round = .or [.not (.or [.ref "b", .ref "c"]), .or [.ref "b", .ref "c"]] ∧
      e.round.isNarrow = true ∧ e.round.round = .const true ∧ e.round.round.round = e.round.round ∧
      (algebraic 1).simplify e ≠ (algebraic 2).simplify e ∧ (algebraic 2).simplify e = (algebraic 8).simplify e :=
  ⟨by decide +kernel, by decide +kernel, by decide +kernel, by decide +kernel, algebraic_settles.1 _ (by decide +kernel),
    by decide +kernel, (algebraic_settles.2.2 2 8 _ (by decide) (by decide)).2⟩

end Simplifier

end ReversibleLogic
