import ReversibleLogic.Proofs.Value
import ReversibleLogic.Simplify

/-!
# What simplification puts together

Every rule of the simplifier builds its result from operands of the operator and from constants, and makes no conjunction or
exclusive or of fewer than two operands. So a property that constants have, that passes from a node to its operands, and from two
operands or more to a node made of them, passes from the operands of a rule to its result (`Pervasive`). One such property is to
be without black boxes: an expression without black boxes is simplified to one without black boxes
(`Simplifier.isBoolean_algebraic`).
-/

namespace ReversibleLogic

namespace Expression

variable {P : Expression → Prop} {e d : Expression} {es terms : List Expression}

/-- Constants have the property, a negation has it exactly if its operand does, the operands of an exclusive or that has it have
it, and an exclusive or of two operands or more has it if they do. -/
structure XorPervasive (P : Expression → Prop) : Prop where
  const : ∀ value, P (.const value)
  not : ∀ {e}, P (.not e) ↔ P e
  of_xor : ∀ {es}, P (.xor es) → ∀ e ∈ es, P e
  xor : ∀ {es}, 2 ≤ es.length → (∀ e ∈ es, P e) → P (.xor es)

/-- Beside this, the same holds for conjunctions, and a disjunction of two has the property if both do. -/
structure Pervasive (P : Expression → Prop) : Prop extends XorPervasive P where
  of_and : ∀ {es}, P (.and es) → ∀ e ∈ es, P e
  and : ∀ {es}, 2 ≤ es.length → (∀ e ∈ es, P e) → P (.and es)
  or : ∀ {d e}, P d → P e → P (.or [d, e])

/-! ## Flattening -/

mutual

/-- The conjuncts of an expression with the property have it. -/
theorem Pervasive.of_mem_conjuncts (hP : Pervasive P) : ∀ {e : Expression}, P e → ∀ d ∈ e.conjuncts, P d
  | .and es, h => hP.of_mem_allConjuncts (l := es) (hP.of_and h)
  | .const _, h | .ref _, h | .not _, h | .or _, h | .xor _, h | .blackBox _ _, h => fun d hd => by
    rw [List.mem_singleton.1 hd]
    exact h

theorem Pervasive.of_mem_allConjuncts (hP : Pervasive P) : ∀ {l : List Expression}, (∀ e ∈ l, P e) →
    ∀ d ∈ allConjuncts l, P d
  | [], _ => fun _ hd => nomatch hd
  | e :: es, h => fun d hd => by
    rcases List.mem_append.1 hd with hd | hd
    · exact hP.of_mem_conjuncts (h e List.mem_cons_self) d hd
    · exact hP.of_mem_allConjuncts (fun e he => h e (List.mem_cons_of_mem _ he)) d hd

end

mutual

/-- So have its summands. -/
theorem XorPervasive.of_mem_summands (hP : XorPervasive P) : ∀ {e : Expression}, P e → ∀ d ∈ e.summands, P d
  | .const _, _ => fun _ hd => nomatch hd
  | .not e, h => hP.of_mem_summands (e := e) (hP.not.1 h)
  | .xor es, h => hP.of_mem_allSummands (l := es) (hP.of_xor h)
  | .ref _, h | .and _, h | .or _, h | .blackBox _ _, h => fun d hd => by
    rw [List.mem_singleton.1 hd]
    exact h

theorem XorPervasive.of_mem_allSummands (hP : XorPervasive P) : ∀ {l : List Expression}, (∀ e ∈ l, P e) →
    ∀ d ∈ allSummands l, P d
  | [], _ => fun _ hd => nomatch hd
  | e :: es, h => fun d hd => by
    rcases List.mem_append.1 hd with hd | hd
    · exact hP.of_mem_summands (h e List.mem_cons_self) d hd
    · exact hP.of_mem_allSummands (fun e he => h e (List.mem_cons_of_mem _ he)) d hd

end

/-! ## Rules -/

/-- What is left after a summand has been added is the summand or was there. -/
theorem mem_toggle (h : d ∈ toggle e terms) : d = e ∨ d ∈ terms := by
  induction terms with
  | nil => exact Or.inl (List.mem_singleton.1 h)
  | cons t rest ih =>
    unfold toggle at h
    split at h
    · exact List.mem_cons.1 h
    · exact Or.inr (List.mem_cons_of_mem t h)
    · rcases List.mem_cons.1 h with rfl | h
      · exact Or.inr List.mem_cons_self
      · exact (ih h).imp_right (List.mem_cons_of_mem t)

/-- The summands that occur an odd number of times in a list, ascending. -/
def oddTerms (l : List Expression) : List Expression := l.foldl (fun odd e => toggle e odd) []

/-- The rule for exclusive ors: the operands of nested ones are counted, and those that are left make up the result. -/
theorem parity_eq (es : List Expression) : parity es = ofSummands (oddTerms (allSummands es)) (allFlips es) := rfl

/-- No summand is left that was not there. -/
theorem mem_of_mem_oddTerms (h : d ∈ oddTerms es) : d ∈ es := by
  revert h
  refine List.foldlRecOn (motive := fun odd => d ∈ odd → d ∈ es) es _ (fun h => nomatch h) fun odd ih e he h => ?_
  rcases mem_toggle h with rfl | h
  · exact he
  · exact ih h

/-- The operands that a conjunction keeps, ascending: those of nested conjunctions, but for the constant that changes nothing. -/
def keptConjuncts (es : List Expression) : List Expression :=
  Sorted.ofList cmp ((allConjuncts es).filter (· ≠ .const true))

/-- The rule for conjunctions: a false operand decides, then a complementary pair, and otherwise the operands that are kept make
up the result. -/
theorem conjunction_eq (es : List Expression) : conjunction es =
    if .const false ∈ allConjuncts es then .const false
    else if hasComplement (keptConjuncts es) then .const false
    else ofConjuncts (keptConjuncts es) := rfl

theorem mem_keptConjuncts : d ∈ keptConjuncts es ↔ d ∈ allConjuncts es ∧ d ≠ .const true := by
  rw [keptConjuncts, Sorted.mem_ofList, List.mem_filter, decide_eq_true_iff]

/-- The list with each element where it first occurs, and nowhere else. -/
def distinct (l : List Expression) : List Expression :=
  l.foldl (fun kept e => if e ∈ kept then kept else kept ++ [e]) []

/-- The rule for disjunctions: a true operand decides, then a complementary pair, and otherwise the distinct operands that are not
false are nested. -/
theorem disjunction_eq (es : List Expression) : disjunction es =
    if .const true ∈ es then .const true
    else if hasComplement (distinct (es.filter (· ≠ .const false))) then .const true
    else ofDisjuncts (distinct (es.filter (· ≠ .const false))) := rfl

/-- Nothing is lost when repeated operands are left out. -/
theorem mem_distinct : d ∈ distinct es ↔ d ∈ es := by
  have hfold : ∀ l kept : List Expression,
      d ∈ l.foldl (fun kept e => if e ∈ kept then kept else kept ++ [e]) kept ↔ d ∈ kept ∨ d ∈ l := by
    intro l
    induction l with
    | nil => simp
    | cons e l ih =>
      intro kept
      rw [List.foldl_cons, ih, List.mem_cons, ← or_assoc]
      refine or_congr_left ?_
      split
      · next he => exact ⟨Or.inl, fun h => h.elim id fun hd => hd ▸ he⟩
      · rw [List.mem_append, List.mem_singleton]
  rw [distinct, hfold]
  exact or_iff_right List.not_mem_nil

/-- What the summands and the constant have in common, the operands have, whether there is a flip or not. -/
theorem forall_mem_flipped (hconst : P (.const true)) (h : ∀ e ∈ terms, P e) (flip : Bool) :
    ∀ e ∈ (if flip then terms ++ [.const true] else terms), P e := by
  cases flip with
  | false => exact h
  | true => exact List.forall_mem_append.2 ⟨h, List.forall_mem_singleton.2 hconst⟩

namespace XorPervasive

/-- What is made of summands with the property has it. -/
theorem ofSummands (hP : XorPervasive P) (h : ∀ d ∈ terms, P d) (flip : Bool) : P (ofSummands terms flip) := by
  match terms, h with
  | [], _ => exact hP.const flip
  | [e], h =>
    have he := h e List.mem_cons_self
    cases flip with
    | false => exact he
    | true => exact hP.not.2 he
  | d :: e :: rest, h =>
    refine hP.xor ?_ (forall_mem_flipped (hP.const true) h flip)
    cases flip <;> simp

/-- The rule for exclusive ors keeps the property. -/
theorem parity (hP : XorPervasive P) (h : ∀ e ∈ es, P e) : P (parity es) := by
  rw [parity_eq]
  exact hP.ofSummands (fun d hd => hP.of_mem_allSummands h d (mem_of_mem_oddTerms hd)) _

/-- So does the rule for negations. -/
theorem negation (hP : XorPervasive P) (h : P e) : P (negation e) := by
  cases e with
  | const value => exact hP.const _
  | not e => exact hP.not.1 h
  | xor es => exact hP.parity (forall_mem_flipped (hP.const true) (hP.of_xor h) true)
  | ref name => exact hP.not.2 h
  | and es => exact hP.not.2 h
  | or es => exact hP.not.2 h
  | blackBox tag es => exact hP.not.2 h

end XorPervasive

namespace Pervasive

/-- What is made of conjuncts with the property has it. -/
theorem ofConjuncts (hP : Pervasive P) (h : ∀ d ∈ terms, P d) : P (ofConjuncts terms) := by
  match terms, h with
  | [], _ => exact hP.const true
  | [e], h => exact h e List.mem_cons_self
  | _ :: _ :: _, h => exact hP.and (by simp) h

/-- The rule for conjunctions keeps the property. -/
theorem conjunction (hP : Pervasive P) (h : ∀ e ∈ es, P e) : P (conjunction es) := by
  rw [conjunction_eq]
  split
  · exact hP.const false
  · split
    · exact hP.const false
    · exact hP.ofConjuncts fun d hd => hP.of_mem_allConjuncts h d (mem_keptConjuncts.1 hd).1

/-- What is made of disjuncts with the property has it. -/
theorem ofDisjuncts (hP : Pervasive P) (h : ∀ d ∈ terms, P d) : P (ofDisjuncts terms) := by
  fun_induction Expression.ofDisjuncts terms with
  | case1 => exact hP.const false
  | case2 e => exact h e (List.mem_singleton_self e)
  | case3 e es _ ih => exact hP.or (h e List.mem_cons_self) (ih fun d hd => h d (List.mem_cons_of_mem e hd))

/-- The rule for disjunctions keeps the property. -/
theorem disjunction (hP : Pervasive P) (h : ∀ e ∈ es, P e) : P (disjunction es) := by
  rw [disjunction_eq]
  split
  · exact hP.const true
  · split
    · exact hP.const true
    · exact hP.ofDisjuncts fun d hd => h d (List.mem_filter.1 (mem_distinct.1 hd)).1

end Pervasive

/-! ## Black boxes -/

/-- To be without black boxes is such a property. -/
theorem pervasive_isBoolean : Pervasive fun e => e.isBoolean = true where
  const _ := rfl
  not := Iff.rfl
  of_xor := allBoolean_iff.1
  xor _ := allBoolean_iff.2
  of_and := allBoolean_iff.1
  and _ := allBoolean_iff.2
  or hd he := by
    change allBoolean _ = true
    rw [allBoolean, allBoolean, allBoolean, hd, he]
    rfl

mutual

/-- A round puts in no black box. -/
theorem isBoolean_round : ∀ {e : Expression}, e.isBoolean = true → e.round.isBoolean = true
  | .const _, _ | .ref _, _ => rfl
  | .not e, h => pervasive_isBoolean.negation (isBoolean_round (e := e) h)
  | .and es, h => pervasive_isBoolean.conjunction (allBoolean_iff.1 (allBoolean_roundAll (l := es) h))
  | .or es, h => pervasive_isBoolean.disjunction (allBoolean_iff.1 (allBoolean_roundAll (l := es) h))
  | .xor es, h => pervasive_isBoolean.parity (allBoolean_iff.1 (allBoolean_roundAll (l := es) h))
  | .blackBox _ _, h => nomatch h

theorem allBoolean_roundAll : ∀ {l : List Expression}, allBoolean l = true → allBoolean (roundAll l) = true
  | [], _ => rfl
  | e :: es, h => by
    rw [allBoolean, Bool.and_eq_true] at h
    rw [roundAll, allBoolean, Bool.and_eq_true]
    exact ⟨isBoolean_round (e := e) h.1, allBoolean_roundAll (l := es) h.2⟩

end

/-- What one round keeps, any number of rounds keep. -/
theorem roundsUpTo_keeps (hround : ∀ {e}, P e → P e.round) : ∀ (n : Nat) {e : Expression}, P e → P (roundsUpTo n e)
  | 0, _, h => h
  | n + 1, e, h => by
    unfold roundsUpTo
    dsimp only
    split
    · exact h
    · exact roundsUpTo_keeps hround n (hround h)

end Expression

/-- The algebraic simplifier puts in no black box, whatever the limit on its rounds. -/
theorem Simplifier.isBoolean_algebraic (maxRounds : Nat) {e : Expression} (h : e.isBoolean = true) :
    ((Simplifier.algebraic maxRounds).simplify e).isBoolean = true :=
  Expression.roundsUpTo_keeps (P := fun e => e.isBoolean = true) Expression.isBoolean_round _ h

end ReversibleLogic
