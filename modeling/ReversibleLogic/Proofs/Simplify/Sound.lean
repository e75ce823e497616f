import ReversibleLogic.Proofs.Simplify

/-!
# Simplification keeps the value

A rule of the simplifier may drop operands, so it can give a value to an expression that has none; where there is a value it stays
(`Simplifier.eval_algebraic`). The rules are read through the values of their operands: a conjunction is `all` of them, a
disjunction `any`, an exclusive or `oddly`. Each rule keeps the one that belongs to its operator, and a round applies the rules to
operands that have kept their values.
-/

namespace ReversibleLogic

namespace Expression

variable {ρ : Valuation} {e d : Expression} {es terms : List Expression} {b flip : Bool}

/-! ## Values of lists of operands -/

/-- The value of the expression, false if it has none. -/
def value (ρ : Valuation) (e : Expression) : Bool := (e.eval ρ).toOption.getD false

/-- The expression has a value. -/
def HasValue (ρ : Valuation) (e : Expression) : Prop := e.eval ρ = .ok (e.value ρ)

/-- Whether an odd number of the expressions are true. -/
def oddly (ρ : Valuation) (es : List Expression) : Bool := es.foldr (fun e odd => e.value ρ ^^ odd) false

theorem value_of_eval (h : e.eval ρ = .ok b) : e.value ρ = b := by
  rw [value, h]
  rfl

/-- What evaluation gives a value to has one. -/
theorem hasValue_of_eval (h : e.eval ρ = .ok b) : e.HasValue ρ := by
  rw [HasValue, value_of_eval h, h]

/-- Evaluation succeeds exactly on expressions that have a value, and gives it. -/
theorem eval_eq_ok_iff : e.eval ρ = .ok b ↔ e.HasValue ρ ∧ e.value ρ = b :=
  ⟨fun h => ⟨hasValue_of_eval h, value_of_eval h⟩, fun ⟨h, hb⟩ => hb ▸ h⟩

@[simp] theorem value_const : (const b).value ρ = b := rfl

@[simp] theorem hasValue_const : (const b).HasValue ρ := rfl

/-- A black box has no value. -/
@[simp] theorem hasValue_blackBox {tag : String} : ¬ (blackBox tag es).HasValue ρ := fun h => nomatch h

/-- A negation has the value that its operand has not. -/
theorem eval_not_eq_ok : (Expression.not e).eval ρ = .ok b ↔ e.eval ρ = .ok !b := by
  rw [eval, Outcome.bind_eq_ok]
  constructor
  · rintro ⟨v, hv, hb⟩
    rw [hv, ← Outcome.pure_eq_ok.1 hb, Bool.not_not]
  · exact fun h => ⟨!b, h, Outcome.pure_eq_ok.2 (Bool.not_not b)⟩

/-- The operator is applied along the list exactly if every operand has a value. -/
theorem evalFold_eq_ok {op : Bool → Bool → Bool} : ∀ {acc : Bool}, evalFold ρ op acc es = .ok b ↔
    (∀ e ∈ es, e.HasValue ρ) ∧ es.foldl (fun acc e => op acc (e.value ρ)) acc = b := by
  induction es with
  | nil => simp [evalFold]
  | cons e es ih =>
    intro acc
    rw [evalFold, Outcome.bind_eq_ok, List.forall_mem_cons, List.foldl_cons]
    constructor
    · rintro ⟨v, hv, hrest⟩
      obtain ⟨he, rfl⟩ := eval_eq_ok_iff.1 hv
      exact ⟨⟨he, (ih.1 hrest).1⟩, (ih.1 hrest).2⟩
    · rintro ⟨⟨he, hes⟩, hb⟩
      exact ⟨e.value ρ, he, ih.2 ⟨hes, hb⟩⟩

/-- Folding with the conjunction asks whether all operands are true. -/
theorem foldl_and (acc : Bool) : es.foldl (fun acc e => acc && e.value ρ) acc = (acc && es.all (value ρ)) := by
  induction es generalizing acc with
  | nil => simp
  | cons e es ih => rw [List.foldl_cons, ih, List.all_cons, Bool.and_assoc]

/-- Folding with the disjunction asks whether one operand is true. -/
theorem foldl_or (acc : Bool) : es.foldl (fun acc e => acc || e.value ρ) acc = (acc || es.any (value ρ)) := by
  induction es generalizing acc with
  | nil => simp
  | cons e es ih => rw [List.foldl_cons, ih, List.any_cons, Bool.or_assoc]

/-- Folding with the exclusive or counts the true operands modulo two. -/
theorem foldl_xor (acc : Bool) : es.foldl (fun acc e => acc ^^ e.value ρ) acc = (acc ^^ oddly ρ es) := by
  induction es generalizing acc with
  | nil => simp [oddly]
  | cons e es ih => rw [List.foldl_cons, ih, Bool.xor_assoc]; rfl

/-- The value of a conjunction. Every operand must have one, even after one that is false. -/
theorem eval_and_eq_ok : (and es).eval ρ = .ok b ↔ (∀ e ∈ es, e.HasValue ρ) ∧ es.all (value ρ) = b := by
  rw [eval, evalFold_eq_ok, foldl_and, Bool.true_and]

/-- The value of a disjunction. Every operand must have one, even after one that is true. -/
theorem eval_or_eq_ok : (or es).eval ρ = .ok b ↔ (∀ e ∈ es, e.HasValue ρ) ∧ es.any (value ρ) = b := by
  rw [eval, evalFold_eq_ok, foldl_or, Bool.false_or]

/-- The value of an exclusive or. -/
theorem eval_xor_eq_ok : (xor es).eval ρ = .ok b ↔ (∀ e ∈ es, e.HasValue ρ) ∧ oddly ρ es = b := by
  rw [eval, evalFold_eq_ok, foldl_xor, Bool.false_xor]

/-! ## Counting modulo two -/

@[simp] theorem oddly_nil : oddly ρ [] = false := rfl

@[simp] theorem oddly_cons : oddly ρ (e :: es) = (e.value ρ ^^ oddly ρ es) := rfl

theorem oddly_append (es ds : List Expression) : oddly ρ (es ++ ds) = (oddly ρ es ^^ oddly ρ ds) := by
  induction es with
  | nil => simp
  | cons e es ih => rw [List.cons_append, oddly_cons, oddly_cons, ih, Bool.xor_assoc]

/-- Only an equal summand is taken away, so the count changes by the value of the summand either way. -/
theorem oddly_toggle (e : Expression) (terms : List Expression) : oddly ρ (toggle e terms) = (e.value ρ ^^ oddly ρ terms) := by
  induction terms with
  | nil => rfl
  | cons t rest ih =>
    unfold toggle
    split
    · rfl
    · next h =>
      rw [eq_of_cmp h, oddly_cons, ← Bool.xor_assoc, Bool.xor_self, Bool.false_xor]
    · rw [oddly_cons, oddly_cons, ih, Bool.xor_left_comm]

/-- Summands that cancel in pairs do not count. -/
theorem oddly_oddTerms (es : List Expression) : oddly ρ (oddTerms es) = oddly ρ es := by
  have hfold : ∀ l acc : List Expression,
      oddly ρ (l.foldl (fun odd e => toggle e odd) acc) = (oddly ρ l ^^ oddly ρ acc) := by
    intro l
    induction l with
    | nil => simp
    | cons e l ih => intro acc; rw [List.foldl_cons, ih, oddly_toggle, oddly_cons, Bool.xor_left_comm, Bool.xor_assoc]
  rw [oddTerms, hfold, oddly_nil, Bool.xor_false]

/-! ## Flattening -/

mutual

/-- The conjuncts of an expression with a value have values, and all of them are true if and only if the expression is. -/
theorem all_conjuncts : ∀ {e : Expression}, e.HasValue ρ →
    (∀ d ∈ e.conjuncts, d.HasValue ρ) ∧ e.conjuncts.all (value ρ) = e.value ρ
  | .and es, h => by
    obtain ⟨hes, hall⟩ := eval_and_eq_ok.1 h
    obtain ⟨hmem, hflat⟩ := all_allConjuncts (l := es) hes
    exact ⟨hmem, hflat.trans hall⟩
  | .const _, h | .ref _, h | .not _, h | .or _, h | .xor _, h =>
    ⟨fun d hd => by rw [List.mem_singleton.1 hd]; exact h, by rw [conjuncts, List.all_cons, List.all_nil, Bool.and_true]⟩
  | .blackBox _ _, h => absurd h hasValue_blackBox

/-- Operands of nested conjunctions have values, and all of them are true if and only if all conjunctions are. -/
theorem all_allConjuncts : ∀ {l : List Expression}, (∀ e ∈ l, e.HasValue ρ) →
    (∀ d ∈ allConjuncts l, d.HasValue ρ) ∧ (allConjuncts l).all (value ρ) = l.all (value ρ)
  | [], _ => ⟨List.forall_mem_nil _, rfl⟩
  | e :: es, h => by
    obtain ⟨hmem, hall⟩ := all_conjuncts (e := e) (h e List.mem_cons_self)
    obtain ⟨hmems, halls⟩ := all_allConjuncts (l := es) fun d hd => h d (List.mem_cons_of_mem e hd)
    refine ⟨fun d hd => (List.mem_append.1 hd).elim (hmem d) (hmems d), ?_⟩
    rw [allConjuncts, List.all_append, hall, halls, List.all_cons]

end

mutual

/-- The summands of an expression with a value have values, and counted together with the flip they give its value. -/
theorem oddly_summands : ∀ {e : Expression}, e.HasValue ρ →
    (∀ d ∈ e.summands, d.HasValue ρ) ∧ (oddly ρ e.summands ^^ e.flips) = e.value ρ
  | .const value, _ => ⟨List.forall_mem_nil _, Bool.false_xor value⟩
  | .not e, h => by
    have he := eval_not_eq_ok.1 h
    obtain ⟨hmem, hodd⟩ := oddly_summands (e := e) (hasValue_of_eval he)
    rw [value_of_eval he] at hodd
    exact ⟨hmem, by rw [summands, flips, Bool.xor_not, hodd, Bool.not_not]⟩
  | .xor es, h => by
    obtain ⟨hes, hodd⟩ := eval_xor_eq_ok.1 h
    obtain ⟨hmem, hflat⟩ := oddly_allSummands (l := es) hes
    exact ⟨hmem, hflat.trans hodd⟩
  | .ref _, h | .and _, h | .or _, h =>
    ⟨fun d hd => by rw [List.mem_singleton.1 hd]; exact h, by simp only [summands, flips, oddly_cons, oddly_nil, Bool.xor_false]⟩
  | .blackBox _ _, h => absurd h hasValue_blackBox

/-- Summands of nested exclusive ors have values. Counted together with the flips, as many of them are true as of the exclusive
ors, modulo two. -/
theorem oddly_allSummands : ∀ {l : List Expression}, (∀ e ∈ l, e.HasValue ρ) →
    (∀ d ∈ allSummands l, d.HasValue ρ) ∧ (oddly ρ (allSummands l) ^^ allFlips l) = oddly ρ l
  | [], _ => ⟨List.forall_mem_nil _, rfl⟩
  | e :: es, h => by
    obtain ⟨hmem, hodd⟩ := oddly_summands (e := e) (h e List.mem_cons_self)
    obtain ⟨hmems, hodds⟩ := oddly_allSummands (l := es) fun d hd => h d (List.mem_cons_of_mem e hd)
    refine ⟨fun d hd => (List.mem_append.1 hd).elim (hmem d) (hmems d), ?_⟩
    rw [allSummands, allFlips, oddly_append, oddly_cons, ← hodd, ← hodds]
    simp only [Bool.xor_assoc, Bool.xor_left_comm]

end

/-! ## Rules for each operator -/

/-- What is made of summands and a flip has the value that these give. -/
theorem eval_ofSummands (h : ∀ d ∈ terms, d.HasValue ρ) : (ofSummands terms flip).eval ρ = .ok (oddly ρ terms ^^ flip) := by
  unfold ofSummands
  split
  · rw [eval, oddly_nil, Bool.false_xor]
  · next e =>
    have he := h e List.mem_cons_self
    rw [oddly_cons, oddly_nil, Bool.xor_false]
    cases flip with
    | false => rw [Bool.xor_false]; exact he
    | true => rw [Bool.xor_true]; exact eval_not_eq_ok.2 (by rw [Bool.not_not]; exact he)
  · cases flip with
    | false => rw [Bool.xor_false]; exact eval_xor_eq_ok.2 ⟨h, rfl⟩
    | true => exact eval_xor_eq_ok.2 ⟨forall_mem_flipped hasValue_const h true, oddly_append ..⟩

/-- The rule for exclusive ors keeps the value. -/
theorem eval_parity (h : (xor es).eval ρ = .ok b) : (parity es).eval ρ = .ok b := by
  obtain ⟨hes, rfl⟩ := eval_xor_eq_ok.1 h
  obtain ⟨hmem, hodd⟩ := oddly_allSummands hes
  have hterms : ∀ d ∈ oddTerms (allSummands es), d.HasValue ρ := fun d hd => hmem d (mem_of_mem_oddTerms hd)
  rw [parity_eq, eval_ofSummands hterms, oddly_oddTerms, hodd]

/-- The rule for negations gives the other value. -/
theorem eval_negation (h : e.eval ρ = .ok b) : (negation e).eval ρ = .ok !b := by
  cases e with
  | const value => rw [← Except.ok.inj h]; rfl
  | not e => exact eval_not_eq_ok.1 h
  | xor es =>
    obtain ⟨hes, rfl⟩ := eval_xor_eq_ok.1 h
    refine eval_parity (eval_xor_eq_ok.2 ⟨forall_mem_flipped hasValue_const hes true, ?_⟩)
    rw [oddly_append, oddly_cons, oddly_nil, value_const, Bool.xor_false, Bool.xor_true]
  | ref name => exact eval_not_eq_ok.2 (by rw [Bool.not_not]; exact h)
  | and es => exact eval_not_eq_ok.2 (by rw [Bool.not_not]; exact h)
  | or es => exact eval_not_eq_ok.2 (by rw [Bool.not_not]; exact h)
  | blackBox tag es => nomatch h

/-- Of two complementary terms one is true and one is false. -/
theorem exists_of_hasComplement (h : ∀ d ∈ terms, d.HasValue ρ) (hc : hasComplement terms = true) (b : Bool) :
    ∃ t ∈ terms, t.value ρ = b := by
  obtain ⟨t, ht, hneg⟩ := List.any_eq_true.1 hc
  by_cases hb : t.value ρ = b
  · exact ⟨t, ht, hb⟩
  · refine ⟨negation t, of_decide_eq_true hneg, ?_⟩
    rw [value_of_eval (eval_negation (h t ht)), Bool.eq_not_of_ne hb, Bool.not_not]

/-- What is made of conjuncts is true if and only if all of them are. -/
theorem eval_ofConjuncts (h : ∀ d ∈ terms, d.HasValue ρ) : (ofConjuncts terms).eval ρ = .ok (terms.all (value ρ)) := by
  unfold ofConjuncts
  split
  · rfl
  · next e => rw [List.all_cons, List.all_nil, Bool.and_true]; exact h e List.mem_cons_self
  · exact eval_and_eq_ok.2 ⟨h, rfl⟩

/-- The rule for conjunctions keeps the value: a constant or a complementary pair decides it, and what is left out is true. -/
theorem eval_conjunction (h : (and es).eval ρ = .ok b) : (conjunction es).eval ρ = .ok b := by
  obtain ⟨hes, rfl⟩ := eval_and_eq_ok.1 h
  obtain ⟨hmem, hall⟩ := all_allConjuncts hes
  rw [← hall, conjunction_eq]
  split
  · next hfalse => rw [List.all_eq_false.2 ⟨_, hfalse, Bool.false_ne_true⟩]; rfl
  · have hterms : ∀ d ∈ keptConjuncts es, d.HasValue ρ := fun d hd => hmem d (mem_keptConjuncts.1 hd).1
    split
    · next hc =>
      obtain ⟨t, ht, hfalse⟩ := exists_of_hasComplement hterms hc false
      rw [List.all_eq_false.2 ⟨t, (mem_keptConjuncts.1 ht).1, by rw [hfalse]; exact Bool.false_ne_true⟩]
      rfl
    · rw [eval_ofConjuncts hterms]
      congr 1
      rw [Bool.eq_iff_iff, List.all_eq_true, List.all_eq_true]
      refine ⟨fun hsome d hd => ?_, fun hsome d hd => hsome d (mem_keptConjuncts.1 hd).1⟩
      by_cases htrue : d = .const true
      · rw [htrue, value_const]
      · exact hsome d (mem_keptConjuncts.2 ⟨hd, htrue⟩)

/-- Nested to the right, operands have the value of their disjunction. -/
theorem eval_ofDisjuncts (h : ∀ d ∈ terms, d.HasValue ρ) : (ofDisjuncts terms).eval ρ = .ok (terms.any (value ρ)) := by
  fun_induction ofDisjuncts terms with
  | case1 => rfl
  | case2 e => rw [List.any_cons, List.any_nil, Bool.or_false]; exact h e (List.mem_singleton_self e)
  | case3 e es _ ih =>
    obtain ⟨hrest, hany⟩ := eval_eq_ok_iff.1 (ih fun d hd => h d (List.mem_cons_of_mem e hd))
    refine eval_or_eq_ok.2 ⟨fun d hd => ?_, ?_⟩
    · rcases List.mem_cons.1 hd with rfl | hd
      · exact h d List.mem_cons_self
      · rw [List.mem_singleton.1 hd]
        exact hrest
    · rw [List.any_cons, List.any_cons, List.any_nil, Bool.or_false, hany, List.any_cons]

/-- The rule for disjunctions keeps the value: a constant or a complementary pair decides it, and what is left out is false or is
there once more. -/
theorem eval_disjunction (h : (or es).eval ρ = .ok b) : (disjunction es).eval ρ = .ok b := by
  obtain ⟨hes, rfl⟩ := eval_or_eq_ok.1 h
  rw [disjunction_eq]
  split
  · next htrue => rw [List.any_eq_true.2 ⟨_, htrue, value_const⟩]; rfl
  · have hterm : ∀ d, d ∈ distinct (es.filter (· ≠ .const false)) ↔ d ∈ es ∧ d ≠ .const false := fun d => by
      rw [mem_distinct, List.mem_filter, decide_eq_true_iff]
    have hterms := fun d hd => hes d ((hterm d).1 hd).1
    split
    · next hc =>
      obtain ⟨t, ht, htrue⟩ := exists_of_hasComplement hterms hc true
      rw [List.any_eq_true.2 ⟨t, ((hterm t).1 ht).1, htrue⟩]
      rfl
    · rw [eval_ofDisjuncts hterms]
      congr 1
      rw [Bool.eq_iff_iff, List.any_eq_true, List.any_eq_true]
      constructor
      · rintro ⟨d, hd, htrue⟩
        exact ⟨d, ((hterm d).1 hd).1, htrue⟩
      · rintro ⟨d, hd, htrue⟩
        exact ⟨d, (hterm d).2 ⟨hd, fun hfalse => by rw [hfalse] at htrue; exact Bool.false_ne_true htrue⟩, htrue⟩

/-! ## Rounds -/

mutual

/-- A round keeps the value. -/
theorem eval_round : ∀ {e : Expression} {b : Bool}, e.eval ρ = .ok b → e.round.eval ρ = .ok b
  | .const _, _, h | .ref _, _, h => h
  | .not e, b, h => by
    rw [round, eval_negation (eval_round (e := e) (eval_not_eq_ok.1 h)), Bool.not_not]
  | .and es, _, h => eval_conjunction (evalFold_roundAll (l := es) h)
  | .or es, _, h => eval_disjunction (evalFold_roundAll (l := es) h)
  | .xor es, _, h => eval_parity (evalFold_roundAll (l := es) h)
  | .blackBox _ _, _, h => nomatch h

theorem evalFold_roundAll : ∀ {l : List Expression} {op : Bool → Bool → Bool} {acc b : Bool}, evalFold ρ op acc l = .ok b →
    evalFold ρ op acc (roundAll l) = .ok b
  | [], _, _, _, h => h
  | e :: es, op, acc, b, h => by
    obtain ⟨v, hv, hrest⟩ := Outcome.bind_eq_ok.1 h
    rw [roundAll, evalFold, eval_round (e := e) hv]
    exact evalFold_roundAll (l := es) hrest

end

/-- So does any number of rounds. -/
theorem eval_roundsUpTo (n : Nat) (h : e.eval ρ = .ok b) : (roundsUpTo n e).eval ρ = .ok b :=
  roundsUpTo_keeps (P := fun e => e.eval ρ = .ok b) eval_round n h

end Expression

/-- Where an expression has a value, the simplified expression has that value, whatever the limit on the rounds, the number of
operands of the operators in it and the valuation. -/
theorem Simplifier.eval_algebraic (maxRounds : Nat) {e : Expression} {ρ : Valuation} {b : Bool} (h : e.eval ρ = .ok b) :
    ((Simplifier.algebraic maxRounds).simplify e).eval ρ = .ok b :=
  Expression.eval_roundsUpTo _ h

/-- A disjunction of three, nested exclusive ors with an empty one, a repeated operand and a conjunction of nothing, where no
round is asked for. A term of the disjunction and its negation meet, and only one symbol is left. -/
theorem Simplifier.eval_algebraic_cancelling :
    let e := Expression.and [.or [.ref "a", .not (.ref "b"), .not (.ref "a")],
      .xor [.ref "b", .not (.xor [.ref "b", .xor [], .ref "a"]), .and []], .and []]
    let ρ : Valuation := fun s => if s = "a" then some true else if s = "b" then some false else none
    e.eval ρ = .ok true ∧ (Simplifier.algebraic 0).simplify e = .ref "a" ∧
      ((Simplifier.algebraic 0).simplify e).eval ρ = .ok true :=
  ⟨rfl, by decide +kernel, Simplifier.eval_algebraic 0 rfl⟩

end ReversibleLogic
