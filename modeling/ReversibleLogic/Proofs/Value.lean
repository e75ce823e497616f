import ReversibleLogic.Program
import ReversibleLogic.Proofs.Outcome

/-!
# Values of expressions

The value of an expression depends on the symbols it mentions and on no others (`eval_congr`), and it exists only if all of these
have values (`isSome_of_eval`). Without black boxes that is enough (`exists_eval`). The value of an operator over a list is found
operand by operand (`evalFold_cons`).
-/

namespace ReversibleLogic

namespace Expression

variable {ρ ρ' : Valuation}

/-! ## Expressions without black boxes -/

mutual

/-- Whether there is no black box in the expression. -/
def isBoolean : Expression → Bool
  | .const _ | .ref _ => true
  | .not e => e.isBoolean
  | .and es | .or es | .xor es => allBoolean es
  | .blackBox _ _ => false

/-- Whether there is no black box in any expression of the list. -/
def allBoolean : List Expression → Bool
  | [] => true
  | e :: es => e.isBoolean && allBoolean es

end

theorem allBoolean_iff {es : List Expression} : allBoolean es = true ↔ ∀ e ∈ es, e.isBoolean = true := by
  induction es with
  | nil => simp [allBoolean]
  | cons e es ih => simp [allBoolean, ih]

mutual

/-- Putting expressions without black boxes for symbols puts in no black box. -/
theorem isBoolean_substitute {f : Symbol → Option Expression} (hf : ∀ s d, f s = some d → d.isBoolean = true) :
    ∀ {e : Expression}, e.isBoolean = true → (e.substitute f).isBoolean = true
  | .const _, _ => rfl
  | .ref name, _ => by
    unfold substitute
    cases hd : f name with
    | none => rfl
    | some d => exact hf name d hd
  | .not e, h => isBoolean_substitute hf (e := e) h
  | .and es, h | .or es, h | .xor es, h => allBoolean_substituteAll hf (l := es) h
  | .blackBox _ _, h => nomatch h

theorem allBoolean_substituteAll {f : Symbol → Option Expression} (hf : ∀ s d, f s = some d → d.isBoolean = true) :
    ∀ {l : List Expression}, allBoolean l = true → allBoolean (substituteAll f l) = true
  | [], _ => rfl
  | e :: es, h => by
    rw [allBoolean, Bool.and_eq_true] at h
    rw [substituteAll, allBoolean, Bool.and_eq_true]
    exact ⟨isBoolean_substitute hf (e := e) h.1, allBoolean_substituteAll hf (l := es) h.2⟩

end

/-! ## The symbols that matter -/

/-- An expression that gives a symbol is that symbol. -/
theorem eq_of_ref? {e : Expression} {s : Symbol} (h : e.ref? = some s) : e = .ref s := by
  cases e <;> simp_all [ref?]

mutual

/-- Valuations that agree on the symbols of an expression give it the same value. -/
theorem eval_congr : ∀ {e : Expression}, (∀ s, e.mentions s = true → ρ s = ρ' s) → e.eval ρ = e.eval ρ'
  | .const _, _ => rfl
  | .ref name, h => by simp only [eval, h name (by simp [mentions])]
  | .not e, h => by
    rw [eval, eval, eval_congr (e := e) h]
  | .and es, h | .or es, h | .xor es, h => evalFold_congr (l := es) h _ _
  | .blackBox _ _, _ => rfl

theorem evalFold_congr : ∀ {l : List Expression}, (∀ s, anyMentions s l = true → ρ s = ρ' s) →
    ∀ (op : Bool → Bool → Bool) (acc : Bool), evalFold ρ op acc l = evalFold ρ' op acc l
  | [], _, _, _ => rfl
  | e :: es, h, op, acc => by
    rw [evalFold, evalFold, eval_congr (e := e) fun s hs => h s (by simp [anyMentions, hs])]
    congr 1
    funext v
    exact evalFold_congr (l := es) (fun s hs => h s (by simp [anyMentions, hs])) op _

end

mutual

/-- An expression with a value mentions only symbols with a value. -/
theorem isSome_of_eval : ∀ {e : Expression} {v : Bool}, e.eval ρ = .ok v → ∀ s, e.mentions s = true → (ρ s).isSome = true
  | .const _, _, _, s, hs => by simp [mentions] at hs
  | .ref name, v, h, s, hs => by
    simp only [mentions, beq_iff_eq] at hs
    subst hs
    cases hρ : ρ name with
    | none => simp [eval, hρ] at h
    | some b => rfl
  | .not e, v, h, s, hs => by
    rw [eval, Outcome.bind_eq_ok] at h
    obtain ⟨b, hb, _⟩ := h
    exact isSome_of_eval (e := e) hb s hs
  | .and es, v, h, s, hs | .or es, v, h, s, hs | .xor es, v, h, s, hs => isSome_of_evalFold (l := es) h s hs
  | .blackBox _ _, v, h, s, hs => by simp [eval] at h

theorem isSome_of_evalFold : ∀ {l : List Expression} {op : Bool → Bool → Bool} {acc v : Bool},
    evalFold ρ op acc l = .ok v → ∀ s, anyMentions s l = true → (ρ s).isSome = true
  | [], _, _, _, _, s, hs => by simp [anyMentions] at hs
  | e :: es, op, acc, v, h, s, hs => by
    rw [evalFold, Outcome.bind_eq_ok] at h
    obtain ⟨b, hb, hrest⟩ := h
    rw [anyMentions, Bool.or_eq_true] at hs
    rcases hs with hs | hs
    · exact isSome_of_eval (e := e) hb s hs
    · exact isSome_of_evalFold (l := es) hrest s hs

end

mutual

/-- An expression without black boxes has a value if the symbols that it mentions have one. -/
theorem exists_eval : ∀ {e : Expression}, e.isBoolean = true → (∀ s, e.mentions s = true → (ρ s).isSome = true) →
    ∃ v, e.eval ρ = .ok v
  | .const value, _, _ => ⟨value, rfl⟩
  | .ref name, _, h => by
    obtain ⟨v, hv⟩ := Option.isSome_iff_exists.1 (h name (by simp [mentions]))
    exact ⟨v, by simp only [eval, hv]⟩
  | .not e, hb, h => by
    obtain ⟨v, hv⟩ := exists_eval (e := e) hb h
    exact ⟨!v, by rw [eval, hv]; rfl⟩
  | .and es, hb, h | .or es, hb, h | .xor es, hb, h => exists_evalFold (l := es) hb h _ _
  | .blackBox _ _, hb, _ => nomatch hb

theorem exists_evalFold : ∀ {l : List Expression}, allBoolean l = true → (∀ s, anyMentions s l = true → (ρ s).isSome = true) →
    ∀ (op : Bool → Bool → Bool) (acc : Bool), ∃ v, evalFold ρ op acc l = .ok v
  | [], _, _, _, acc => ⟨acc, rfl⟩
  | e :: es, hb, h, op, acc => by
    rw [allBoolean, Bool.and_eq_true] at hb
    obtain ⟨v, hv⟩ := exists_eval (e := e) hb.1 fun s hs => h s (by simp [anyMentions, hs])
    rw [evalFold, hv]
    exact exists_evalFold (l := es) hb.2 (fun s hs => h s (by simp [anyMentions, hs])) op (op acc v)

end

/-- A valuation that knows more symbols keeps the values that there are. -/
theorem eval_mono (h : ∀ s v, ρ s = some v → ρ' s = some v) {e : Expression} {v : Bool} (he : e.eval ρ = .ok v) :
    e.eval ρ' = .ok v := by
  rw [← he]
  refine eval_congr fun s hs => ?_
  obtain ⟨b, hb⟩ := Option.isSome_iff_exists.1 (isSome_of_eval he s hs)
  rw [hb, h s b hb]

mutual

/-- Adding the symbols of an expression adds the symbols that it mentions. -/
theorem mem_addSymbols {s : Symbol} : ∀ {e : Expression} {found : List Symbol},
    s ∈ e.addSymbols found ↔ s ∈ found ∨ e.mentions s = true
  | .const _, found => by simp [addSymbols, mentions]
  | .ref name, found => by
    rw [addSymbols, Sorted.mem_insert, mentions, beq_iff_eq, or_comm, eq_comm]
  | .not e, found => mem_addSymbols (e := e)
  | .and es, found | .or es, found | .xor es, found | .blackBox _ es, found => mem_addAllSymbols (l := es)

theorem mem_addAllSymbols {s : Symbol} : ∀ {l : List Expression} {found : List Symbol},
    s ∈ addAllSymbols l found ↔ s ∈ found ∨ anyMentions s l = true
  | [], found => by simp [addAllSymbols, anyMentions]
  | e :: es, found => by
    rw [addAllSymbols, mem_addAllSymbols (l := es), mem_addSymbols (e := e), anyMentions, Bool.or_eq_true, or_assoc]

end

/-- The symbols of an expression are those it mentions. -/
theorem mem_symbols {e : Expression} {s : Symbol} : s ∈ e.symbols ↔ e.mentions s = true := by
  rw [symbols, mem_addSymbols]
  simp

mutual

/-- Adding symbols keeps the order. -/
theorem ascending_addSymbols : ∀ {e : Expression} {found : List Symbol}, Sorted.Ascending compare found →
    Sorted.Ascending compare (e.addSymbols found)
  | .const _, _, h => h
  | .ref _, _, h => Sorted.ascending_insert h
  | .not e, _, h => ascending_addSymbols (e := e) h
  | .and es, _, h | .or es, _, h | .xor es, _, h | .blackBox _ es, _, h => ascending_addAllSymbols (l := es) h

theorem ascending_addAllSymbols : ∀ {l : List Expression} {found : List Symbol}, Sorted.Ascending compare found →
    Sorted.Ascending compare (addAllSymbols l found)
  | [], _, h => h
  | e :: es, _, h => ascending_addAllSymbols (l := es) (ascending_addSymbols (e := e) h)

end

/-- The value of a symbol. -/
theorem eval_ref_eq_ok {s : Symbol} {v : Bool} : (ref s).eval ρ = .ok v ↔ ρ s = some v := by
  unfold eval
  cases ρ s with
  | none => simp
  | some b => simp

mutual

/-- Putting expressions for symbols does not change the value, if each has the value of its symbol. -/
theorem eval_substitute {f : Symbol → Option Expression}
    (hf : ∀ s d, f s = some d → ∀ v, ρ s = some v → d.eval ρ = .ok v) :
    ∀ {e : Expression} {v : Bool}, e.eval ρ = .ok v → (e.substitute f).eval ρ = .ok v
  | .const _, _, h => h
  | .ref name, v, h => by
    unfold substitute
    cases hd : f name with
    | none => exact h
    | some d => exact hf name d hd v (eval_ref_eq_ok.1 h)
  | .not e, v, h => by
    rw [eval, Outcome.bind_eq_ok] at h
    obtain ⟨b, hb, hv⟩ := h
    rw [substitute, eval, eval_substitute hf (e := e) hb]
    exact hv
  | .and es, _, h | .or es, _, h | .xor es, _, h => evalFold_substitute hf (l := es) h
  | .blackBox _ _, _, h => by simp [eval] at h

theorem evalFold_substitute {f : Symbol → Option Expression}
    (hf : ∀ s d, f s = some d → ∀ v, ρ s = some v → d.eval ρ = .ok v) :
    ∀ {l : List Expression} {op : Bool → Bool → Bool} {acc v : Bool}, evalFold ρ op acc l = .ok v →
      evalFold ρ op acc (substituteAll f l) = .ok v
  | [], _, _, _, h => h
  | e :: es, op, acc, v, h => by
    rw [evalFold, Outcome.bind_eq_ok] at h
    obtain ⟨b, hb, hrest⟩ := h
    rw [substituteAll, evalFold, eval_substitute hf (e := e) hb]
    exact evalFold_substitute hf (l := es) hrest

end

/-! ## Operators over lists -/

section Fold

variable {op : Bool → Bool → Bool} {unit : Bool} (hassoc : ∀ a b c, op (op a b) c = op a (op b c))
  (hleft : ∀ b, op unit b = b) (hright : ∀ b, op b unit = b)

include hassoc hleft hright

/-- What has been found before is combined with the rest at the end. -/
theorem evalFold_acc (es : List Expression) : ∀ acc, evalFold ρ op acc es = (evalFold ρ op unit es).map (op acc) := by
  induction es with
  | nil => intro acc; simp [evalFold, Except.map, hright]
  | cons e es ih =>
    intro acc
    rw [evalFold, evalFold]
    cases e.eval ρ with
    | error err => rfl
    | ok v =>
      change evalFold ρ op (op acc v) es = (evalFold ρ op (op unit v) es).map (op acc)
      rw [ih (op acc v), ih (op unit v), hleft]
      cases evalFold ρ op unit es with
      | error err => rfl
      | ok u => simp [Except.map, hassoc]

/-- The value over a list is the value of its head combined with the value over its tail. -/
theorem evalFold_cons {e : Expression} {es : List Expression} {v u : Bool} (he : e.eval ρ = .ok v)
    (hes : evalFold ρ op unit es = .ok u) : evalFold ρ op unit (e :: es) = .ok (op v u) := by
  rw [evalFold, he]
  change evalFold ρ op (op unit v) es = _
  rw [evalFold_acc hassoc hleft hright, hleft, hes]
  rfl

end Fold

/-- The value of a conjunction, operand by operand. -/
theorem evalFold_and_cons {e : Expression} {es : List Expression} {v u : Bool} (he : e.eval ρ = .ok v)
    (hes : evalFold ρ (· && ·) true es = .ok u) : evalFold ρ (· && ·) true (e :: es) = .ok (v && u) :=
  evalFold_cons Bool.and_assoc Bool.true_and Bool.and_true he hes

/-- The value of an exclusive or, operand by operand. -/
theorem evalFold_xor_cons {e : Expression} {es : List Expression} {v u : Bool} (he : e.eval ρ = .ok v)
    (hes : evalFold ρ (· ^^ ·) false es = .ok u) : evalFold ρ (· ^^ ·) false (e :: es) = .ok (v ^^ u) :=
  evalFold_cons Bool.xor_assoc Bool.false_xor Bool.xor_false he hes

/-- An exclusive or is the exclusive or of one operand and the others. -/
theorem evalFold_xor_eraseIdx {es : List Expression} : ∀ {i : Nat} {e : Expression} {v u : Bool}, es[i]? = some e →
    e.eval ρ = .ok v → evalFold ρ (· ^^ ·) false (es.eraseIdx i) = .ok u →
    evalFold ρ (· ^^ ·) false es = .ok (v ^^ u) := by
  induction es with
  | nil => simp
  | cons d es ih =>
    intro i e v u hi he hu
    cases i with
    | zero =>
      simp only [List.getElem?_cons_zero, Option.some.injEq] at hi
      subst hi
      exact evalFold_xor_cons he hu
    | succ i =>
      rw [List.eraseIdx_cons_succ, evalFold, Outcome.bind_eq_ok] at hu
      obtain ⟨b, hb, hu⟩ := hu
      rw [Bool.false_xor, evalFold_acc Bool.xor_assoc Bool.false_xor Bool.xor_false] at hu
      cases hrest : evalFold ρ (· ^^ ·) false (es.eraseIdx i) with
      | error err => simp [hrest, Except.map] at hu
      | ok r =>
        rw [hrest] at hu
        simp only [Except.map, Except.ok.injEq] at hu
        rw [evalFold_xor_cons hb (ih (by simpa using hi) he hrest), ← hu]
        simp only [Bool.xor_left_comm]

end Expression

/-! ## Valuations -/

namespace Valuation

@[simp] theorem set_self (ρ : Valuation) (s : Symbol) (v : Bool) : ρ.set s v s = some v := by
  simp [set]

theorem set_of_ne (ρ : Valuation) {s r : Symbol} (h : r ≠ s) (v : Bool) : ρ.set s v r = ρ r := by
  simp [set, h]

/-- A symbol that an expression does not mention may change without changing its value. -/
theorem eval_set {ρ : Valuation} {e : Expression} {s : Symbol} (h : e.mentions s = false) (v : Bool) :
    e.eval (ρ.set s v) = e.eval ρ :=
  Expression.eval_congr fun r hr => set_of_ne ρ (fun he => by rw [he, h] at hr; exact Bool.noConfusion hr) v

end Valuation

end ReversibleLogic
