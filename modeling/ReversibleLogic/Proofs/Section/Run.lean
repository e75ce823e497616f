import ReversibleLogic.Proofs.Action
import ReversibleLogic.Proofs.Section.Symbols
import ReversibleLogic.Proofs.Value
import ReversibleLogic.Section.Decompile

/-!
# Reading a run of gates

While a run is read, the expression kept for a qubit has the value that the gates read so far leave on the qubit, whatever the
values are with which they start (`Run.Reads`). `Run.Reads.push` says that one more gate keeps it so, and `Run.Reads.toSection`
that the section made of the run says the same by symbols (`Section.Faithful`).
-/

namespace ReversibleLogic

/-- The values that the symbols have when the qubits have the values `s`. -/
def Valuation.ofBits (symbols : List Symbol) (s : Bits) : Valuation := fun name => (symbols.idxOf? name).map s

variable {symbols : List Symbol} {s : Bits} {q : Qubit} {g : Gate} {r r' : Run} {box : Reading}

/-! ## Symbols of qubits -/

/-- A qubit of the register has its symbol. -/
theorem getElem?_symbolOf (h : q < symbols.length) : symbols[q]? = some (Run.symbolOf symbols q) := by
  simp [Run.symbolOf, h]

/-- Distinct symbols belong to distinct qubits. -/
theorem symbolOf_inj (hsym : symbols.Nodup) {p : Qubit} (hp : p < symbols.length) (hq : q < symbols.length)
    (h : Run.symbolOf symbols p = Run.symbolOf symbols q) : p = q := by
  refine (List.getElem?_inj hp hsym).1 ?_
  rw [getElem?_symbolOf hp, getElem?_symbolOf hq, h]

/-- Among distinct symbols, the position of a symbol is where it stands. -/
theorem idxOf?_eq_some_iff_getElem? (hsym : symbols.Nodup) {name : Symbol} {i : Nat} :
    symbols.idxOf? name = some i ↔ symbols[i]? = some name := by
  rw [List.idxOf?_eq_some_iff, List.getElem?_eq_some_iff]
  refine ⟨fun ⟨hi, hget, _⟩ => ⟨hi, hget⟩, fun ⟨hi, hget⟩ => ⟨hi, hget, fun j hj he => ?_⟩⟩
  exact Nat.ne_of_lt hj (hsym.getElem_inj_iff.1 (he.trans hget.symm))

/-- The symbol of a qubit has the value of the qubit. -/
theorem Valuation.ofBits_symbolOf (hsym : symbols.Nodup) (hq : q < symbols.length) (s : Bits) :
    Valuation.ofBits symbols s (Run.symbolOf symbols q) = some (s q) := by
  rw [Valuation.ofBits, (idxOf?_eq_some_iff_getElem? hsym).2 (getElem?_symbolOf hq), Option.map_some]

/-- Distinct symbols paired with the bits of a row have the values of their qubits. -/
theorem Valuation.ofPairs_zip (hsym : symbols.Nodup) {row : List Bool} (hlen : symbols.length ≤ row.length) :
    Valuation.ofPairs (symbols.zip row) = .ofBits symbols (.ofRow row) := by
  -- pairs are set one after another, over values that were there before
  have hover : ∀ env : Valuation, (symbols.zip row).foldl (fun env b => env.set b.1 b.2) env =
      fun name => (Valuation.ofBits symbols (.ofRow row) name).or (env name) := by
    induction symbols generalizing row with
    | nil => exact fun env => rfl
    | cons s symbols ih =>
      intro env
      obtain ⟨hs, hsym⟩ := List.nodup_cons.1 hsym
      cases row with
      | nil => exact absurd hlen (Nat.not_succ_le_zero _)
      | cons b row =>
        rw [List.zip_cons_cons, List.foldl_cons, ih hsym (Nat.le_of_succ_le_succ hlen)]
        funext name
        unfold Valuation.ofBits
        rw [List.idxOf?_cons]
        by_cases hname : s = name
        · subst hname
          rw [List.idxOf?_eq_none_iff.2 hs, if_pos (beq_self_eq_true s), Valuation.set_self]
          rfl
        · rw [if_neg (by simpa using hname), Valuation.set_of_ne env (Ne.symm hname), Option.map_map]
          rfl
  rw [Valuation.ofPairs, hover]
  funext name
  exact Option.or_none

/-! ## One gate -/

namespace Run

/-- The value that a run has for a qubit. One that has not been written has the value of its symbol. -/
def valueOf (symbols : List Symbol) (r : Run) (q : Qubit) : Expression :=
  match r.values.lookup q with
  | some (e, _) => e
  | none => .ref (symbolOf symbols q)

/-- The qubit noted in a list of qubits, the latest first. One that is there already is not noted again. -/
def note (noted : List Qubit) (q : Qubit) : List Qubit := if q ∈ noted then noted else q :: noted

theorem mem_note {noted : List Qubit} {p : Qubit} : p ∈ note noted q ↔ p ∈ noted ∨ p = q := by
  unfold note
  split
  · next hq => exact ⟨Or.inl, fun hp => hp.elim id fun hpq => hpq ▸ hq⟩
  · rw [List.mem_cons, or_comm]

/-- No qubit is noted twice. -/
theorem nodup_note {noted : List Qubit} (h : noted.Nodup) : (note noted q).Nodup := by
  unfold note
  split
  · exact h
  · next hq => exact List.nodup_cons.2 ⟨hq, h⟩

theorem mem_foldl_note {qs : List Qubit} : ∀ {noted : List Qubit}, q ∈ qs.foldl note noted ↔ q ∈ noted ∨ q ∈ qs := by
  induction qs with
  | nil => simp
  | cons p qs ih =>
    intro noted
    rw [List.foldl_cons, ih, mem_note, List.mem_cons, or_assoc]

theorem nodup_foldl_note {qs noted : List Qubit} (h : noted.Nodup) : (qs.foldl note noted).Nodup :=
  List.foldlRecOn (motive := List.Nodup) qs note h fun _ h _ _ => nodup_note h

/-- Touching a qubit gives its value, and notes it as touched. -/
theorem touch_eq_ok {e : Expression} (h : r.touch symbols q = .ok (e, r')) :
    e = r.valueOf symbols q ∧ r' = { r with touched := note r.touched q } := by
  have hnoted : (if q ∈ r.touched then r else { r with touched := q :: r.touched }) =
      { r with touched := note r.touched q } := by
    unfold note
    split
    · rfl
    · rfl
  unfold touch at h
  rw [hnoted] at h
  dsimp only at h
  unfold valueOf
  cases hlook : r.values.lookup q with
  | some v =>
    rw [hlook] at h
    obtain ⟨rfl, rfl⟩ := Prod.mk.inj (Except.ok.inj h)
    exact ⟨rfl, rfl⟩
  | none =>
    rw [hlook] at h
    cases hname : symbols[q]? with
    | none => rw [hname] at h; cases h
    | some name =>
      rw [hname] at h
      obtain ⟨rfl, rfl⟩ := Prod.mk.inj (Except.ok.inj h)
      exact ⟨by simp [symbolOf, hname], rfl⟩

/-- Touching qubits gives their values, and notes them as touched. -/
theorem touchAll_eq_ok {qs : List Qubit} : ∀ {r r' : Run} {es : List Expression}, r.touchAll symbols qs = .ok (es, r') →
    es = qs.map (r.valueOf symbols) ∧ r' = { r with touched := qs.foldl note r.touched } := by
  induction qs with
  | nil =>
    intro r r' es h
    obtain ⟨rfl, rfl⟩ := Prod.mk.inj (Except.ok.inj h)
    exact ⟨rfl, rfl⟩
  | cons q qs ih =>
    intro r r' es h
    unfold touchAll at h
    obtain ⟨⟨e, r₁⟩, hq, h⟩ := Outcome.bind_eq_ok.1 h
    obtain ⟨⟨es', r₂⟩, hqs, h⟩ := Outcome.bind_eq_ok.1 h
    obtain ⟨rfl, rfl⟩ := Prod.mk.inj (Outcome.pure_eq_ok.1 h)
    obtain ⟨rfl, rfl⟩ := touch_eq_ok hq
    obtain ⟨rfl, rfl⟩ := ih hqs
    exact ⟨rfl, rfl⟩

/-- The run after one more gate. -/
theorem push_eq_ok {t : Qubit} (ht : g.target? = some t) (h : r.push symbols g = .ok r') :
    ∃ e, newValue g (g.controls.map (r.valueOf symbols)) (r.valueOf symbols t) = .ok e ∧
      r' = { start := r.start, gates := g :: r.gates, touched := g.qubits.foldl note r.touched,
             written := note r.written t, values := (t, e, r.sizeAfter g) :: r.values.filter (·.1 ≠ t) } := by
  unfold push at h
  rw [ht] at h
  obtain ⟨⟨controls, r₁⟩, hcontrols, hrest⟩ := Outcome.bind_eq_ok.1 h
  obtain ⟨⟨old, r₂⟩, hold, hnew⟩ := Outcome.bind_eq_ok.1 hrest
  obtain ⟨e, he, hret⟩ := Outcome.bind_eq_ok.1 hnew
  obtain ⟨rfl, rfl⟩ := touchAll_eq_ok hcontrols
  obtain ⟨rfl, rfl⟩ := touch_eq_ok hold
  refine ⟨e, he, ?_⟩
  rw [Gate.qubits_eq ht, List.foldl_append]
  exact (Outcome.pure_eq_ok.1 hret).symm

/-- A gate that joins a run does not move the start. -/
theorem push_gates (h : r.push symbols g = .ok r') : r'.gates = g :: r.gates ∧ r'.start = r.start := by
  cases ht : g.target? with
  | none =>
    unfold push at h
    rw [ht] at h
    cases h
  | some t =>
    obtain ⟨e, -, rfl⟩ := push_eq_ok ht h
    exact ⟨rfl, rfl⟩

end Run

/-! ## What a gate adds -/

namespace Expression

/-- The conjunction of expressions that have the values of qubits has the value of the qubits' conjunction. -/
theorem evalFold_and_map {ρ : Valuation} {f : Qubit → Expression} {b : Bits} {qs : List Qubit}
    (h : ∀ q ∈ qs, (f q).eval ρ = .ok (b q)) : evalFold ρ (· && ·) true (qs.map f) = .ok (qs.all b) := by
  induction qs with
  | nil => rfl
  | cons q qs ih =>
    exact evalFold_and_cons (h q List.mem_cons_self) (ih fun p hp => h p (List.mem_cons_of_mem q hp))

/-- The value of an exclusive or of two. -/
theorem eval_xor_pair {ρ : Valuation} {l r : Expression} {a b : Bool} (hl : l.eval ρ = .ok a) (hr : r.eval ρ = .ok b) :
    (xor [l, r]).eval ρ = .ok (a ^^ b) := by
  have hlast : evalFold ρ (· ^^ ·) false [r] = .ok (b ^^ false) := evalFold_xor_cons hr rfl
  rw [Bool.xor_false] at hlast
  exact evalFold_xor_cons hl hlast

end Expression

/-- A gate that fits a register has as many controls as its kind says. -/
theorem Gate.Fits.length_controls {n k : Nat} (h : g.Fits n) (hk : g.kind.arity? = some k) : g.controls.length = k - 1 := by
  rw [Gate.controls, List.length_dropLast, (h.arity k hk).2]

/-- The new value of the target is its old value with the conjunction of the controls added. -/
theorem Run.eval_newValue {n : Nat} {ρ : Valuation} {f : Qubit → Expression} {b : Bits} {old e : Expression} {v : Bool}
    (hfit : g.Fits n) (hcontrols : ∀ q ∈ g.controls, (f q).eval ρ = .ok (b q)) (hold : old.eval ρ = .ok v)
    (h : newValue g (g.controls.map f) old = .ok e) : e.eval ρ = .ok (v ^^ g.controls.all b) := by
  unfold newValue at h
  cases hk : g.kind with
  | barrier => simp [hk] at h
  | blackBox name => simp [hk] at h
  | x =>
    simp only [hk, Except.ok.injEq] at h
    have hnil : g.controls = [] := List.length_eq_zero_iff.1 (hfit.length_controls (k := 1) (by rw [hk]; rfl))
    subst h
    rw [hnil, Expression.eval, hold]
    simp
  | cx =>
    simp only [hk, Except.ok.injEq] at h
    obtain ⟨c, hc⟩ := List.length_eq_one_iff.1 (hfit.length_controls (k := 2) (by rw [hk]; rfl))
    subst h
    rw [hc] at hcontrols ⊢
    rw [List.all_cons, List.all_nil, Bool.and_true, Bool.xor_comm]
    exact Expression.eval_xor_pair (hcontrols c List.mem_cons_self) hold
  | ccx | mcx m =>
    simp only [hk, Except.ok.injEq] at h
    subst h
    rw [Bool.xor_comm]
    exact Expression.eval_xor_pair (Expression.evalFold_and_map hcontrols) hold

/-- The new value of the target has no black box. -/
theorem Run.isBoolean_newValue {controls : List Expression} {old e : Expression}
    (hcontrols : ∀ d ∈ controls, d.isBoolean = true) (hold : old.isBoolean = true) (h : newValue g controls old = .ok e) :
    e.isBoolean = true := by
  unfold newValue at h
  split at h <;> cases h
  · exact hold
  · refine Expression.allBoolean_iff.2 fun d hd => ?_
    rcases List.mem_append.1 hd with hd | hd
    · exact hcontrols d hd
    · exact List.mem_singleton.1 hd ▸ hold
  · simp [Expression.isBoolean, Expression.allBoolean, Expression.allBoolean_iff.2 hcontrols, hold]
  · simp [Expression.isBoolean, Expression.allBoolean, Expression.allBoolean_iff.2 hcontrols, hold]

/-! ## The run as a whole -/

/-- The values with one of them replaced. -/
theorem lookup_replace {β : Type} {l : List (Qubit × β)} {t : Qubit} {v : β} :
    ((t, v) :: l.filter (·.1 ≠ t)).lookup q = if q = t then some v else l.lookup q := by
  by_cases hq : q = t
  · subst hq
    rw [List.lookup_cons_self, if_pos rfl]
  · rw [if_neg hq, List.lookup_cons, beq_false_of_ne hq]
    change (l.filter (·.1 ≠ t)).lookup q = l.lookup q
    induction l with
    | nil => rfl
    | cons b l ih =>
      by_cases hb : b.1 = t
      · rw [List.filter_cons_of_neg (by simpa using hb), ih, List.lookup_cons, beq_false_of_ne (hb ▸ hq)]
      · rw [List.filter_cons_of_pos (by simpa using hb), List.lookup_cons, List.lookup_cons, ih]

namespace Run

/-- The run has gates of the NOT family and keeps for each qubit an expression of the value that they leave there. -/
structure Reads (symbols : List Symbol) (r : Run) : Prop where
  flips : ∀ g ∈ r.gates, g.Flips symbols.length
  value : ∀ q, q < symbols.length → ∀ (box : Reading) (s : Bits),
    (r.valueOf symbols q).eval (.ofBits symbols s) = .ok (actGates box r.gates.reverse s q)
  boolean : ∀ q, (r.valueOf symbols q).isBoolean = true
  /-- The qubits touched are those of the gates, each once. -/
  touched : r.touched.Nodup ∧ ∀ q, q ∈ r.touched ↔ ∃ g ∈ r.gates, q ∈ g.qubits
  /-- The qubits written are those with a value, each once, and they are touched. -/
  written : r.written.Nodup ∧ (∀ q, q ∈ r.written ↔ (r.values.lookup q).isSome = true) ∧ ∀ q ∈ r.written, q ∈ r.touched

/-- Nothing has been read. -/
theorem Reads.empty (hsym : symbols.Nodup) (start : Nat) : Reads symbols { start } :=
  ⟨by simp, fun _ hq _ s => Expression.eval_ref_eq_ok.2 (Valuation.ofBits_symbolOf hsym hq s), fun _ => rfl, by simp, by simp⟩

/-- What is touched is in the register. -/
theorem Reads.range (h : Reads symbols r) (hq : q ∈ r.touched) : q < symbols.length := by
  obtain ⟨g, hg, hqg⟩ := (h.touched.2 q).1 hq
  exact (h.flips g hg).fits.range q hqg

/-- One more gate is read right. -/
theorem Reads.push (h : Reads symbols r) (hg : g.Flips symbols.length) (hpush : r.push symbols g = .ok r') :
    Reads symbols r' := by
  obtain ⟨t, ht⟩ := hg.toggles
  have htg : t ∈ g.qubits := ht.target_mem
  obtain ⟨e, he, rfl⟩ := push_eq_ok ht.target hpush
  refine ⟨?_, ?_, ?_, ⟨nodup_foldl_note h.touched.1, ?_⟩, ⟨nodup_note h.written.1, ?_, ?_⟩⟩
  · intro g' hg'
    rcases List.mem_cons.1 hg' with rfl | hg'
    · exact hg
    · exact h.flips g' hg'
  · intro q hq box s
    rw [List.reverse_cons, actGates_append, actGates_cons, actGates_nil, ht.act_eq, valueOf, lookup_replace]
    by_cases hqt : q = t
    · subst hqt
      rw [if_pos rfl, Function.update_self]
      exact eval_newValue hg.fits (fun c hc => h.value c (hg.fits.range c (ht.control_mem hc)) box s) (h.value q hq box s) he
    · rw [if_neg hqt, Function.update_of_ne hqt]
      exact h.value q hq box s
  · intro q
    rw [valueOf, lookup_replace]
    by_cases hqt : q = t
    · rw [if_pos hqt]
      refine isBoolean_newValue (fun d hd => ?_) (h.boolean t) he
      obtain ⟨c, -, rfl⟩ := List.mem_map.1 hd
      exact h.boolean c
    · rw [if_neg hqt]
      exact h.boolean q
  · intro q
    rw [mem_foldl_note, h.touched.2]
    simp only [List.mem_cons, exists_eq_or_imp, or_comm]
  · intro q
    rw [mem_note, lookup_replace]
    by_cases hqt : q = t
    · simp [hqt]
    · rw [if_neg hqt, ← h.written.2.1 q]
      simp [hqt]
  · intro q hq
    rw [mem_foldl_note]
    rcases mem_note.1 hq with hq | rfl
    · exact Or.inl (h.written.2.2 q hq)
    · exact Or.inr htg

end Run

/-! ## The section of a run -/

/-- The section has gates of the NOT family, one symbol for each of their qubits, and for each symbol an expression of the value
that the gates leave on its qubit. -/
structure Section.Faithful (symbols : List Symbol) (s : Section) : Prop where
  flips : ∀ g ∈ s.gates, g.Flips symbols.length
  names : s.symbolNames = s.qubits.map (Run.symbolOf symbols)
  qubits : s.qubits.Nodup ∧ ∀ q, q ∈ s.qubits ↔ ∃ g ∈ s.gates, q ∈ g.qubits
  value : ∀ q, q < symbols.length → ∀ (box : Reading) (b : Bits),
    (s.expressionOf (Run.symbolOf symbols q)).eval (.ofBits symbols b) = .ok (actGates box s.gates b q)
  boolean : ∀ p ∈ s.expressions, p.2.isBoolean = true

/-- The qubits of a section are in the register. -/
theorem Section.Faithful.range {s : Section} (h : s.Faithful symbols) (hq : q ∈ s.qubits) : q < symbols.length := by
  obtain ⟨g, hg, hqg⟩ := (h.qubits.2 q).1 hq
  exact (h.flips g hg).fits.range q hqg

namespace Run

/-- The expressions of the section of a run are the values of the qubits written, but for those that are unchanged. -/
theorem mem_expressions {name : Symbol} {e : Expression} :
    (name, e) ∈ (r.toSection symbols).expressions ↔
      ∃ q ∈ r.written, (∃ n, r.values.lookup q = some (e, n)) ∧ symbolOf symbols q = name ∧ e ≠ .ref name := by
  unfold toSection
  rw [List.mem_filterMap]
  simp only [List.mem_reverse]
  refine exists_congr fun q => and_congr_right fun _ => ?_
  cases r.values.lookup q with
  | none => simp
  | some v =>
    obtain ⟨d, n⟩ := v
    by_cases href : d.ref? = some (symbolOf symbols q)
    · have hd := Expression.eq_of_ref? href
      simp only [href, beq_self_eq_true, if_true, reduceCtorEq, Option.some.injEq, Prod.mk.injEq, false_iff]
      rintro ⟨⟨m, rfl, -⟩, rfl, hne⟩
      exact hne hd
    · have hd : d ≠ .ref (symbolOf symbols q) := fun hd => href (by rw [hd]; rfl)
      simp only [beq_iff_eq, href, if_false, Option.some.injEq, Prod.mk.injEq]
      constructor
      · rintro ⟨rfl, rfl⟩
        exact ⟨⟨n, rfl, rfl⟩, rfl, hd⟩
      · rintro ⟨⟨m, rfl, -⟩, rfl, -⟩
        exact ⟨rfl, rfl⟩

/-- The expressions of the section of a run, in whatever order, give each symbol the value of its qubit. -/
theorem Reads.lookup_expressions (hsym : symbols.Nodup) (h : Reads symbols r) {l : List (Symbol × Expression)}
    (hl : ∀ b, b ∈ l ↔ b ∈ (r.toSection symbols).expressions) (hq : q < symbols.length) :
    (l.lookup (symbolOf symbols q)).getD (.ref (symbolOf symbols q)) = r.valueOf symbols q := by
  cases hlook : l.lookup (symbolOf symbols q) with
  | some e =>
    obtain ⟨l₁, l₂, hsplit, -⟩ := List.lookup_eq_some_iff.1 hlook
    have hmem : (symbolOf symbols q, e) ∈ l := by simp [hsplit]
    obtain ⟨p, hp, ⟨n, hv⟩, hname, -⟩ := mem_expressions.1 ((hl _).1 hmem)
    obtain rfl := symbolOf_inj hsym (h.range (h.written.2.2 p hp)) hq hname
    rw [Option.getD_some, valueOf, hv]
  | none =>
    rw [Option.getD_none, valueOf]
    cases hv : r.values.lookup q with
    | none => rfl
    | some v =>
      by_contra hne
      have hmem : (symbolOf symbols q, v.1) ∈ l := by
        refine (hl _).2 (mem_expressions.2 ⟨q, (h.written.2.1 q).2 (by rw [hv]; rfl), ⟨v.2, hv⟩, rfl, fun he => hne ?_⟩)
        exact he.symm
      simpa using List.lookup_eq_none_iff.1 hlook _ hmem

/-- The section of a run says what the gates of the run do. -/
theorem Reads.toSection (hsym : symbols.Nodup) (h : Reads symbols r) : (r.toSection symbols).Faithful symbols := by
  have hqubits : (r.toSection symbols).qubits = r.touched.reverse := by
    simp [Section.qubits, Run.toSection, Function.comp_def]
  refine ⟨fun g hg => h.flips g (List.mem_reverse.1 hg), ?_, ?_, fun q hq box b => ?_, fun p hp => ?_⟩
  · rw [hqubits]
    simp [Section.symbolNames, Run.toSection, Function.comp_def]
  · rw [hqubits]
    refine ⟨List.nodup_reverse.2 h.touched.1, fun q => ?_⟩
    rw [List.mem_reverse, h.touched.2]
    simp [Run.toSection]
  · rw [Section.expressionOf, h.lookup_expressions hsym (fun _ => Iff.rfl) hq]
    exact h.value q hq box b
  · obtain ⟨q, -, ⟨n, hv⟩, -⟩ := mem_expressions.1 hp
    have hbool := h.boolean q
    rwa [valueOf, hv] at hbool

end Run

end ReversibleLogic
