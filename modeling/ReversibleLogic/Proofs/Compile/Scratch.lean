import ReversibleLogic.Proofs.Compile.Simultaneous

/-!
# Scratch qubits of a compilation in place

Behind the qubits of the symbols, a circuit that is compiled in place has scratch qubits without names and the qubits of the two
constants (`Furnished`). The former are driven back to 0 after each assignment. The latter are not, and the qubit that the circuit
calls `TRUE` is flipped when it is first asked for. So behind the symbols the circuit leaves 0 on every qubit but that one, and it
has that one exactly if some assignment asks for the constant (`compileInPlace_scratch`).
-/

namespace ReversibleLogic

namespace Workspace

variable {k : Nat} {w w' : Workspace} {a : Assignment} {zeroed : List Symbol} {q : Qubit}

/-! ## The qubits behind the symbols -/

/-- From `k` on, the register holds scratch qubits without names and the qubits of constants, and the circuit has the names of the
constants. -/
structure Furnished (k : Nat) (w : Workspace) : Prop where
  outputs : w.outputs = []
  bound_lt : ∀ q ∈ w.circuit.bound, q < w.circuit.numQubits
  kind : ∀ q, k ≤ q → q < w.circuit.numQubits →
    (q ∈ w.circuit.ancillas ∧ q ∉ w.circuit.bound) ∨ ∃ v, w.constQubit v = some q
  named : ∀ v q, k ≤ q → (w.circuit.qubit? (constName v) = some q ↔ w.constQubit v = some q)

namespace Furnished

/-- The qubit that the circuit calls `TRUE` holds the constant. -/
theorem qubit?_true (h : Furnished k w) (hle : k ≤ q) : w.circuit.qubit? "TRUE" = some q ↔ w.constQubit true = some q :=
  h.named true q hle

/-- Only the register, its names and scratch qubits, and the qubits of the constants matter. -/
theorem congr (h : Furnished k w) (hout : w'.outputs = w.outputs) (hnum : w'.circuit.numQubits = w.circuit.numQubits)
    (hancillas : w'.circuit.ancillas = w.circuit.ancillas) (hbound : w'.circuit.bound = w.circuit.bound)
    (hnames : w'.circuit.names = w.circuit.names) (hconst : ∀ v, w'.constQubit v = w.constQubit v) : Furnished k w' := by
  refine ⟨hout.trans h.outputs, ?_, ?_, ?_⟩
  · rw [hbound, hnum]
    exact h.bound_lt
  · rw [hnum, hancillas, hbound]
    simp only [hconst]
    exact h.kind
  · simp only [Circuit.qubit?, hnames, hconst]
    exact h.named

/-- A scratch qubit that is taken was there, or is added. -/
theorem takeAncilla (h : Furnished k w) : Furnished k { w with circuit := w.circuit.takeAncilla.1 } := by
  unfold Circuit.takeAncilla
  split
  · exact h.congr rfl rfl rfl rfl rfl fun v => by cases v <;> rfl
  · have hnum : (w.circuit.addAncilla false).1.numQubits = w.circuit.numQubits + 1 := List.length_append
    refine ⟨h.outputs, fun q hq => ?_, fun q hle hlt => ?_, fun v q hq => ?_⟩
    · exact Nat.lt_of_lt_of_le (h.bound_lt q hq) (hnum ▸ Nat.le_succ _)
    · rcases Nat.lt_succ_iff_lt_or_eq.1 (hnum ▸ hlt) with hold | rfl
      · refine (h.kind q hle hold).imp (fun ⟨ha, hb⟩ => ⟨QubitSet.mem_insert.2 (Or.inr ha), hb⟩) fun ⟨v, hv⟩ => ⟨v, ?_⟩
        cases v <;> exact hv
      · exact Or.inl ⟨QubitSet.mem_insert.2 (Or.inl rfl), fun hb => Nat.lt_irrefl _ (h.bound_lt _ hb)⟩
    · cases v <;> exact h.named _ q hq

/-- The qubit of a constant is added with its name. -/
theorem addConst (h : Furnished k w) {v : Bool} (hv : w.constQubit v = none) : Furnished k (w.addConst v) := by
  have hnum : (w.addConst v).circuit.numQubits = w.circuit.numQubits + 1 := Circuit.numQubits_addQubit ..
  refine ⟨h.outputs, fun q hq => ?_, fun q hle hlt => ?_, fun u q hq => ?_⟩
  · rcases Circuit.mem_bound_addQubit hq with hq | rfl
    · exact Nat.lt_of_lt_of_le (h.bound_lt q hq) (hnum ▸ Nat.le_succ _)
    · exact hnum ▸ Nat.lt_succ_self _
  · rcases Nat.lt_succ_iff_lt_or_eq.1 (hnum ▸ hlt) with hold | rfl
    · refine (h.kind q hle hold).imp (fun ⟨ha, hb⟩ => ⟨ha, fun hq => ?_⟩) fun ⟨u, hu⟩ => ⟨u, ?_⟩
      · exact (Circuit.mem_bound_addQubit hq).elim hb (Nat.ne_of_lt hold)
      · have hne : u ≠ v := fun huv => by simp [huv, hv] at hu
        rw [constQubit_addConst, if_neg hne, hu]
    · exact Or.inr ⟨v, by rw [constQubit_addConst, if_pos rfl]⟩
  · change (w.circuit.names.insert (constName v) w.circuit.numQubits).get? (constName u) = some q ↔ _
    rw [constQubit_addConst]
    by_cases huv : u = v
    · rw [huv, NameMap.get?_insert_self, if_pos rfl]
    · rw [NameMap.get?_insert_of_ne _ fun hname => huv (constName_injective hname), if_neg huv]
      exact h.named u q hq

/-- Every change that lowering makes keeps the qubits so. -/
theorem effect (h : Furnished k w) (he : Effect w w') : Furnished k w' := by
  cases he with
  | gate hg hc =>
    obtain ⟨-, t, -, rfl⟩ := Circuit.append_eq_ok hg hc
    exact h.congr rfl rfl rfl rfl rfl fun v => by cases v <;> rfl
  | conjugated hc =>
    obtain ⟨-, -, t, -, -, rfl⟩ := Circuit.appendConjugated_eq_ok hc
    exact h.congr rfl rfl rfl rfl rfl fun v => by cases v <;> rfl
  | qubit hs => exact absurd (h.outputs ▸ hs) List.not_mem_nil
  | ancilla => exact h.takeAncilla
  | mark m => exact h.congr rfl rfl rfl rfl rfl fun v => by cases v <;> rfl
  | memo m => exact h.congr rfl rfl rfl rfl rfl fun v => by cases v <;> rfl
  | const hv => exact h.addConst hv

/-- So does a sequence of changes. -/
theorem effects (h : Furnished k w) (he : Effects w w') : Furnished k w' := by
  induction he with
  | refl => exact h
  | tail _ hstep ih => exact ih.effect hstep

end Furnished

/-! ## Runs -/

/-- One assignment keeps the qubits so, and leaves behind what can be read off it. -/
theorem furnished_assignInPlace {u : Unit} (h : Furnished k w) (hc : w.circuit.Classical) (hs : w.Stocked)
    (ha : a.expr.isBoolean = true) (hrun : assignInPlace zeroed a w = .ok (u, w')) :
    Furnished k w' ∧ Supplied (a.leaves zeroed) w w' := by
  obtain ⟨w₁, he, hsupplied, hreclaim⟩ := assignInPlace_effects ha hrun
  have hend := (hsupplied hs).then_same (.reclaim (hsupplied hs).stocked hreclaim)
  obtain rfl := reclaim_eq_ok (fun e hmem => ((he.classical hc).2.computed e hmem).1) hreclaim
  exact ⟨(h.effects he).congr rfl rfl rfl rfl rfl fun v => by cases v <;> rfl, hend⟩

/-- So do assignments one after another. -/
theorem furnished_assignAllInPlace {u : Unit} {l : List Assignment} : ∀ {w : Workspace}, Furnished k w → w.circuit.Classical →
    w.Stocked → (∀ a ∈ l, a.expr.isBoolean = true) → assignAllInPlace zeroed l w = .ok (u, w') →
    Furnished k w' ∧ Supplied (fun r => l.any (·.leaves zeroed r)) w w' := by
  induction l with
  | nil =>
    intro w h _ hs _ hrun
    obtain ⟨-, rfl⟩ := Lowering.pure_eq_ok.1 hrun
    exact ⟨h, .refl hs nofun⟩
  | cons a l ih =>
    intro w h hc hs hb hrun
    obtain ⟨_, w₁, ha, hl⟩ := Lowering.bind_eq_ok.1 hrun
    have hba := hb a List.mem_cons_self
    obtain ⟨h₁, hs₁⟩ := furnished_assignInPlace h hc hs hba ha
    obtain ⟨h₂, hs₂⟩ := ih h₁ (plain_assignInPlace hba ha hc).2 hs₁.stocked (fun b hm => hb b (List.mem_cons_of_mem a hm)) hl
    exact ⟨h₂, hs₁.trans hs₂⟩

/-- Before the first assignment there are no qubits behind those of the symbols. -/
theorem furnished_start {u : Unit} {options : Options} {name : String} {symbols : List Symbol}
    (hrun : bindInputs symbols (start options name []) = .ok (u, w)) : Furnished symbols.length w ∧ w.circuit.Classical ∧
      w.Stocked ∧ ∀ v, w.constQubit v = none := by
  have hlen : ((List.replicate symbols.length false).drop (start options name []).circuit.numQubits).length = symbols.length :=
    List.length_replicate
  obtain ⟨hP, hnum, -, hout⟩ := (primed_start options name [] (.ofRow _)).bindInputs hlen hrun
  have hnum : w.circuit.numQubits = symbols.length := hnum.trans (Nat.zero_add _)
  obtain ⟨hgates, -, hcomputed⟩ := hP.idle
  refine ⟨⟨hout, hP.bound_lt, fun q hle hlt => ?_, fun v q hq => ?_⟩, ⟨?_, ?_⟩, hP.stocked, hP.notes.2⟩
  · exact absurd (hnum ▸ hlt) (Nat.not_lt.2 hle)
  · rw [Circuit.qubit?, hP.names, hP.notes.2]
    refine iff_of_false (fun hs => ?_) nofun
    exact Nat.not_lt.2 hq (hnum ▸ hP.bound_lt q (hP.env_bound _ q hs))
  · rw [hgates]
    exact nofun
  · rw [hcomputed]
    exact nofun

/-- Between assignments, a qubit behind the symbols is set if it is the one that holds the constant, and only then. -/
theorem Furnished.final_eq {ρ : Valuation} {s₀ : Bits} (h : Furnished k w) (hw : Settled ρ s₀ w) (hle : k ≤ q)
    (hlt : q < w.circuit.numQubits) : w.circuit.final s₀ q = decide (w.circuit.qubit? "TRUE" = some q) := by
  have hname := h.qubit?_true hle
  rcases h.kind q hle hlt with ⟨ha, hb⟩ | ⟨v, hv⟩
  · have hfree : q ∈ w.circuit.free := by
      by_contra hf
      exact hw.tight q ⟨ha, hb, hf, hw.unmarked q⟩
    have hno : ¬w.circuit.qubit? "TRUE" = some q := fun hq => hb (hw.sound.const_value true q (hname.1 hq)).1
    rw [hw.sound.zero q (Or.inl hfree), decide_eq_false hno]
  · have hvalue := (hw.sound.const_value v q hv).2.2
    cases v with
    | true => rw [hvalue, decide_eq_true (hname.2 hv)]
    | false =>
      have hno : ¬w.circuit.qubit? "TRUE" = some q := fun hq => by
        rw [(hw.sound.const_value true q (hname.1 hq)).2.2] at hvalue
        cases hvalue
      rw [hvalue, decide_eq_false hno]

end Workspace

/-- What a circuit that is compiled in place leaves behind the symbols. Run on any row of bits for the symbols in which those known
to hold 0 do so, it leaves 0 on every qubit behind those of the symbols, but for the one that it calls `TRUE`, if that is one of
them, and it leaves 1 on that one. All of them are left at 0 exactly if no assignment asks for the constant: none has it as an
operand, other than of an exclusive or, or as the value of a symbol that is not known to hold 0. -/
theorem compileInPlace_scratch {options : Options} {name : String} {symbols zeroed : List Symbol}
    {assignments : List Assignment} {c : Circuit} {row : List Bool} (hsym : symbols.Nodup)
    (htargets : (assignments.map Assignment.target).Nodup) (hbool : ∀ a ∈ assignments, a.expr.isBoolean = true)
    (hzeroed : ∀ a ∈ assignments, a.target ∈ zeroed → a.expr.mentions a.target = false)
    (hc : compileInPlace options name symbols assignments zeroed = .ok c) (hrow : row.length = symbols.length)
    (hzero : ∀ (i : Nat) (t : Symbol), symbols[i]? = some t → t ∈ zeroed → row[i]? = some false) :
    ∃ s, c.simulate row = .ok s ∧
      (∀ q, symbols.length ≤ q → q < c.numQubits → s[q]? = some (decide (c.qubit? "TRUE" = some q))) ∧
      ((∀ q, symbols.length ≤ q → q < c.numQubits → s[q]? = some false) ↔
        ∀ a ∈ assignments, a.asksFor zeroed true = false) := by
  obtain ⟨l, w₁, w, hsame, -, hbind, hassign, rfl, hw⟩ := compileInPlace_run hsym htargets hbool hzeroed hc hrow hzero
  obtain ⟨hstart, hclassical, hstocked, hnone⟩ := Workspace.furnished_start hbind
  obtain ⟨hend, hsupplied⟩ := Workspace.furnished_assignAllInPlace hstart hclassical hstocked
    (fun a ha => hbool a ((hsame a).1 ha)) hassign
  obtain ⟨s, hs, hbit⟩ := Circuit.simulate_bits rfl hw.settled.flips (hrow ▸ hw.width)
  have hfinal : ∀ q, symbols.length ≤ q → q < w.circuit.numQubits →
      s[q]? = some (decide (w.circuit.qubit? "TRUE" = some q)) := fun q hle hlt => by
    rw [hbit q hlt, hend.final_eq hw.settled hle hlt]
  have hconst : (w.constQubit true).isSome = l.any (·.asksFor zeroed true) := by
    rw [hsupplied.isSome_constQubit, hnone, Option.isSome_none, Bool.false_or]
    rfl
  refine ⟨s, hs, hfinal, fun h a ha => ?_, fun h q hle hlt => ?_⟩
  · by_contra hask
    have hany : l.any (·.asksFor zeroed true) = true := List.any_eq_true.2 ⟨a, (hsame a).2 ha, by simpa using hask⟩
    obtain ⟨q, hq⟩ := Option.isSome_iff_exists.1 (hconst.trans hany)
    have hle : symbols.length ≤ q := hw.const true q hq
    have hlt : q < w.circuit.numQubits := hend.bound_lt q (hw.settled.sound.const_value true q hq).1
    have hset := (hfinal q hle hlt).symm.trans (h q hle hlt)
    rw [decide_eq_true ((hend.qubit?_true hle).2 hq)] at hset
    cases hset
  · have hany : l.any (·.asksFor zeroed true) = false := List.any_eq_false.2 fun a ha => by simp [h a ((hsame a).1 ha)]
    have hno : ¬w.circuit.qubit? "TRUE" = some q := fun hq => by
      rw [(hend.qubit?_true hle).1 hq, hany] at hconst
      cases hconst
    rw [hfinal q hle hlt, decide_eq_false hno]

/-- One symbol that is known to hold 0 does so, if its bit is 0. -/
theorem zeroed_singleton {symbols : List Symbol} {row : List Bool} {z : Symbol} {n : Nat} (hsym : symbols.Nodup)
    (hn : symbols.idxOf? z = some n) (hrow : row[n]? = some false) :
    ∀ (i : Nat) (t : Symbol), symbols[i]? = some t → t ∈ [z] → row[i]? = some false := by
  intro i t ht hz
  obtain rfl := List.mem_singleton.1 hz
  rwa [← Option.some.inj (hn.symm.trans ((idxOf?_eq_some_iff_getElem? hsym).2 ht))]

/-- The assignment needs a scratch qubit for the negation and a qubit for the constant. -/
def Assignment.guarded : List Assignment := [⟨"z", .and [.const true, .not (.ref "a"), .ref "b"]⟩]

/-- With `b` set, the scratch qubit is left at 0 and the qubit of the constant at 1. -/
theorem compileInPlace_scratch_guarded : ∃ c s,
    compileInPlace {} "guarded" ["a", "b", "z"] Assignment.guarded ["z"] = .ok c ∧ c.qubit? "TRUE" = some 3 ∧
      c.simulate [false, true, false] = .ok s ∧ s[3]? = some true ∧ s[4]? = some false := by
  have hcompile : (compileInPlace {} "guarded" ["a", "b", "z"] Assignment.guarded ["z"]).toOption.map
      (fun c => (c.numQubits, c.qubit? "TRUE")) = some (5, some 3) := by decide +kernel
  obtain ⟨c, hc, hshape⟩ := Option.map_eq_some_iff.1 hcompile
  obtain ⟨hnum, hname⟩ := Prod.mk.inj hshape
  have hc := Outcome.toOption_eq_some.1 hc
  have hlen : [false, true, false].length = ["a", "b", "z"].length := rfl
  obtain ⟨s, hs, hleft, -⟩ := compileInPlace_scratch (by decide) (by decide) (by decide) (by decide) hc hlen
    (zeroed_singleton (n := 2) (by decide) (by decide) rfl)
  refine ⟨c, s, hc, hname, hs, ?_, ?_⟩
  · rw [hleft 3 (by decide) (by rw [hnum]; decide), hname]
    rfl
  · rw [hleft 4 (by decide) (by rw [hnum]; decide), hname]
    rfl

/-- Not every qubit behind the symbols is returned to 0: a copy of `a` that is made as its conjunction with the constant leaves
the qubit of the constant set. -/
theorem not_scratch_returned :
    ¬ ∀ (options : Options) (name : String) (symbols zeroed : List Symbol) (assignments : List Assignment) (c : Circuit)
      (row : List Bool), symbols.Nodup → (assignments.map Assignment.target).Nodup →
      (∀ a ∈ assignments, a.expr.isBoolean = true) →
      (∀ a ∈ assignments, a.target ∈ zeroed → a.expr.mentions a.target = false) →
      compileInPlace options name symbols assignments zeroed = .ok c → row.length = symbols.length →
      (∀ (i : Nat) (t : Symbol), symbols[i]? = some t → t ∈ zeroed → row[i]? = some false) →
      ∃ s, c.simulate row = .ok s ∧ ∀ q, symbols.length ≤ q → q < c.numQubits → s[q]? = some false := by
  intro h
  have hrun : (compileInPlace {} "s" ["a", "z"] [⟨"z", .and [.const true, .ref "a"]⟩] ["z"]).toOption.map
      (fun c => (c.numQubits, (c.simulate [true, false]).toOption)) = some (3, some #[true, true, true]) := by decide +kernel
  obtain ⟨c, hc, hshape⟩ := Option.map_eq_some_iff.1 hrun
  obtain ⟨hnum, hsimulate⟩ := Prod.mk.inj hshape
  obtain ⟨s, hs, hleft⟩ := h {} "s" ["a", "z"] ["z"] _ c [true, false] (by decide) (by decide) (by decide) (by decide)
    (Outcome.toOption_eq_some.1 hc) rfl (zeroed_singleton (n := 1) (by decide) (by decide) rfl)
  obtain rfl := Except.ok.inj (hs.symm.trans (Outcome.toOption_eq_some.1 hsimulate))
  have hset := hleft 2 (by decide) (by rw [hnum]; decide)
  cases hset

end ReversibleLogic
