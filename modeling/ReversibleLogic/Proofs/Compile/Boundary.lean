import ReversibleLogic.Proofs.Compile.Step

/-!
# What holds between assignments

A compilation begins by binding the argument bits to the first qubits and then makes its assignments one after another. It is at
rest when the arguments are bound, and each assignment leads from rest to rest, so it is at rest between any two assignments:
the circuit so far, run on any row of argument bits, puts on the qubits what the compilation takes to be there.

The outputs need more: the qubit of an output is changed only while its value is made, and nothing reads it then (`Kept`).
-/

namespace ReversibleLogic

namespace Workspace

variable {ρ : Valuation} {s₀ : Bits} {w w' w₁ : Workspace} {p q : Qubit} {k : Nat} {a : Assignment}

/-! ## Binding the arguments -/

/-- Arguments have been bound and nothing else has been done. -/
structure Primed (ρ : Valuation) (s₀ : Bits) (w : Workspace) : Prop where
  idle : w.circuit.gates = [] ∧ w.circuit.history = [] ∧ w.circuit.computed = []
  scratch : w.circuit.ancillas = .empty ∧ w.circuit.free = .empty ∧ w.circuit.marked = .empty
  notes : w.memo.entries = [] ∧ ∀ v, w.constQubit v = none
  bound_lt : ∀ q ∈ w.circuit.bound, q < w.circuit.numQubits
  env_bound : ∀ s q, w.env.get? s = some q → q ∈ w.circuit.bound
  env_total : ∀ s, (ρ s).isSome = true → (w.env.get? s).isSome = true
  env_value : ∀ s q, w.env.get? s = some q → ρ s = some (s₀ q)
  names : ∀ s, w.circuit.names.get? s = w.env.get? s

/-- Nothing is there at the start. -/
theorem primed_start (options : Options) (name : String) (outputs : List Symbol) (s₀ : Bits) :
    Primed .empty s₀ (start options name outputs) := by
  refine ⟨⟨rfl, rfl, rfl⟩, ⟨rfl, rfl, rfl⟩, ⟨rfl, fun v => by cases v <;> rfl⟩, ?_, ?_, ?_, ?_, fun _ => rfl⟩
  · exact fun q hq => absurd hq (QubitSet.not_mem_empty q)
  · exact fun s q hs => absurd hs (by simp [start, NameMap.get?_empty])
  · exact fun s hs => by simp [Valuation.empty] at hs
  · exact fun s q hs => absurd hs (by simp [start, NameMap.get?_empty])

/-- One more argument is bound, to the next qubit. -/
theorem Primed.bindInput {s : Symbol} (h : Primed ρ s₀ w) (hrun : bindInput s w = .ok (q, w')) :
    Primed (ρ.set s (s₀ w.circuit.numQubits)) s₀ w' ∧ w'.circuit.numQubits = w.circuit.numQubits + 1 ∧
      w'.options = w.options ∧ w'.outputs = w.outputs := by
  obtain ⟨p, w₁, hadd, hrun⟩ := Lowering.bind_eq_ok.1 hrun
  obtain ⟨_, w₂, hmod, hret⟩ := Lowering.bind_eq_ok.1 hrun
  obtain ⟨rfl, rfl⟩ := Lowering.pure_eq_ok.1 hret
  obtain ⟨rfl, rfl⟩ := Lowering.onCircuit_eq_ok.1 hadd
  obtain rfl := Lowering.modify_eq_ok.1 hmod
  have hnum := Circuit.numQubits_addQubit w.circuit (some s)
  refine ⟨⟨h.idle, h.scratch, ⟨h.notes.1, fun v => ?_⟩, ?_, ?_, ?_, ?_, ?_⟩, hnum, rfl, rfl⟩
  · have := h.notes.2 v
    cases v <;> exact this
  · intro q hq
    change q < (w.circuit.addQubit (some s)).1.numQubits
    rw [hnum]
    rcases Circuit.mem_bound_addQubit hq with hq | rfl
    · exact Nat.lt_succ_of_lt (h.bound_lt q hq)
    · exact Nat.lt_succ_self _
  · intro r q hq
    by_cases hrs : r = s
    · subst hrs
      rw [NameMap.get?_insert_self] at hq
      exact QubitSet.mem_insert.2 (Or.inl (Option.some.inj hq).symm)
    · rw [NameMap.get?_insert_of_ne _ hrs] at hq
      exact QubitSet.mem_insert.2 (Or.inr (h.env_bound r q hq))
  · intro r hr
    by_cases hrs : r = s
    · subst hrs
      rw [NameMap.get?_insert_self]
      rfl
    · rw [Valuation.set_of_ne ρ hrs] at hr
      rw [NameMap.get?_insert_of_ne _ hrs]
      exact h.env_total r hr
  · intro r q hq
    by_cases hrs : r = s
    · subst hrs
      rw [NameMap.get?_insert_self] at hq
      rw [Valuation.set_self, ← Option.some.inj hq]
      rfl
    · rw [NameMap.get?_insert_of_ne _ hrs] at hq
      rw [Valuation.set_of_ne ρ hrs]
      exact h.env_value r q hq
  · intro r
    change (w.circuit.names.insert s _).get? r = (w.env.insert s _).get? r
    by_cases hrs : r = s
    · rw [hrs, NameMap.get?_insert_self, NameMap.get?_insert_self]
      rfl
    · rw [NameMap.get?_insert_of_ne _ hrs, NameMap.get?_insert_of_ne _ hrs, h.names]

/-- Arguments are bound to the next qubits, which hold the rest of the row. -/
theorem Primed.bindInputs {row : List Bool} : ∀ {inputs : List Symbol} {ρ : Valuation} {w : Workspace} {u : Unit},
    Primed ρ (.ofRow row) w → (row.drop w.circuit.numQubits).length = inputs.length →
    bindInputs inputs w = .ok (u, w') →
    Primed ((inputs.zip (row.drop w.circuit.numQubits)).foldl (fun env b => env.set b.1 b.2) ρ) (.ofRow row) w' ∧
      w'.circuit.numQubits = w.circuit.numQubits + inputs.length ∧ w'.options = w.options ∧ w'.outputs = w.outputs := by
  intro inputs
  induction inputs with
  | nil =>
    intro ρ w u h _ hrun
    obtain ⟨-, rfl⟩ := Lowering.pure_eq_ok.1 hrun
    exact ⟨h, rfl, rfl, rfl⟩
  | cons s inputs ih =>
    intro ρ w u h hlen hrun
    obtain ⟨_, w₁, hs, hrest⟩ := Lowering.bind_eq_ok.1 hrun
    obtain ⟨q, hs, -⟩ := Lowering.map_eq_ok.1 hs
    obtain ⟨h₁, hnum, hopt, hout⟩ := h.bindInput hs
    have hlt : w.circuit.numQubits < row.length := by
      simp only [List.length_drop, List.length_cons] at hlen
      omega
    have hdrop : row.drop w.circuit.numQubits = Bits.ofRow row w.circuit.numQubits :: row.drop (w.circuit.numQubits + 1) := by
      rw [List.drop_eq_getElem_cons hlt, Bits.ofRow, List.getElem?_eq_getElem hlt]
      rfl
    have hlen' : (row.drop w₁.circuit.numQubits).length = inputs.length := by
      rw [hdrop] at hlen
      rw [hnum]
      simpa using hlen
    obtain ⟨h₂, hnum', hopt', hout'⟩ := ih h₁ hlen' hrest
    rw [hnum] at h₂ hnum'
    refine ⟨?_, by rw [hnum', List.length_cons]; omega, hopt'.trans hopt, hout'.trans hout⟩
    rw [hdrop, List.zip_cons_cons, List.foldl_cons]
    exact h₂

/-- Nothing is noted yet. -/
theorem Primed.stocked (h : Primed ρ s₀ w) : w.Stocked := fun b hb => by simp [h.notes.1] at hb

/-- Nor is it before the first assignment. -/
theorem stocked_bindInputs {u : Unit} {options : Options} {name : String} {inputs outputs : List Symbol}
    (hrun : bindInputs inputs (start options name outputs) = .ok (u, w)) : w.Stocked := by
  have hlen : ((List.replicate inputs.length false).drop (start options name outputs).circuit.numQubits).length = inputs.length :=
    List.length_replicate
  exact ((primed_start options name outputs (.ofRow _)).bindInputs hlen hrun).1.stocked

/-- When the register has all the qubits that start with a value other than 0, the compilation is at rest. -/
theorem Primed.settled (h : Primed ρ s₀ w) (hz : ∀ q, w.circuit.numQubits ≤ q → s₀ q = false) : Settled ρ s₀ w := by
  obtain ⟨hg, hh, hc⟩ := h.idle
  obtain ⟨ha, hf, hm⟩ := h.scratch
  have hfinal : w.circuit.final s₀ = s₀ := by rw [Circuit.final, hg, actGates_nil]
  have hnone : ∀ {s : QubitSet} (q : Qubit), s = .empty → q ∉ s := fun q hs hq => QubitSet.not_mem_empty q (hs ▸ hq)
  refine ⟨⟨?_, h.bound_lt, ?_, ?_, h.env_bound, ?_, ?_, h.env_total, ?_, ?_, ?_⟩, fun q => hnone q hm, ?_, ?_, ?_, ?_,
    fun s _ _ => h.names s⟩
  · exact fun q hq => absurd hq (hnone q ha)
  · exact fun q hq => absurd hq (hnone q hf)
  · exact fun q hq => absurd hq (hnone q hm)
  · exact fun b hb => by simp [h.notes.1] at hb
  · exact fun v q hv => by simp [h.notes.2] at hv
  · intro s q hs _
    rw [hfinal]
    exact h.env_value s q hs
  · exact fun b hb => by simp [h.notes.1] at hb
  · intro q hq
    rw [hfinal]
    exact hz q (hq.resolve_left (hnone q hf))
  · exact fun q hq => hnone q ha hq.1
  · rw [hg, hh]
    rfl
  · exact fun e he => by simp [hh] at he
  · exact fun e he => by simp [hc] at he

/-! ## The qubits of the outputs -/

/-- The qubits of the outputs are changed only before they are read, and those of the first `k` qubits are not changed. -/
structure Kept (k : Nat) (w : Workspace) : Prop where
  inputs_le : k ≤ w.circuit.numQubits
  unchanged : ∀ o ∈ w.outputs, ∀ q, w.env.get? o = some q →
    w.circuit.history.Pairwise fun e f => q ∈ e.reads → f.target ≠ q
  input : ∀ o ∈ w.outputs, ∀ q, w.env.get? o = some q → q < k → ∀ e ∈ w.circuit.history, e.target ≠ q

/-- Operations are made on qubits of the register. -/
theorem Settled.lt_of_mem_reads (hw : Settled ρ s₀ w) {e : LogEntry} (he : e ∈ w.circuit.history) (hq : q ∈ e.reads) :
    q < w.circuit.numQubits := by
  obtain ⟨⟨g, hg, hq⟩, -⟩ := LogEntry.mem_reads.1 hq
  exact ((hw.entries e he).2 g hg).range q hq

/-- An assignment keeps what is known about the qubits of the outputs. -/
theorem Kept.assign {E : List LogEntry} (h : Kept k w) (hw : Settled ρ s₀ w) (hA : Assigned a w w' q E) : Kept k w' := by
  obtain ⟨undo, hhist, hundo⟩ := hA.history
  have hnew : ∀ f ∈ E ++ undo, f ∈ E := fun f hf => (List.mem_append.1 hf).elim id (hundo f)
  refine ⟨Nat.le_trans h.inputs_le hA.numQubits, fun o ho p hp => ?_, fun o ho p hp hpk e he => ?_⟩
  · rw [hA.settings.2] at ho
    rw [hhist]
    by_cases hot : o = a.target
    · -- the qubit is new: nothing reads it
      subst hot
      rw [hA.env, NameMap.get?_insert_self] at hp
      obtain rfl := Option.some.inj hp
      obtain ⟨hge, hread⟩ := hA.output ho
      refine List.pairwise_of_forall_mem_list fun e he f _ hr => ?_
      rcases List.mem_append.1 he with he | he
      · exact absurd (hw.lt_of_mem_reads he hr) (Nat.not_lt.2 hge)
      · exact absurd hr (hread e (hnew e he))
    · -- the qubit is that of another symbol: it does not change
      rw [hA.env, NameMap.get?_insert_of_ne _ hot] at hp
      have hne : ∀ f ∈ E ++ undo, f.target ≠ p := fun f hf hft => hA.kept f (hnew f hf) o hot (hft ▸ hp)
      exact List.pairwise_append.2 ⟨h.unchanged o ho p hp, List.pairwise_of_forall_mem_list fun e _ f hf _ => hne f hf,
        fun e _ f hf _ => hne f hf⟩
  · rw [hA.settings.2] at ho
    rw [hhist, List.mem_append] at he
    by_cases hot : o = a.target
    · subst hot
      rw [hA.env, NameMap.get?_insert_self] at hp
      obtain rfl := Option.some.inj hp
      exact absurd hpk (Nat.not_lt.2 (Nat.le_trans h.inputs_le (hA.output ho).1))
    · rw [hA.env, NameMap.get?_insert_of_ne _ hot] at hp
      rcases he with he | he
      · exact h.input o ho p hp hpk e he
      · exact fun het => hA.kept e (hnew e he) o hot (het ▸ hp)

/-! ## Runs -/

/-- Assignments lead from rest to rest, and give the symbols the values that evaluation gives. -/
theorem assignAll_spec {u : Unit} : ∀ {l : List Assignment} {ρ : Valuation} {w : Workspace},
    (∀ a ∈ l, a.expr.isBoolean = true) → Settled ρ s₀ w → Kept k w → assignAll l w = .ok (u, w') →
    ∃ ρ', ρ.assign l = .ok ρ' ∧ Settled ρ' s₀ w' ∧ Kept k w' ∧ w'.options = w.options ∧ w'.outputs = w.outputs := by
  intro l
  induction l with
  | nil =>
    intro ρ w _ hw hk hrun
    obtain ⟨-, rfl⟩ := Lowering.pure_eq_ok.1 hrun
    exact ⟨ρ, rfl, hw, hk, rfl, rfl⟩
  | cons a l ih =>
    intro ρ w hl hw hk hrun
    obtain ⟨_, w₁, ha, hrest⟩ := Lowering.bind_eq_ok.1 hrun
    obtain ⟨v, hv, hw₁, q, E, hA⟩ := assign_spec hw (hl a List.mem_cons_self) ha
    obtain ⟨ρ', hρ, hw', hk', hopt, hout⟩ :=
      ih (fun b hb => hl b (List.mem_cons_of_mem a hb)) hw₁ (hk.assign hw hA) hrest
    refine ⟨ρ', ?_, hw', hk', hopt.trans hA.settings.1, hout.trans hA.settings.2⟩
    rw [Valuation.assign, hv]
    exact hρ

/-- When the arguments have been bound, the compilation is at rest. -/
theorem settled_of_bindInputs {options : Options} {name : String} {inputs outputs : List Symbol} {row : List Bool} {u : Unit}
    (hrow : row.length = inputs.length) (hrun : bindInputs inputs (start options name outputs) = .ok (u, w)) :
    Settled (Valuation.ofPairs (inputs.zip row)) (.ofRow row) w ∧ Kept inputs.length w ∧ w.options = options ∧
      w.outputs = outputs := by
  obtain ⟨hP, hnum, hopt, hout⟩ := (primed_start options name outputs (.ofRow row)).bindInputs hrow hrun
  have hnum' : w.circuit.numQubits = inputs.length := hnum.trans (Nat.zero_add _)
  have hw : Settled _ _ w := hP.settled fun q hq => by
    rw [Bits.ofRow, List.getElem?_eq_none (by rw [hrow, ← hnum']; exact hq)]
    rfl
  have hh : w.circuit.history = [] := hP.idle.2.1
  exact ⟨hw, ⟨Nat.le_of_eq hnum'.symm, fun _ _ _ _ => by simp [hh], fun _ _ _ _ _ => by simp [hh]⟩, hopt, hout⟩

/-- After the arguments have been bound and assignments have been made, the compilation is at rest. -/
theorem settled_of_run {options : Options} {name : String} {inputs outputs : List Symbol} {l : List Assignment}
    {row : List Bool} {u : Unit} (hl : ∀ a ∈ l, a.expr.isBoolean = true) (hrow : row.length = inputs.length)
    (hrun : (do bindInputs inputs; assignAll l : Lowering Unit) (start options name outputs) = .ok (u, w)) :
    ∃ ρ, (Valuation.ofPairs (inputs.zip row)).assign l = .ok ρ ∧ Settled ρ (.ofRow row) w ∧ Kept inputs.length w ∧
      w.options = options ∧ w.outputs = outputs := by
  obtain ⟨_, w₁, hbind, hassign⟩ := Lowering.bind_eq_ok.1 hrun
  obtain ⟨hw₁, hk, hopt, hout⟩ := settled_of_bindInputs hrow hbind
  obtain ⟨ρ, hρ, hw, hk', hopt', hout'⟩ := assignAll_spec hl hw₁ hk hassign
  exact ⟨ρ, hρ, hw, hk', hopt'.trans hopt, hout'.trans hout⟩

/-- The gates of a recorded entry are of the NOT family and fit the register. -/
theorem Settled.flips_of_entry {s₀ : Bits} (hw : Settled ρ s₀ w) {e : LogEntry} (he : e ∈ w.circuit.history) :
    ∀ g ∈ e.gates, g.Flips w.circuit.numQubits :=
  fun g hg => ⟨(hw.entries e he).1.classical g hg, (hw.entries e he).2 g hg⟩

/-- At rest, so are all the gates of the circuit. -/
theorem Settled.flips {s₀ : Bits} (hw : Settled ρ s₀ w) : ∀ g ∈ w.circuit.gates, g.Flips w.circuit.numQubits := by
  intro g hg
  rw [hw.log] at hg
  obtain ⟨e, he, hge⟩ := List.mem_flatMap.1 hg
  exact hw.flips_of_entry he g hge

/-- Making assignments and then others is making all of them. -/
theorem assignAll_append {rest : List Assignment} {u : Unit} : ∀ {l : List Assignment} {w : Workspace},
    assignAll l w = .ok (u, w') → assignAll (l ++ rest) w = assignAll rest w' := by
  intro l
  induction l with
  | nil =>
    intro w h
    obtain ⟨-, rfl⟩ := Lowering.pure_eq_ok.1 h
    rfl
  | cons a l ih =>
    intro w h
    obtain ⟨_, w₁, ha, hl⟩ := Lowering.bind_eq_ok.1 h
    exact (Lowering.bind_of_eq_ok ha _).trans (ih hl)

/-- Between assignments. Every compilation that begins with the assignments `done` passes through the workspace `w`, and there,
for every row of argument bits: the qubit of each symbol holds the value that the symbol has after these assignments; the qubit of
each noted expression holds its value; the free scratch qubits hold 0; and no symbol, no noted expression and neither constant
has a free scratch qubit. -/
theorem boundary_invariant {options : Options} {name : String} {inputs outputs : List Symbol} {done : List Assignment}
    (hbool : ∀ a ∈ done, a.expr.isBoolean = true)
    (hrun : (do bindInputs inputs; assignAll done : Lowering Unit).run (start options name outputs) = .ok ((), w)) :
    (∀ rest, (build inputs (done ++ rest) outputs).run (start options name outputs) =
      (do assignAll rest; lookupAll outputs : Lowering (List Qubit)).run w) ∧
    ∀ row : List Bool, row.length = inputs.length →
      ∃ ρ s, (Valuation.ofPairs (inputs.zip row)).assign done = .ok ρ ∧ w.circuit.simulate row = .ok s ∧
        (∀ t q, w.env.get? t = some q → ∃ b, ρ t = some b ∧ s[q]? = some b) ∧
        (∀ e q, (e, q) ∈ w.memo.entries → ∃ b, e.eval ρ = .ok b ∧ s[q]? = some b) ∧
        (∀ q ∈ w.circuit.free, s[q]? = some false) ∧
        ∀ q ∈ w.circuit.free, (∀ t, w.env.get? t ≠ some q) ∧ (∀ e, (e, q) ∉ w.memo.entries) ∧
          w.trueQubit ≠ some q ∧ w.falseQubit ≠ some q := by
  constructor
  · intro rest
    obtain ⟨_, w₁, hbind, hassign⟩ := Lowering.bind_eq_ok.1 hrun
    refine (Lowering.bind_of_eq_ok hbind _).trans ?_
    change (assignAll (done ++ rest) >>= fun _ => lookupAll outputs) w₁ = (assignAll rest >>= fun _ => lookupAll outputs) w
    change ((assignAll (done ++ rest) w₁) >>= fun p => lookupAll outputs p.2) =
      ((assignAll rest w) >>= fun p => lookupAll outputs p.2)
    rw [assignAll_append hassign]
  · intro row hrow
    obtain ⟨ρ, hρ, hw, hk, -, -⟩ := settled_of_run hbool hrow hrun
    obtain ⟨s, hs, hbit⟩ := Circuit.simulate_bits rfl hw.flips (hrow ▸ hk.inputs_le)
    have hsound := hw.sound
    refine ⟨ρ, s, hρ, hs, fun t q ht => ?_, fun e q he => ?_, fun q hq => ?_,
      fun q hq => ⟨fun t ht => ?_, fun e he => ?_, ?_, ?_⟩⟩
    · exact ⟨_, hsound.env_value t q ht (by simp), hbit q (hsound.env_inUse ht).1⟩
    · exact ⟨_, hsound.memo_value (e, q) he (by simp), hbit q (hsound.memo_inUse (e, q) he).1⟩
    · rw [hbit q (hsound.ancilla_lt q (hsound.free_scratch q hq).1), hsound.zero q (Or.inl hq)]
    · exact (hsound.env_inUse ht).2 hq
    · exact (hsound.memo_inUse (e, q) he).2 hq
    · exact fun ht => (hsound.const_inUse (v := true) ht).2 hq
    · exact fun hf => (hsound.const_inUse (v := false) hf).2 hq

/-- After `t := a ∧ b` and `o := ¬t`, on the row of two ones, `o` has the value 0 and each symbol's qubit holds its value. -/
theorem boundary_invariant_nand : ∃ w : Workspace,
    (do bindInputs ["a", "b"]; assignAll [⟨"t", .and [.ref "a", .ref "b"]⟩, ⟨"o", .not (.ref "t")⟩] : Lowering Unit).run
      (start {} "nand" ["o"]) = .ok ((), w) ∧
    ∃ (ρ : Valuation) (s : Register), w.circuit.simulate [true, true] = .ok s ∧ ρ "o" = some false ∧
      ∀ t q, w.env.get? t = some q → ∃ b, ρ t = some b ∧ s[q]? = some b := by
  obtain ⟨⟨_, w⟩, hw⟩ := Outcome.exists_of_isOk (x := (do
    bindInputs ["a", "b"]
    assignAll [⟨"t", .and [.ref "a", .ref "b"]⟩, ⟨"o", .not (.ref "t")⟩] : Lowering Unit).run (start {} "nand" ["o"]))
    (by decide +kernel)
  obtain ⟨ρ, s, hρ, hs, henv, -⟩ := (boundary_invariant (by decide) hw).2 [true, true] rfl
  cases hρ
  exact ⟨w, hw, _, s, hs, rfl, henv⟩

end Workspace

end ReversibleLogic
