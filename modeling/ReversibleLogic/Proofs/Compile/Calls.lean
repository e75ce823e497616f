import ReversibleLogic.Proofs.Compile.Boundary
import ReversibleLogic.Proofs.Lowering.Calls

/-!
# Every call of a compilation

A compilation lowers the expression of each assignment, and with it the operands. `Calls` lists the calls that are made on the way
and the workspaces from which they are made. Whichever they are, and whatever other assignments hold, a call that lowers an
expression without black boxes leaves the value of the expression on the qubit that it names, and changes no other qubit that was
in use, but for the destination (`lower_value_frame`). The values are those that a simulation finds before and after the call. So
the circuit must have no black box by then, and then nothing with a black box in it has been compiled.

Only where the whole expression of an assignment is lowered without a destination can a qubit in use change: that of the target.
-/

namespace ReversibleLogic

/-! ## What assignments leave behind -/

namespace Workspace

variable {k : Nat} {ρ : Valuation} {s₀ : Bits} {w w' w₁ : Workspace} {dest : Option Qubit} {a : Assignment} {options : Options}
  {name : String} {inputs outputs : List Symbol} {assignments done : List Assignment} {t : Task}

/-- A symbol is bound to a qubit. What is noted by that has been lowered before. -/
theorem Supplied.rebind {s : Symbol} {e : Expression} {q : Qubit} {u : Unit} (hw : w.Stocked)
    (he : e.isCompound = true → ∀ r, e.leaves false r = true → w.Has r) (hrun : rebind s e q w = .ok (u, w')) :
    Supplied (fun _ => false) w w' := by
  obtain rfl := Lowering.modify_eq_ok.1 hrun
  have hsame : ∀ r, w.Has r → Workspace.Has { w with env := w.env.insert s q } r := fun r hr =>
    hr.mono (List.Subset.refl _) fun v => by cases v <;> rfl
  refine ⟨fun b hb r hr => ?_, fun r hr => hsame r (hr.resolve_right Bool.false_ne_true), fun v hv => Or.inl hv⟩
  rcases mem_memo_rebind hb with ⟨rfl, hcompound, -⟩ | ⟨hb, -⟩
  · exact hsame r (he hcompound r hr)
  · exact hsame r (hw b hb r hr)

/-- An assignment with a black box in it leaves a black box in the circuit. -/
theorem supplied_assign {u : Unit} (hw : w.Stocked) (hrun : assign a w = .ok (u, w')) :
    w'.Stocked ∧ (w.Boxed ∨ a.expr.isBoolean = false → w'.Boxed) := by
  obtain ⟨dest, p, q, m, w₁, w₂, w₃, w₄, w₅, w₆, hdest, hlower, hdeliver, hrebind, hmap, hunmark, hreclaim⟩ := assign_eq_ok hrun
  have hs₁ := (destination_traced hdest).2 hw
  have hs₂ := (traced_root a.expr dest (some a.target) hlower).2 hs₁.stocked
  have hs₃ := (Traced.deliver p dest hdeliver).2 hs₂.stocked
  have hmade : Supplied (a.expr.leavesAt dest) w w₃ := hs₁.same_then (hs₂.then_same hs₃)
  have hs₄ : Supplied (fun _ => false) w₃ w₄ := .rebind hmade.stocked (fun hcompound r hr => hmade.kept r (Or.inr ?_)) hrebind
  obtain ⟨c, hc, rfl⟩ := Lowering.emit_eq_ok.1 hmap
  obtain ⟨-, rfl⟩ := Lowering.onCircuit_eq_ok.1 hunmark
  have hgates : c.gates = w₄.circuit.gates := (Circuit.mapQubit_eq_ok hc).1.1
  have hs₅ : Supplied (fun _ => false) w₄ { w₄ with circuit := (c.unmarkAncilla q).1 } :=
    .same hs₄.stocked (hgates ▸ List.Subset.refl _) (fun _ hb => hb) fun v => by cases v <;> rfl
  have hend := hmade.then_same (hs₄.then_same (hs₅.then_same (.reclaim hs₅.stocked hreclaim)))
  · exact ⟨hend.stocked, fun hb => hend.kept .blackBox (hb.imp_right fun hb => by simp [Expression.leavesAt, hb])⟩
  · rwa [Expression.leavesAt_eq_leaves fun v hv => by simp [hv, Expression.isCompound] at hcompound]

/-- So do assignments one after another. -/
theorem supplied_assignAll {u : Unit} : ∀ {l : List Assignment} {w : Workspace}, w.Stocked → assignAll l w = .ok (u, w') →
    w'.Stocked ∧ (w.Boxed ∨ (l.all fun a => a.expr.isBoolean) = false → w'.Boxed)
  | [], w, hw, hrun => by
    obtain ⟨-, rfl⟩ := Lowering.pure_eq_ok.1 hrun
    exact ⟨hw, fun hb => hb.resolve_right (by simp)⟩
  | a :: l, w, hw, hrun => by
    obtain ⟨_, w₁, hfirst, hrest⟩ := Lowering.bind_eq_ok.1 hrun
    obtain ⟨hw₁, hb₁⟩ := supplied_assign hw hfirst
    obtain ⟨hw', hb'⟩ := supplied_assignAll hw₁ hrest
    refine ⟨hw', fun hb => hb' ?_⟩
    rw [List.all_cons, Bool.and_eq_false_iff, ← or_assoc] at hb
    exact hb.imp_left hb₁

/-! ## Calls -/

/-- The call is made, from the workspace, while the assignments are compiled: the assignments `done` have been made, and the
expression of the next one is being lowered. -/
inductive Calls (options : Options) (name : String) (inputs : List Symbol) (assignments : List Assignment) (outputs : List Symbol)
    (done : List Assignment) : Task → Workspace → Prop where
  /-- The whole expression is lowered, for a new qubit if the target is an output. -/
  | whole {a : Assignment} {rest : List Assignment} {w w₁ : Workspace} {dest : Option Qubit}
      (hsplit : assignments = done ++ a :: rest)
      (hdone : (do bindInputs inputs; assignAll done : Lowering Unit).run (start options name outputs) = .ok ((), w))
      (hdest : (if a.target ∈ w.outputs then some <$> onCircuit (·.addQubit none) else pure none : Lowering (Option Qubit)) w =
        .ok (dest, w₁)) : Calls options name inputs assignments outputs done (.lower a.expr dest (some a.target)) w₁
  /-- A call makes further calls. -/
  | nested {t t' : Task} {w w' : Workspace} (hcall : Calls options name inputs assignments outputs done t w)
      (hspawn : Spawns t w t' w') : Calls options name inputs assignments outputs done t' w'

/-- If there was a black box in an assignment that has been made, there is one in the circuit. -/
theorem Calls.supplied (h : Calls options name inputs assignments outputs done t w) :
    w.Stocked ∧ ((done.all fun a => a.expr.isBoolean) = false → w.Boxed) := by
  induction h with
  | whole _ hdone hdest =>
    obtain ⟨_, w₀, hbind, hassign⟩ := Lowering.bind_eq_ok.1 hdone
    obtain ⟨hw, hb⟩ := supplied_assignAll (stocked_bindInputs hbind) hassign
    have hs := (destination_traced hdest).2 hw
    exact ⟨hs.stocked, fun hbox => hs.kept .blackBox (Or.inl (hb (Or.inr hbox)))⟩
  | nested _ hspawn ih =>
    obtain ⟨N, hs⟩ := hspawn.supplied ih.1
    exact ⟨hs.stocked, fun hbox => hs.kept .blackBox (Or.inl (ih.2 hbox))⟩

/-- Between assignments, everything is there that lowering the next expression relies on. -/
theorem Settled.prepared (hw : Settled ρ s₀ w) (hk : k ≤ w.circuit.numQubits)
    (hdest : (if a.target ∈ w.outputs then some <$> onCircuit (·.addQubit none) else pure none : Lowering (Option Qubit)) w =
      .ok (dest, w₁)) : Prepared k ρ s₀ (.lower a.expr dest (some a.target)) w₁ := by
  have hR : Ready ρ s₀ none (fun s => a.expr.mentions s) none w := ⟨hw.sound, by simp, by simp, by simp⟩
  have hexec : Executable k w := ⟨hw.flips, hk⟩
  by_cases hout : a.target ∈ w.outputs
  · rw [if_pos hout] at hdest
    obtain ⟨d, hadd, rfl⟩ := Lowering.map_eq_ok.1 hdest
    obtain ⟨rfl, rfl⟩ := Lowering.onCircuit_eq_ok.1 hadd
    obtain ⟨hO, -⟩ := onto_addQubit (.refl hw.sound (fun s => a.expr.mentions s) none) .none
    refine ⟨hO.fetched.grows.executable hexec, none, hO.ready hR, fun d hd => ?_, fun _ => rfl⟩
    obtain rfl := Option.some.inj hd
    exact hw.sound.zero _ (Or.inr (Nat.le_refl _))
  · rw [if_neg hout] at hdest
    obtain ⟨rfl, rfl⟩ := Lowering.pure_eq_ok.1 hdest
    exact ⟨hexec, none, hR, by simp, fun _ => rfl⟩

/-- As long as there is no black box in the circuit, every call finds what it may rely on. -/
theorem Calls.prepared {row : List Bool} (h : Calls options name inputs assignments outputs done t w)
    (hrow : row.length = inputs.length) (hbox : ¬w.Boxed) :
    ∃ ρ, (Valuation.ofPairs (inputs.zip row)).assign done = .ok ρ ∧ Prepared inputs.length ρ (.ofRow row) t w := by
  have hdone : ∀ a ∈ done, a.expr.isBoolean = true := by
    have hall := fun hb => hbox (h.supplied.2 hb)
    simpa using hall
  induction h with
  | whole _ hrun hdest =>
    obtain ⟨ρ, hρ, hw, hk, -⟩ := settled_of_run hdone hrow hrun
    exact ⟨ρ, hρ, hw.prepared hk.inputs_le hdest⟩
  | nested hcall hspawn ih =>
    have hw := hcall.supplied.1
    obtain ⟨N, hs⟩ := hspawn.supplied hw
    obtain ⟨ρ, hρ, hP⟩ := ih fun hb => hbox (hs.kept .blackBox (Or.inl hb))
    exact ⟨ρ, hρ, hspawn.prepared hw hbox hP⟩

/-! ## The value and the frame -/

/-- A circuit that can be run can be simulated. -/
theorem Executable.simulate {row : List Bool} (h : Executable row.length w) :
    ∃ s, w.circuit.simulate row = .ok s ∧ ∀ q, q < w.circuit.numQubits → s[q]? = some (w.circuit.final (.ofRow row) q) :=
  Circuit.simulate_bits rfl h.flips h.row_le

/-- A prepared call leaves the value of its expression, if it is not the one that may change its target in place. -/
theorem lowered_of_ready {x : Option Qubit} {e : Expression} {target : Option Symbol} {q : Qubit}
    (h : (Task.lower e dest target).Ready ρ s₀ x w) (he : e.isBoolean = true) (hroot : target = none ∨ dest ≠ none)
    (hrun : lower e dest target w = .ok (q, w')) :
    ∃ E, Lowered ρ s₀ x (fun s => e.mentions s) (e.eval ρ) dest w q w' E := by
  obtain ⟨hR, hz, -⟩ := h
  cases target with
  | none => exact lower_spec he dest hR hz hrun
  | some s =>
    cases dest with
    | none => simp at hroot
    | some d => exact lowered_dest he hR (hz d rfl) hrun

/-- The symbols of an expression that is ready to be lowered have qubits that hold their values. -/
theorem Ready.symbol {x out : Option Qubit} {S : Symbol → Bool} {s : Symbol} (h : Ready ρ s₀ x S out w) (hs : S s = true)
    (hρ : (ρ s).isSome = true) : ∃ p, w.env.get? s = some p ∧ w.InUse p ∧ ρ s = some (w.circuit.final s₀ p) := by
  obtain ⟨p, hp⟩ := Option.isSome_iff_exists.1 (h.sound.env_total s hρ)
  exact ⟨p, hp, h.sound.env_inUse hp, h.sound.env_value s p hp fun hx => (h.overwritten p hx).env s hs hp⟩

/-- Lowering computes the value and changes nothing else. Every call that lowers an expression without black boxes while
assignments are compiled, unless it may change the target of an assignment in place, leaves a circuit that does the following, for
every row of argument bits on which the circuit before the call can be simulated, which is every row unless there is a black box
in it. The returned qubit holds the value of the expression, where the symbols have the values that they have after the
assignments made so far and that their qubits hold before the call. Every qubit that the register had before, except for the
destination and the free scratch qubits, holds what it held before. -/
theorem lower_value_frame {e : Expression} {target : Option Symbol} {q : Qubit} {row : List Bool}
    (hcall : Calls options name inputs assignments outputs done (.lower e dest target) w) (he : e.isBoolean = true)
    (hroot : target = none ∨ dest ≠ none) (hrun : lower e dest target w = .ok (q, w')) (hrow : row.length = inputs.length) :
    ((∃ s, w.circuit.simulate row = .ok s) ↔ ∀ g ∈ w.circuit.gates, g.kind.isBlackBox = false) ∧
    ∀ s, w.circuit.simulate row = .ok s →
      ∃ ρ s' v, (Valuation.ofPairs (inputs.zip row)).assign done = .ok ρ ∧
        (∀ r, e.mentions r = true → ∃ p b, w.env.get? r = some p ∧ ρ r = some b ∧ s[p]? = some b) ∧
        e.eval ρ = .ok v ∧ w'.circuit.simulate row = .ok s' ∧ s'[q]? = some v ∧
        ∀ p, p < w.circuit.numQubits → dest ≠ some p → p ∉ w.circuit.free → s'[p]? = s[p]? := by
  constructor
  · refine ⟨fun ⟨s, hs⟩ g hg => Bool.not_eq_true _ ▸ fun hb => not_boxed_of_simulate hs ⟨g, hg, hb⟩, fun hbox => ?_⟩
    obtain ⟨ρ, -, hP⟩ := hcall.prepared hrow fun ⟨g, hg, hb⟩ => Bool.noConfusion (hb.symm.trans (hbox g hg))
    obtain ⟨s, hs, -⟩ := Executable.simulate (hrow ▸ hP.executable)
    exact ⟨s, hs⟩
  · intro s hs
    obtain ⟨ρ, hρ, hexec, x, hR⟩ := hcall.prepared hrow (not_boxed_of_simulate hs)
    obtain ⟨E, hL⟩ := lowered_of_ready hR he hroot hrun
    have hgrow := hL.fetched.grows
    obtain ⟨s₁, hs₁, hbit⟩ := Executable.simulate (hrow ▸ hexec)
    obtain ⟨s', hs', hbit'⟩ := Executable.simulate (hrow ▸ hgrow.executable hexec)
    obtain rfl := Except.ok.inj (hs₁.symm.trans hs)
    refine ⟨ρ, s', _, hρ, fun r hr => ?_, hL.value, hs', hbit' q (hL.fetched.inUse q (by simp)).1, fun p hp hd hf => ?_⟩
    · obtain ⟨p, hp, hu, hv⟩ := hR.1.symbol hr (Expression.isSome_of_eval hL.value r hr)
      exact ⟨p, _, hp, hv, hbit p hu.1⟩
    · rw [hbit' p (Nat.lt_of_lt_of_le hp hgrow.numQubits_le), hbit p hp, hgrow.final_of_inUse ⟨hp, hf⟩ hd]

/-- For `t := (a ⊕ b) ∧ (a ⊕ c)` the second operand is lowered while the first is on a scratch qubit. On the row 1, 0, 1 that
qubit keeps the value 1 of the first operand, and the second gets the value 0 on its own qubit. -/
theorem lower_value_frame_sibling : ∃ (w w' : Workspace) (p q : Qubit) (s s' : Register),
    Calls {} "both" ["a", "b", "c"] [⟨"t", .and [.xor [.ref "a", .ref "b"], .xor [.ref "a", .ref "c"]]⟩] ["t"] []
      (.lower (.xor [.ref "a", .ref "c"]) none none) w ∧
    lower (.xor [.ref "a", .ref "c"]) none none w = .ok (q, w') ∧
    w.circuit.simulate [true, false, true] = .ok s ∧ s[p]? = some true ∧
    w'.circuit.simulate [true, false, true] = .ok s' ∧ s'[p]? = some true ∧ s'[q]? = some false := by
  obtain ⟨w₀, dest, w₁, hbind, hdest, hmiss, hgates, hread⟩ : ∃ w₀ dest w₁,
      (do bindInputs ["a", "b", "c"]; assignAll [] : Lowering Unit).run (start {} "both" ["t"]) = .ok ((), w₀) ∧
      (if "t" ∈ w₀.outputs then some <$> onCircuit (·.addQubit none) else pure none : Lowering (Option Qubit)) w₀ =
        .ok (dest, w₁) ∧
      w₁.noted? (.and [.xor [.ref "a", .ref "b"], .xor [.ref "a", .ref "c"]]) = none ∧ w₁.circuit.gates = [] ∧
      ((lower (.xor [.ref "a", .ref "b"]) none none w₁).toOption.map fun r =>
        (decide (r.1 < r.2.circuit.numQubits ∧ r.1 ∉ r.2.circuit.free),
          (lower (.xor [.ref "a", .ref "c"]) none none r.2).isOk)) = some (true, true) :=
    ⟨_, _, _, rfl, rfl, rfl, rfl, by decide +kernel⟩
  obtain ⟨⟨p, w⟩, hfirst, hp⟩ := Option.map_eq_some_iff.1 hread
  have hfirst := Outcome.toOption_eq_some.1 hfirst
  obtain ⟨hu, hok⟩ := Prod.mk.inj hp
  obtain ⟨⟨q, w'⟩, hsecond⟩ := Outcome.exists_of_isOk hok
  have hrow : [true, false, true].length = ["a", "b", "c"].length := rfl
  have hsplit : ([⟨"t", .and [.xor [.ref "a", .ref "b"], .xor [.ref "a", .ref "c"]]⟩] : List Assignment) =
    [] ++ ⟨"t", .and [.xor [.ref "a", .ref "b"], .xor [.ref "a", .ref "c"]]⟩ :: [] := rfl
  have hoperands := (Calls.whole hsplit hbind hdest).nested (.and hmiss (by simp))
  obtain ⟨hsim, hleft⟩ := lower_value_frame (hoperands.nested .first) rfl (Or.inl rfl) hfirst hrow
  obtain ⟨s₀, hs₀⟩ := hsim.2 (by simp [hgates])
  obtain ⟨ρ, s, v, hρ, -, hv, hs, hsp, -⟩ := hleft s₀ hs₀
  cases hρ
  cases hv
  have hcall := (hoperands.nested (.rest hfirst)).nested .first
  obtain ⟨ρ, s', v, hρ, -, hv, hs', hsq, hframe⟩ := (lower_value_frame hcall rfl (Or.inl rfl) hsecond hrow).2 s hs
  cases hρ
  cases hv
  obtain ⟨hlt, hfree⟩ := of_decide_eq_true hu
  exact ⟨w, w', p, q, s, s', hcall, hsecond, hs, hsp, hs', (hframe p hlt (by simp) hfree).trans hsp, hsq⟩

end Workspace

end ReversibleLogic
