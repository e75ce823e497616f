import ReversibleLogic.Proofs.Compile.Boundary
import ReversibleLogic.Proofs.Lowering.Acceptance

/-!
# Which programs are compiled

A program without black boxes is compiled exactly if its expressions are well formed and it is closed: an assignment mentions
only argument bits and targets of earlier assignments, and the outputs are argument bits or targets (`compile_ok_iff`). No gate is
ever refused on the way.

What decides an assignment is decided at rest (`decides_assign`), and an assignment leads from rest to rest, so the assignments
are decided one after another, each with one more symbol that has a qubit.
-/

namespace ReversibleLogic

variable {D D' : Symbol → Prop}

/-- With more symbols, an expression can still be compiled. -/
theorem Expression.Compilable.mono {e : Expression} (h : e.Compilable D) (hD : ∀ s, D s → D' s) : e.Compilable D' :=
  ⟨h.wellFormed, fun s hs => hD s (h.closed s hs)⟩

/-- Binding a name gives a qubit to one more name. -/
theorem NameMap.isSome_get?_insert (m : NameMap) (t : Symbol) (q : Qubit) (s : Symbol) :
    ((m.insert t q).get? s).isSome = true ↔ s = t ∨ (m.get? s).isSome = true := by
  by_cases hs : s = t
  · simp [hs]
  · rw [get?_insert_of_ne _ hs]
    simp [hs]

/-! ## Closed programs -/

/-- The assignments can be compiled one after another, when the symbols of `D` have qubits. -/
def AllCompilable (D : Symbol → Prop) : List Assignment → Prop
  | [] => True
  | a :: l => a.expr.Compilable D ∧ AllCompilable (fun s => s = a.target ∨ D s) l

/-- This is so if all expressions are well formed and mention symbols of `D` and targets of earlier assignments. -/
theorem allCompilable_iff {l : List Assignment} : ∀ {D : Symbol → Prop}, AllCompilable D l ↔
    (∀ a ∈ l, a.expr.isWellFormed = true) ∧
      ∀ i : Fin l.length, ∀ s ∈ (l.get i).expr.symbols, D s ∨ s ∈ (l.take i).map Assignment.target := by
  induction l with
  | nil => simp [AllCompilable]
  | cons a l ih =>
    intro D
    have hfirst : a.expr.Compilable D ↔ a.expr.isWellFormed = true ∧ ∀ s ∈ a.expr.symbols, D s :=
      ⟨fun h => ⟨h.wellFormed, fun s hs => h.closed s (Expression.mem_symbols.1 hs)⟩,
        fun h => ⟨h.1, fun s hs => h.2 s (Expression.mem_symbols.2 hs)⟩⟩
    -- for the later assignments the target of the first is one of the symbols of `D`, or an earlier target
    have hlater : ∀ (i : Nat) (s : Symbol), ((s = a.target ∨ D s) ∨ s ∈ (l.take i).map Assignment.target) ↔
        (D s ∨ s ∈ ((a :: l).take (i + 1)).map Assignment.target) := fun i s => by
      rw [List.take_succ_cons, List.map_cons, List.mem_cons, or_assoc, or_left_comm]
    rw [AllCompilable, hfirst, ih, List.forall_mem_cons]
    constructor
    · rintro ⟨⟨hform, hclosed⟩, hforms, hrest⟩
      refine ⟨⟨hform, hforms⟩, Fin.cases (fun s hs => Or.inl (hclosed s hs)) fun i s hs => ?_⟩
      exact (hlater i s).1 (hrest i s hs)
    · rintro ⟨⟨hform, hforms⟩, hall⟩
      refine ⟨⟨hform, fun s hs => ?_⟩, hforms, fun i s hs => (hlater i s).2 (hall i.succ s hs)⟩
      exact (hall 0 s hs).resolve_right (by simp)

/-- Every symbol that an assignment mentions is an argument bit or the target of an earlier assignment, and every output is an
argument bit or a target. -/
def Program.Closed (p : Program) : Prop :=
  (∀ i : Fin p.assignments.length, ∀ s ∈ (p.assignments.get i).expr.symbols,
    s ∈ p.inputSymbols ∨ s ∈ (p.assignments.take i).map Assignment.target) ∧
  ∀ o ∈ p.outputs, o ∈ p.inputSymbols ∨ o ∈ p.assignments.map Assignment.target

instance (p : Program) : Decidable p.Closed := inferInstanceAs (Decidable (_ ∧ _))

namespace Workspace

variable {α β : Type} {ρ : Valuation} {s₀ : Bits} {x dest : Option Qubit} {S : Symbol → Bool} {r : Except EvalError Bool}
  {P : Prop} {Q Q' : Workspace → Prop} {w w₁ : Workspace} {p q : Qubit} {E : List LogEntry} {a : Assignment}

/-- Mapping the result does not change the decision. -/
theorem Decides.map {m : Lowering α} (h : Decides Q P (m w)) (f : α → β) : Decides Q P ((f <$> m) w) := by
  change Decides Q P ((m >>= fun a => Pure.pure (f a)) w)
  exact h.bind_total fun a _ _ _ h => .pure h (f a)

/-- Less may be said of the workspace that a success leaves. -/
theorem Decides.imp {o : Except CompileError (α × Workspace)} (h : Decides Q P o) (hQ : ∀ w, Q w → Q' w) :
    Decides Q' P o := by
  cases o with
  | ok r => exact ⟨h.1, hQ r.2 h.2⟩
  | error e => exact h

theorem Knows.congr (h : Knows D w) (hD : ∀ s, D s ↔ D' s) : Knows D' w :=
  ⟨fun s => (h.env s).trans (hD s), fun b hb => (h.memo b hb).mono fun s => (hD s).1⟩

/-! ## One assignment -/

/-- A value that is elsewhere can be copied to the destination. -/
theorem decides_deliver {d : Qubit} (hR : Ready ρ s₀ x S (some d) w) (hL : Lowered ρ s₀ x S r (some d) w p w₁ E)
    (h : Knows D w₁) : Decides (Knows D) True (deliver p (some d) w₁) := by
  rw [deliver]
  by_cases hpd : d = p
  · rw [if_pos hpd]
    exact .pure h p
  · rw [if_neg hpd]
    have hF := hL.fetched
    have hnot : d ∉ [p] := fun hmem => hpd (List.mem_singleton.1 hmem)
    have hO : Onto ρ s₀ x S w [p] w₁ E d := ⟨hF, hF.grows.inUse (hR.apart d rfl).inUse,
      hF.unnoted_of_apart (hR.apart d rfl) (hR.unnoted d rfl) hnot, hnot⟩
    refine (hO.decides_cx h (by simp)).total_bind fun _ w₂ _ h => ?_
    exact (decides_release h p).total_bind fun _ _ _ h => .pure h d

/-- When a symbol is bound, it is one more symbol with a qubit. -/
theorem decides_rebind {t : Symbol} {e : Expression} (h : Knows D w) (he : e.Compilable D) (q : Qubit) :
    Decides (Knows fun s => s = t ∨ D s) True (rebind t e q w) := by
  refine .modify ⟨fun s => ?_, fun b hb => ?_⟩
  · exact (NameMap.isSome_get?_insert w.env t q s).trans (or_congr_right (h.env s))
  · rcases mem_memo_rebind hb with ⟨rfl, -⟩ | ⟨hb, -⟩
    · exact he.mono fun _ => Or.inr
    · exact (h.memo b hb).mono fun _ => Or.inr

/-- Scratch qubits can always be driven back. -/
theorem decides_reclaim (h : Knows D w) : Decides (Knows D) True (reclaim w) := by
  refine (Decides.onCircuit (f := fun c => c.uncompute []) h.onCircuit).total_bind fun reclaimed w₁ _ h => ?_
  exact .modify ⟨h.env, fun b hb => h.memo b (Memo.mem_foldl_eraseQubit.1 hb).1⟩

/-- The value of an assignment is made, and its target is bound to the qubit. -/
theorem decides_assignTo (hs : Sound ρ s₀ none w) (hb : a.expr.isBoolean = true) (hc : a.expr.isCountable = true)
    (hdest : (if a.target ∈ w.outputs then some <$> onCircuit (·.addQubit none) else pure none : Lowering (Option Qubit)) w =
      .ok (dest, w₁)) (hR : Ready ρ s₀ none (fun s => a.expr.mentions s) dest w₁)
    (hz : ∀ d, dest = some d → w₁.circuit.final s₀ d = false) (h : Knows D w₁) :
    Decides (Knows fun s => s = a.target ∨ D s) (a.expr.Compilable D)
      ((do
        let q ← lower a.expr dest (some a.target)
        let q ← deliver q dest
        rebind a.target a.expr q
        emit (·.mapQubit a.target q (!a.target.isSynthetic))
        discard <| onCircuit (·.unmarkAncilla q)
        reclaim : Lowering Unit) w₁) := by
  refine (decides_root hb hc hR hz h).bind_total fun p w₂ hlower he h => ?_
  have hdeliver : Decides (Knows D) True (deliver p dest w₂) := by
    cases dest with
    | none => exact .pure h p
    | some d =>
      rcases lower_root hb hR hz hlower with ⟨E, hL⟩ | ⟨hd, -⟩
      · exact decides_deliver hR hL h
      · cases hd
  refine hdeliver.total_bind fun q w₃ hdeliver h => ?_
  obtain ⟨x, E, hV⟩ := exists_valued hb hs hdest hlower hdeliver
  refine (decides_rebind h he q).total_bind fun _ w₄ hrebind h => ?_
  have hq : q < w₄.circuit.numQubits := by
    obtain rfl := Lowering.modify_eq_ok.1 hrebind
    exact hV.inUse.1
  refine (Decides.emit (Circuit.mapQubit_total hq _ _) h.onCircuit).total_bind fun _ w₅ _ h => ?_
  exact ((Decides.onCircuit h.onCircuit).map _).total_bind fun _ _ _ h => decides_reclaim h

/-- An assignment at rest succeeds exactly if its expression is well formed and its symbols have qubits. -/
theorem decides_assign (hw : Settled ρ s₀ w) (h : Knows D w) (hb : a.expr.isBoolean = true) (hc : a.expr.isCountable = true) :
    Decides (Knows fun s => s = a.target ∨ D s) (a.expr.Compilable D) (assign a w) := by
  have hs := hw.sound
  have hR : Ready ρ s₀ none (fun s => a.expr.mentions s) none w := ⟨hs, by simp, by simp, by simp⟩
  unfold assign
  rw [Lowering.get_bind]
  by_cases hout : a.target ∈ w.outputs
  · rw [if_pos hout]
    refine ((Decides.onCircuit h.onCircuit).map some).total_bind fun dest w₁ hdest h => ?_
    have hdest' := hdest
    obtain ⟨d, hadd, rfl⟩ := Lowering.map_eq_ok.1 hdest
    obtain ⟨rfl, rfl⟩ := Lowering.onCircuit_eq_ok.1 hadd
    obtain ⟨hO, -⟩ := onto_addQubit (.refl hs (fun s => a.expr.mentions s) none) .none
    have hzero : (w.circuit.addQubit none).1.final s₀ w.circuit.numQubits = false := hs.zero _ (Or.inr (Nat.le_refl _))
    exact decides_assignTo hs hb hc (by rw [if_pos hout]; exact hdest') (hO.ready hR)
      (fun d hd => Option.some.inj hd ▸ hzero) h
  · rw [if_neg hout]
    refine (Decides.pure h none).total_bind fun dest w₁ hdest h => ?_
    obtain ⟨rfl, rfl⟩ := Lowering.pure_eq_ok.1 hdest
    exact decides_assignTo hs hb hc (by rw [if_neg hout]; rfl) hR (by simp) h

/-! ## A whole compilation -/

/-- Assignments succeed exactly if they can be compiled one after another. -/
theorem decides_assignAll : ∀ {l : List Assignment} {D : Symbol → Prop} {ρ : Valuation} {w : Workspace},
    (∀ a ∈ l, a.expr.isBoolean = true) → (∀ a ∈ l, a.expr.isCountable = true) → Settled ρ s₀ w → Knows D w →
    Decides (Knows fun s => D s ∨ s ∈ l.map Assignment.target) (AllCompilable D l) (assignAll l w) := by
  intro l
  induction l with
  | nil => exact fun _ _ _ h => .pure (h.congr fun s => by simp) ()
  | cons a l ih =>
    intro D ρ w hb hc hw h
    refine (decides_assign hw h (hb a List.mem_cons_self) (hc a List.mem_cons_self)).bind fun _ w₁ hrun _ h => ?_
    obtain ⟨v, -, hw₁, -⟩ := assign_spec hw (hb a List.mem_cons_self) hrun
    refine (ih (fun b hm => hb b (List.mem_cons_of_mem a hm)) (fun b hm => hc b (List.mem_cons_of_mem a hm)) hw₁ h).imp ?_
    refine fun w' h => h.congr fun s => ?_
    rw [List.map_cons, List.mem_cons, or_assoc, or_left_comm]

/-- The outputs can be looked up if all of them have qubits. -/
theorem decides_lookupAll (h : Knows D w) (l : List Symbol) : Decides (Knows D) (∀ s ∈ l, D s) (lookupAll l w) := by
  induction l generalizing w with
  | nil => exact (Decides.pure h []).congr (by simp)
  | cons s l ih =>
    rw [List.forall_mem_cons]
    refine (decides_lookup h s).bind fun q w₁ _ _ h => ?_
    exact (ih h).bind_total fun _ _ _ _ h => .pure h _

/-- The arguments can always be bound. -/
theorem decides_bindInputs : ∀ {l : List Symbol} {D : Symbol → Prop} {w : Workspace}, Knows D w →
    Decides (Knows fun s => D s ∨ s ∈ l) True (bindInputs l w) := by
  intro l
  induction l with
  | nil => exact fun h => .pure (h.congr fun s => by simp) ()
  | cons t l ih =>
    intro D w h
    have hbind : Decides (Knows fun s => s = t ∨ D s) True (bindInput t w) := by
      refine (Decides.onCircuit h.onCircuit).total_bind fun q w₁ _ h => ?_
      refine Decides.total_bind (.modify ⟨fun s => ?_, fun b hb => (h.memo b hb).mono fun _ => Or.inr⟩)
        fun _ _ _ h => .pure h q
      exact (NameMap.isSome_get?_insert w₁.env t q s).trans (or_congr_right (h.env s))
    refine (hbind.map _).total_bind fun _ w₁ _ h => (ih h).imp fun w' h => h.congr fun s => ?_
    rw [List.mem_cons, or_assoc, or_left_comm]

/-- A compilation succeeds exactly if the assignments can be compiled one after another and the outputs have qubits at the end. -/
theorem decides_build {inputs outputs : List Symbol} {l : List Assignment} (hb : ∀ a ∈ l, a.expr.isBoolean = true)
    (hc : ∀ a ∈ l, a.expr.isCountable = true) (options : Options) (name : String) :
    Decides (fun _ => True) (AllCompilable (· ∈ inputs) l ∧ ∀ o ∈ outputs, o ∈ inputs ∨ o ∈ l.map Assignment.target)
      (build inputs l outputs (start options name outputs)) := by
  have hstart : Knows (fun _ => False) (start options name outputs) :=
    ⟨fun s => by simp [start], fun b hb => by simp [start] at hb⟩
  refine (decides_bindInputs hstart).total_bind fun _ w₁ hbind h => ?_
  -- any values of the arguments will do: whether a step succeeds does not depend on them
  have hrow : (List.replicate inputs.length false).length = inputs.length := List.length_replicate
  obtain ⟨hw, -⟩ := settled_of_bindInputs hrow hbind
  refine (decides_assignAll hb hc hw (h.congr fun s => by simp)).bind fun _ w₂ _ _ h => ?_
  exact (decides_lookupAll h outputs).imp fun _ _ => trivial

end Workspace

/-- A program without black boxes is compiled exactly if its expressions are well formed and it is closed, whatever the options
are. The circuit never refuses a gate or a name, whether the program is compiled or not. -/
theorem compile_ok_iff {p : Program} (hbool : ∀ a ∈ p.assignments, a.expr.isBoolean = true)
    (hcount : ∀ a ∈ p.assignments, a.expr.isCountable = true) (options : Options) :
    ((∃ c, p.compile options = .ok c) ↔ (∀ a ∈ p.assignments, a.expr.isWellFormed = true) ∧ p.Closed) ∧
      ∀ e : CircuitError, p.compile options ≠ .error (.circuit e) := by
  have hclosed : (AllCompilable (· ∈ p.inputSymbols) p.assignments ∧
      ∀ o ∈ p.outputs, o ∈ p.inputSymbols ∨ o ∈ p.assignments.map Assignment.target) ↔
      (∀ a ∈ p.assignments, a.expr.isWellFormed = true) ∧ p.Closed := by
    rw [allCompilable_iff, and_assoc, Program.Closed]
  have hbuild := (Workspace.decides_build hbool hcount options p.name).congr hclosed
  have hcompile : p.compile options = (Workspace.build p.inputSymbols p.assignments p.outputs
      (.start options p.name p.outputs) >>= fun r => pure (r.2.finish r.1)) := rfl
  cases hrun : Workspace.build p.inputSymbols p.assignments p.outputs (.start options p.name p.outputs) with
  | ok r =>
    rw [hrun] at hbuild hcompile
    have hok : p.compile options = .ok (r.2.finish r.1) := hcompile
    exact ⟨iff_of_true ⟨_, hok⟩ hbuild.1, fun e he => nomatch hok.symm.trans he⟩
  | error e =>
    rw [hrun] at hbuild hcompile
    have herror : p.compile options = .error e := hcompile
    refine ⟨iff_of_false (fun ⟨c, hc⟩ => nomatch herror.symm.trans hc) hbuild.1, fun e' he => ?_⟩
    exact hbuild.2 e' (Except.error.inj (herror.symm.trans he))

/-- Equal operands, a value that is noted on the qubit it is added to, and an argument that is its own output. -/
def Program.selfReading : Program :=
  { name := "self reading"
    inputs := [.bit "a", .bit "b"]
    assignments := [⟨"t", .and [.ref "a", .ref "b", .ref "a"]⟩,
      ⟨"t", .xor [.ref "t", .and [.ref "a", .ref "b", .ref "a"], .not (.ref "b")]⟩,
      ⟨"o", .or [.ref "t", .ref "t"]⟩, ⟨"a", .ref "a"⟩]
    outputs := ["o", "a"] }

/-- The program is compiled, and with an output that nothing gives a value to it is not. -/
theorem compile_ok_iff_selfReading : (∃ c, Program.selfReading.compile {} = .ok c) ∧
    ¬∃ c, ({ Program.selfReading with outputs := ["o", "c"] } : Program).compile {} = .ok c :=
  ⟨(compile_ok_iff (by decide) (by decide) {}).1.2 (by decide +kernel),
    fun h => absurd ((compile_ok_iff (by decide) (by decide) {}).1.1 h).2 (by decide +kernel)⟩

end ReversibleLogic
