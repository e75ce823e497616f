import ReversibleLogic.Proofs.Compile.Boundary
import ReversibleLogic.Proofs.Compile.InPlace
import ReversibleLogic.Proofs.Compile.Schedule
import ReversibleLogic.Proofs.Section.Run

/-!
# Simultaneous assignments

Assignments that happen at once all read the values from before (`Valuation.together`). A circuit compiled in place makes them one
after another, each on the qubit of its target, and what it leaves is what all of them at once would leave
(`compileInPlace_simultaneous`).

Between two of the assignments the compilation is at rest, and the symbols have the values that the assignments made so far give
them, all at once (`InPlace`). This is known for every row of bits in which the targets that have been made from 0 are 0; a target
that is still to be made may hold anything. So a value that is noted for its qubit depends on the target or on symbols that have
been assigned, and none of these is read any more.
-/

namespace ReversibleLogic

/-! ## What happens at once -/

namespace Valuation

variable {ρ : Valuation} {l : List Assignment} {a : Assignment} {s : Symbol}

/-- The values after assignments that happen at once: each target has the value that its expression had before. -/
def together (ρ : Valuation) : List Assignment → Valuation
  | [] => ρ
  | a :: l => fun s => if s = a.target then (a.expr.eval ρ).toOption else ρ.together l s

theorem together_apply (ρ : Valuation) (a : Assignment) (l : List Assignment) (s : Symbol) :
    ρ.together (a :: l) s = if s = a.target then (a.expr.eval ρ).toOption else ρ.together l s := rfl

/-- A symbol that is not assigned keeps its value. -/
theorem together_of_forall_ne (h : ∀ a ∈ l, a.target ≠ s) : ρ.together l s = ρ s := by
  induction l with
  | nil => rfl
  | cons a l ih =>
    rw [together_apply, if_neg (h a List.mem_cons_self).symm, ih fun b hb => h b (List.mem_cons_of_mem a hb)]

/-- A symbol that is assigned once has the value of its expression. -/
theorem together_of_mem (hl : l.Pairwise fun a b => a.target ≠ b.target) (ha : a ∈ l) :
    ρ.together l a.target = (a.expr.eval ρ).toOption := by
  induction l with
  | nil => cases ha
  | cons b l ih =>
    obtain ⟨hb, hl⟩ := List.pairwise_cons.1 hl
    rcases List.mem_cons.1 ha with rfl | ha
    · rw [together_apply, if_pos rfl]
    · rw [together_apply, if_neg (hb a ha).symm, ih hl ha]

/-- Assignments do not change the value of an expression that mentions none of their targets. -/
theorem eval_together {e : Expression} (h : ∀ a ∈ l, e.mentions a.target = false) : e.eval (ρ.together l) = e.eval ρ :=
  Expression.eval_congr fun s hs => together_of_forall_ne fun a ha he => by simp [← he, h a ha] at hs

/-- One more assignment sets its target. -/
theorem together_cons {v : Bool} (h : a.expr.eval ρ = .ok v) : ρ.together (a :: l) = (ρ.together l).set a.target v := by
  funext s
  rw [together_apply]
  by_cases hs : s = a.target
  · rw [if_pos hs, h, hs, set_self]
    rfl
  · rw [if_neg hs, set_of_ne _ hs]

end Valuation

namespace Workspace

variable {ρ : Valuation} {s₀ : Bits} {x : Option Qubit} {w w' w₁ : Workspace} {home q : Qubit} {E : List LogEntry}
  {symbols zeroed : List Symbol} {done : List Assignment} {a : Assignment} {row : List Bool} {t : Symbol} {u : Unit}

/-! ## One assignment -/

/-- The value of an assignment is on the qubit of its target. What was noted about the target and its qubit is forgotten then, so
it does not matter how the value came there. -/
theorem valued_at_home (hhome : w.env.get? a.target = some home) (halone : ∀ s, w.env.get? s = some home → s = a.target)
    (hout : w.outputs = []) (hG : Grows x w w₁ E) (hs : Sound ρ s₀ x w₁) (hv : a.expr.eval ρ = .ok (w₁.circuit.final s₀ home))
    (hloose : ∀ p, w₁.Loose p → w.Loose p ∨ p = home) (hx : ∀ p, x = some p → p = home) :
    Valued ρ s₀ a w home { w₁ with memo := (w₁.memo.eraseSymbol a.target).eraseQubit home } x E where
  grows := hG.withMemo _
  sound := hs.shrinkMemo fun _ hb => (Memo.mem_eraseSymbol.1 (Memo.mem_eraseQubit.1 hb).1).1
  value := hv
  inUse := hs.env_inUse (hG.env ▸ hhome)
  loose := hloose
  overwritten p hp := ⟨hx p hp, hhome, by simp [hout]⟩
  alone _ := halone
  noted _ b hb he := absurd he (Memo.mem_eraseQubit.1 hb).2
  output ht := by simp [hout] at ht

/-- A target that has its value on its own qubit needs no new name. -/
theorem named_at_home (hhome : w.env.get? t = some home) (hnames : t ≠ "TRUE" → t ≠ "FALSE" → w.circuit.names.get? t = some home)
    (hs : Sound ρ s₀ x w) (hm : ∀ b ∈ w.memo.entries, b.1.mentions t = false) (e : Expression) : Named t e home w w := by
  have hb := hs.env_bound t home hhome
  refine ⟨rfl, ⟨rfl, rfl⟩, rfl, fun s ht hf => ?_, fun p => ⟨Or.inr, ?_⟩, fun _ => id, fun _ _ => id, fun _ => id, fun _ _ => id,
    fun p => ⟨fun hp => ⟨hp, ?_⟩, And.left⟩, fun s => ?_, ⟨rfl, rfl⟩, fun _ => rfl, fun b hb => Or.inr ⟨hb, fun _ => hm b hb⟩⟩
  · by_cases hst : s = t
    · rw [hst, NameMap.get?_insert_self]
      exact hnames (hst ▸ ht) (hst ▸ hf)
    · rw [NameMap.get?_insert_of_ne _ hst]
  · rintro (rfl | hp)
    · exact hb
    · exact hp
  · rintro rfl
    exact (hs.marked_scratch p hp).2 hb
  · by_cases hst : s = t
    · rw [hst, NameMap.get?_insert_self, hhome]
    · rw [NameMap.get?_insert_of_ne _ hst]

/-! ## Between assignments -/

/-- The assignments `done` have been made in place, starting with a row of bits: the compilation is at rest, the symbols have the
values that these assignments give them all at once, and each symbol has the qubit that it had at the start. -/
structure InPlace (symbols : List Symbol) (done : List Assignment) (row : List Bool) (w : Workspace) : Prop where
  settled : Settled ((Valuation.ofBits symbols (.ofRow row)).together done) (.ofRow row) w
  env : ∀ s, w.env.get? s = symbols.idxOf? s
  outputs : w.outputs = []
  /-- Constants are held behind the symbols. -/
  const : ∀ v q, w.constQubit v = some q → symbols.length ≤ q
  width : symbols.length ≤ w.circuit.numQubits

namespace InPlace

variable {e : Expression}

/-- No two symbols have the same qubit. -/
theorem env_inj (h : InPlace symbols done row w) {s : Symbol} (ht : w.env.get? t = some home) (hs : w.env.get? s = some home) :
    s = t := by
  rw [h.env, List.idxOf?_eq_some_iff] at ht hs
  obtain ⟨_, ht, -⟩ := ht
  obtain ⟨_, hs, -⟩ := hs
  exact hs.symm.trans ht

/-- A symbol that has not been assigned has the bit of the row on its qubit. -/
theorem final_home (h : InPlace symbols done row w) (hhome : w.env.get? t = some home) (hnew : ∀ b ∈ done, b.target ≠ t) :
    w.circuit.final (.ofRow row) home = Bits.ofRow row home := by
  have hv := h.settled.sound.env_value t home hhome (by simp)
  rw [Valuation.together_of_forall_ne hnew, Valuation.ofBits, ← h.env, hhome] at hv
  exact (Option.some.inj hv).symm

/-- The qubit of a symbol that is still to be made from 0 has nothing to do with the expression for it. What is noted for the
qubit changes with the bit of the row on it, so it depends on the symbol or on one that has been assigned. -/
theorem apart (h : InPlace symbols done row w) (h' : InPlace symbols done (row.set home true) w)
    (hhome : w.env.get? t = some home) (hlt : home < row.length) (hrow : Bits.ofRow row home = false)
    (hdone : ∀ b ∈ done, b.target ≠ t ∧ e.mentions b.target = false) (ht : e.mentions t = false) :
    Apart w (fun s => e.mentions s) home := by
  have hnew : ∀ b ∈ done, b.target ≠ t := fun b hb => (hdone b hb).1
  refine ⟨h.settled.sound.env_inUse hhome, fun v hv => ?_, fun s hs he => ?_, fun b hb hq => ?_⟩
  · obtain ⟨hlt, -⟩ := List.idxOf?_eq_some_iff.1 (h.env t ▸ hhome)
    exact Nat.not_lt.2 (h.const v home hv) hlt
  · rw [h.env_inj hhome he, ht] at hs
    cases hs
  · by_contra hno
    simp only [not_exists, not_and, Bool.not_eq_false] at hno
    -- with all its symbols in `e`, the noted value does not change when the bit does
    have hsame : b.1.eval ((Valuation.ofBits symbols (.ofRow row)).together done) =
        b.1.eval ((Valuation.ofBits symbols (.ofRow (row.set home true))).together done) := by
      refine Expression.eval_congr fun s hs => ?_
      have hs' := hno s hs
      have hkeep : ∀ b ∈ done, b.target ≠ s := fun b hb he => by simp [← he, (hdone b hb).2] at hs'
      rw [Valuation.together_of_forall_ne hkeep, Valuation.together_of_forall_ne hkeep, Valuation.ofBits, Valuation.ofBits,
        ← h.env]
      cases hs : w.env.get? s with
      | none => rfl
      | some q =>
        have hne : home ≠ q := fun he => by
          have hst : s = t := h.env_inj hhome (he ▸ hs)
          rw [hst, ht] at hs'
          cases hs'
        rw [Option.map_some, Option.map_some, Bits.ofRow, Bits.ofRow, List.getElem?_set_ne hne]
    rw [h.settled.sound.memo_value b hb (by simp), h'.settled.sound.memo_value b hb (by simp), hq,
      h.final_home hhome hnew, h'.final_home hhome hnew, hrow] at hsame
    simp [Bits.ofRow, List.getElem?_set_self hlt] at hsame

/-- One more assignment is made in place, if it reads no target of an earlier one. The value is changed where it is, or it is made
on the target's qubit, which is at 0 then. -/
theorem valued (h : InPlace symbols done row w) (ha : a.expr.isBoolean = true)
    (hdone : ∀ b ∈ done, b.target ≠ a.target ∧ a.expr.mentions b.target = false)
    (hzeroed : a.target ∈ zeroed → a.expr.mentions a.target = false ∧ ∀ i, symbols.idxOf? a.target = some i →
      i < row.length ∧ Bits.ofRow row i = false ∧ InPlace symbols done (row.set i true) w)
    (hrun : assignInPlace zeroed a w = .ok (u, w')) :
    ∃ home w₁ x E, w.env.get? a.target = some home ∧ (∀ b ∈ w₁.memo.entries, b.1.mentions a.target = false) ∧
      Valued ((Valuation.ofBits symbols (.ofRow row)).together done) (.ofRow row) a w home w₁ x E ∧
      reclaim w₁ = .ok (u, w') := by
  obtain ⟨home, w₁, hhome, hreclaim, hparts⟩ := assignInPlace_cases hrun
  have hs := h.settled.sound
  have halone : ∀ s, w.env.get? s = some home → s = a.target := fun s => h.env_inj hhome
  have hmemo : ∀ b ∈ ((w₁.memo.eraseSymbol a.target).eraseQubit home).entries, b.1.mentions a.target = false :=
    fun b hb => (Memo.mem_eraseSymbol.1 (Memo.mem_eraseQubit.1 hb).1).2
  rcases hparts with ⟨hz, q, w₀, hlower, hdeliver⟩ | ⟨-, hlower⟩
  · obtain ⟨hself, hrow⟩ := hzeroed hz
    obtain ⟨hlt, hrow, h'⟩ := hrow home (h.env a.target ▸ hhome)
    have hR := hs.ready (h.apart h' hhome hlt hrow hdone hself)
    have hzero : w.circuit.final (.ofRow row) home = false := (h.final_home hhome fun b hb => (hdone b hb).1).trans hrow
    obtain ⟨E, hL⟩ := lowered_dest ha hR hzero hlower
    obtain ⟨-, E', hF, hv, -⟩ := lowered_deliver hR hzero hL hdeliver
    refine ⟨home, _, some home, E', hhome, hmemo, valued_at_home hhome halone h.outputs hF.grows hF.sound hv (fun p hp => ?_)
      fun p hp => (Option.some.inj hp).symm, hreclaim⟩
    rcases hF.loose p hp with hp | hp | hp
    · exact Or.inl hp
    · exact Or.inr (List.mem_singleton.1 hp)
    · exact Or.inr (Option.some.inj hp).symm
  · rcases lower_root ha ⟨hs, by simp, by simp, by simp⟩ (by simp) hlower with ⟨E, hF, hv, -⟩ | ⟨-, E, hU⟩
    · refine ⟨home, _, none, E, hhome, hmemo, valued_at_home hhome halone h.outputs hF.grows hF.sound hv (fun p hp => ?_)
        (by simp), hreclaim⟩
      rcases hF.loose p hp with hp | hp | hp
      · exact Or.inl hp
      · exact Or.inr (List.mem_singleton.1 hp)
      · cases hp
    · exact ⟨home, _, some home, E, hhome, hmemo, valued_at_home hhome halone h.outputs hU.grows hU.sound hU.value hU.loose
        fun p hp => (Option.some.inj hp).symm, hreclaim⟩

/-- One assignment leads from one state between assignments to the next. -/
theorem step (h : InPlace symbols done row w) (ha : a.expr.isBoolean = true)
    (hdone : ∀ b ∈ done, b.target ≠ a.target ∧ a.expr.mentions b.target = false)
    (hzeroed : a.target ∈ zeroed → a.expr.mentions a.target = false ∧ ∀ i, symbols.idxOf? a.target = some i →
      i < row.length ∧ Bits.ofRow row i = false ∧ InPlace symbols done (row.set i true) w)
    (hrun : assignInPlace zeroed a w = .ok (u, w')) : InPlace symbols (a :: done) row w' := by
  obtain ⟨home, w₁, x, E, hhome, hmemo, hV, hreclaim⟩ := h.valued ha hdone hzeroed hrun
  have hhome₁ : w₁.env.get? a.target = some home := hV.grows.env ▸ hhome
  have hnames : a.target ≠ "TRUE" → a.target ≠ "FALSE" → w₁.circuit.names.get? a.target = some home := fun ht hf => by
    rw [hV.grows.names _ ht hf, h.settled.names _ ht hf, hhome]
  have hN := named_at_home hhome₁ hnames hV.sound hmemo a.expr
  obtain ⟨hentries, hcomp⟩ := hV.logs h.settled hN
  obtain rfl := reclaim_eq_ok (fun e he => (hentries e (hcomp e he).1).1) hreclaim
  have hv := hV.value
  rw [Valuation.eval_together fun b hb => (hdone b hb).2] at hv
  refine ⟨?_, fun s => ?_, ?_, fun v q hq => ?_, ?_⟩
  · rw [Valuation.together_cons hv]
    exact hV.settled h.settled hN
  · exact (congrArg (·.get? s) hV.grows.env).trans (h.env s)
  · exact hV.grows.settings.2.2.trans h.outputs
  · have hq' : w₁.constQubit v = some q := by cases v <;> exact hq
    rcases hV.grows.const_new v q hq' with hold | hnew
    · exact h.const v q hold
    · exact Nat.le_trans h.width hnew
  · exact Nat.le_trans h.width hV.grows.numQubits_le

end InPlace

/-! ## Runs -/

/-- The row has a bit for each symbol, and 0 for the targets of `done` that are made from 0. -/
structure Cleared (symbols zeroed : List Symbol) (done : List Assignment) (row : List Bool) : Prop where
  length : row.length = symbols.length
  zero : ∀ b ∈ done, b.target ∈ zeroed → ∀ i, symbols.idxOf? b.target = some i → Bits.ofRow row i = false

/-- Before an assignment its target may hold anything. -/
theorem Cleared.set (h : Cleared symbols zeroed (a :: done) row) (hdone : ∀ b ∈ done, b.target ≠ a.target) {i : Nat}
    (hi : symbols.idxOf? a.target = some i) : Cleared symbols zeroed done (row.set i true) := by
  refine ⟨(List.length_set ..).trans h.length, fun b hb hz j hj => ?_⟩
  have hne : i ≠ j := by
    rintro rfl
    obtain ⟨_, ha, -⟩ := List.idxOf?_eq_some_iff.1 hi
    obtain ⟨_, hb', -⟩ := List.idxOf?_eq_some_iff.1 hj
    exact hdone b hb (hb'.symm.trans ha)
  rw [Bits.ofRow, List.getElem?_set_ne hne]
  exact h.zero b (List.mem_cons_of_mem a hb) hz j hj

/-- Assignments that can be made one after another leave what all of them at once would leave. The induction is on the
assignments that are still to be made, for all rows together. -/
theorem assignAllInPlace_spec {l : List Assignment} : ∀ {done : List Assignment} {w : Workspace},
    (∀ a ∈ l, a.expr.isBoolean = true ∧ (a.target ∈ zeroed → a.expr.mentions a.target = false)) → Sequential l →
    (∀ b ∈ done, ∀ a ∈ l, b.target ≠ a.target ∧ a.expr.mentions b.target = false) →
    (∀ row, Cleared symbols zeroed done row → InPlace symbols done row w) → assignAllInPlace zeroed l w = .ok (u, w') →
    ∀ row, Cleared symbols zeroed (l.reverse ++ done) row → InPlace symbols (l.reverse ++ done) row w' := by
  induction l with
  | nil =>
    intro done w _ _ _ h hrun
    obtain ⟨-, rfl⟩ := Lowering.pure_eq_ok.1 hrun
    exact h
  | cons a l ih =>
    intro done w hl hseq hdone h hrun
    obtain ⟨_, w₁, ha, hrest⟩ := Lowering.bind_eq_ok.1 hrun
    obtain ⟨hlater, hseq⟩ := List.pairwise_cons.1 hseq
    obtain ⟨hbool, hself⟩ := hl a List.mem_cons_self
    have hdone' : ∀ b ∈ done, b.target ≠ a.target ∧ a.expr.mentions b.target = false :=
      fun b hb => hdone b hb a List.mem_cons_self
    have hstep : ∀ row, Cleared symbols zeroed (a :: done) row → InPlace symbols (a :: done) row w₁ := by
      intro row hrow
      have hold : Cleared symbols zeroed done row := ⟨hrow.length, fun b hb => hrow.zero b (List.mem_cons_of_mem a hb)⟩
      refine (h row hold).step hbool hdone' (fun hz => ⟨hself hz, fun i hi => ⟨?_, ?_, ?_⟩⟩) ha
      · exact hrow.length ▸ (List.idxOf?_eq_some_iff.1 hi).1
      · exact hrow.zero a List.mem_cons_self hz i hi
      · exact h _ (hrow.set (fun b hb => (hdone' b hb).1) hi)
    have hdone'' : ∀ b ∈ a :: done, ∀ c ∈ l, b.target ≠ c.target ∧ c.expr.mentions b.target = false := by
      intro b hb c hc
      rcases List.mem_cons.1 hb with rfl | hb
      · exact hlater c hc
      · exact hdone b hb c (List.mem_cons_of_mem a hc)
    have hrun := ih (fun b hb => hl b (List.mem_cons_of_mem a hb)) hseq hdone'' hstep hrest
    rwa [List.reverse_cons, List.append_assoc, List.singleton_append]

/-- Symbols that are bound have the next qubits, in their order. -/
theorem bindInputs_env {l : List Symbol} : ∀ {u : Unit} {w w' : Workspace}, l.Nodup → bindInputs l w = .ok (u, w') →
    ∀ s, w'.env.get? s = ((l.idxOf? s).map (w.circuit.numQubits + ·)).or (w.env.get? s) := by
  induction l with
  | nil =>
    intro u w w' _ h s
    obtain ⟨-, rfl⟩ := Lowering.pure_eq_ok.1 h
    rfl
  | cons r l ih =>
    intro u w w' hl h s
    obtain ⟨hr, hl⟩ := List.nodup_cons.1 hl
    obtain ⟨_, w₁, hbind, hrest⟩ := Lowering.bind_eq_ok.1 h
    obtain ⟨q, hbind, -⟩ := Lowering.map_eq_ok.1 hbind
    obtain ⟨_, w₂, hadd, hset⟩ := Lowering.bind_eq_ok.1 hbind
    obtain ⟨rfl, rfl⟩ := Lowering.onCircuit_eq_ok.1 hadd
    obtain ⟨_, w₃, hmod, hret⟩ := Lowering.bind_eq_ok.1 hset
    obtain rfl := Lowering.modify_eq_ok.1 hmod
    obtain ⟨-, rfl⟩ := Lowering.pure_eq_ok.1 hret
    rw [ih hl hrest s, List.idxOf?_cons]
    dsimp only
    rw [Circuit.numQubits_addQubit]
    by_cases hrs : r = s
    · subst hrs
      rw [List.idxOf?_eq_none_iff.2 hr, if_pos (beq_self_eq_true r), NameMap.get?_insert_self]
      rfl
    · rw [if_neg (by simpa using hrs), NameMap.get?_insert_of_ne _ (Ne.symm hrs), Option.map_map]
      congr 2
      funext i
      exact Nat.add_right_comm ..

/-- Before the first assignment. -/
theorem inPlace_start {options : Options} {name : String} (hsym : symbols.Nodup) (hrow : row.length = symbols.length)
    (hrun : bindInputs symbols (start options name []) = .ok (u, w)) : InPlace symbols [] row w := by
  obtain ⟨hP, hnum, -, hout⟩ := (primed_start options name [] (.ofRow row)).bindInputs hrow hrun
  have hnum' : w.circuit.numQubits = symbols.length := hnum.trans (Nat.zero_add _)
  have hw : Settled (Valuation.ofPairs (symbols.zip row)) (.ofRow row) w := hP.settled fun q hq => by
    rw [Bits.ofRow, List.getElem?_eq_none (by rw [hrow, ← hnum']; exact hq)]
    rfl
  rw [Valuation.ofPairs_zip hsym (Nat.le_of_eq hrow.symm)] at hw
  refine ⟨hw, fun s => ?_, hout, fun v q hq => ?_, Nat.le_of_eq hnum'.symm⟩
  · rw [bindInputs_env hsym hrun s]
    cases symbols.idxOf? s with
    | none => rfl
    | some i => exact congrArg some (Nat.zero_add i)
  · rw [hP.notes.2 v] at hq
    cases hq

end Workspace

/-- A compilation in place that succeeds makes the assignments one after another in an order in which they can be made, and then
all of them have been made, for every row of bits in which the symbols known to hold 0 do so. -/
theorem compileInPlace_run {options : Options} {name : String} {symbols zeroed : List Symbol}
    {assignments : List Assignment} {c : Circuit} {row : List Bool} (hsym : symbols.Nodup)
    (htargets : (assignments.map Assignment.target).Nodup) (hbool : ∀ a ∈ assignments, a.expr.isBoolean = true)
    (hzeroed : ∀ a ∈ assignments, a.target ∈ zeroed → a.expr.mentions a.target = false)
    (hc : compileInPlace options name symbols assignments zeroed = .ok c) (hrow : row.length = symbols.length)
    (hzero : ∀ (i : Nat) (t : Symbol), symbols[i]? = some t → t ∈ zeroed → row[i]? = some false) :
    ∃ l w₁ w, (∀ a, a ∈ l ↔ a ∈ assignments) ∧ Sequential l ∧
      Workspace.bindInputs symbols (.start options name []) = .ok ((), w₁) ∧
      Workspace.assignAllInPlace zeroed l w₁ = .ok ((), w) ∧ w.circuit = c ∧ Workspace.InPlace symbols l.reverse row w := by
  obtain ⟨order, horder, hsteps⟩ := Outcome.bind_eq_ok.1 hc
  obtain ⟨⟨_, w⟩, hrun, hret⟩ := Outcome.bind_eq_ok.1 hsteps
  obtain rfl := Outcome.pure_eq_ok.1 hret
  obtain ⟨_, w₁, hbind, hassign⟩ := Lowering.bind_eq_ok.1 hrun
  have hseq := sequential_schedule htargets horder
  have hsame := mem_schedule horder
  generalize order.filterMap (assignments[·]?) = l at hassign hseq hsame
  have hcleared : Workspace.Cleared symbols zeroed (l.reverse ++ []) row := by
    refine ⟨hrow, fun b hb hz i hi => ?_⟩
    rw [Bits.ofRow, hzero i b.target ((idxOf?_eq_some_iff_getElem? hsym).1 hi) hz]
    rfl
  have hw := Workspace.assignAllInPlace_spec (fun a ha => ⟨hbool a ((hsame a).1 ha), hzeroed a ((hsame a).1 ha)⟩) hseq (by simp)
    (fun row hrow => Workspace.inPlace_start hsym hrow.length hbind) hassign row hcleared
  rw [List.append_nil] at hw
  exact ⟨l, w₁, w, hsame, hseq, hbind, hassign, rfl, hw⟩

/-- A circuit that is compiled in place makes the assignments all at once. Run on any row of bits for the symbols in which the
symbols known to hold 0 do so, it leaves on the qubit of each target the value that the expression for the target has at the bits
of the row, and on the qubit of every other symbol the bit of the row. -/
theorem compileInPlace_simultaneous {options : Options} {name : String} {symbols zeroed : List Symbol}
    {assignments : List Assignment} {c : Circuit} {row : List Bool} (hsym : symbols.Nodup)
    (htargets : (assignments.map Assignment.target).Nodup) (hbool : ∀ a ∈ assignments, a.expr.isBoolean = true)
    (hzeroed : ∀ a ∈ assignments, a.target ∈ zeroed → a.expr.mentions a.target = false)
    (hc : compileInPlace options name symbols assignments zeroed = .ok c) (hrow : row.length = symbols.length)
    (hzero : ∀ (i : Nat) (t : Symbol), symbols[i]? = some t → t ∈ zeroed → row[i]? = some false) :
    ∃ s, c.simulate row = .ok s ∧ ∀ (i : Nat) (t : Symbol), symbols[i]? = some t →
      (∀ a ∈ assignments, a.target = t → ∃ b, a.expr.eval (.ofPairs (symbols.zip row)) = .ok b ∧ s[i]? = some b) ∧
      ((∀ a ∈ assignments, a.target ≠ t) → s[i]? = row[i]?) := by
  obtain ⟨l, w₁, w, hsame, hseq, -, -, rfl, hw⟩ := compileInPlace_run hsym htargets hbool hzeroed hc hrow hzero
  have hsound := hw.settled.sound
  obtain ⟨s, hs, hbit⟩ := Circuit.simulate_bits rfl hw.settled.flips (hrow ▸ hw.width)
  refine ⟨s, hs, fun i t ht => ?_⟩
  -- the qubit of a symbol holds the value that the assignments give it
  have hi : symbols.idxOf? t = some i := (idxOf?_eq_some_iff_getElem? hsym).2 ht
  have henv : w.env.get? t = some i := (hw.env t).trans hi
  have hvalue := hsound.env_value t i henv (by simp)
  rw [hbit i (hsound.env_inUse henv).1, Valuation.ofPairs_zip hsym (Nat.le_of_eq hrow.symm)]
  constructor
  · rintro a ha rfl
    have hdistinct : l.reverse.Pairwise fun a b => a.target ≠ b.target :=
      List.pairwise_reverse.2 (hseq.imp fun h => h.1.symm)
    rw [Valuation.together_of_mem hdistinct (List.mem_reverse.2 ((hsame a).2 ha))] at hvalue
    exact ⟨_, Outcome.toOption_eq_some.1 hvalue, rfl⟩
  · intro hno
    have hkeep : ∀ a ∈ l.reverse, a.target ≠ t := fun a ha => hno a ((hsame a).1 (List.mem_reverse.1 ha))
    have hlt : i < row.length := hrow ▸ (List.getElem?_eq_some_iff.1 ht).1
    rw [← hvalue, Valuation.together_of_forall_ne hkeep, Valuation.ofBits, hi, Option.map_some, Bits.ofRow,
      List.getElem?_eq_getElem hlt]
    rfl

/-- Three assignments in an order in which they cannot be made: the last two read what the first overwrites. -/
def Assignment.readersLast : List Assignment :=
  [⟨"b", .not (.ref "b")⟩, ⟨"a", .xor [.ref "a", .ref "b"]⟩, ⟨"z", .and [.ref "a", .ref "b"]⟩]

/-- With both bits set and `z` at 0, the three assignments leave 0 on `a` and `b` and 1 on `z`, and the bit of `c` stays. -/
theorem compileInPlace_simultaneous_readersLast : ∃ c s,
    compileInPlace {} "readers" ["a", "b", "c", "z"] Assignment.readersLast ["z"] = .ok c ∧
      c.simulate [true, true, true, false] = .ok s ∧
      [s[0]?, s[1]?, s[2]?, s[3]?] = [some false, some false, some true, some true] := by
  obtain ⟨c, hc⟩ := Outcome.exists_of_isOk (x := compileInPlace {} "readers" ["a", "b", "c", "z"] Assignment.readersLast ["z"])
    (by decide +kernel)
  have hzero : ∀ (i : Nat) (t : Symbol), ["a", "b", "c", "z"][i]? = some t → t ∈ ["z"] →
      [true, true, true, false][i]? = some false := by
    intro i t ht hz
    obtain rfl := List.mem_singleton.1 hz
    have hlast : ["a", "b", "c", "z"].idxOf? "z" = some 3 := by decide
    obtain rfl := Option.some.inj (hlast.symm.trans ((idxOf?_eq_some_iff_getElem? (by decide)).2 ht))
    rfl
  obtain ⟨s, hs, hall⟩ := compileInPlace_simultaneous (by decide) (by decide) (by decide) (by decide) hc rfl hzero
  obtain ⟨va, hva, ha⟩ := (hall 0 "a" rfl).1 _ (.tail _ (.head _)) rfl
  obtain ⟨vb, hvb, hb⟩ := (hall 1 "b" rfl).1 _ (.head _) rfl
  obtain ⟨vz, hvz, hz⟩ := (hall 3 "z" rfl).1 _ (.tail _ (.tail _ (.head _))) rfl
  have hkept := (hall 2 "c" rfl).2 (by decide)
  cases hva
  cases hvb
  cases hvz
  exact ⟨c, s, hc, hs, by rw [ha, hb, hkept, hz]; rfl⟩

end ReversibleLogic
