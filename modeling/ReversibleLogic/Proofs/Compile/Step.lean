import ReversibleLogic.Proofs.Compile.Reclaim
import ReversibleLogic.Proofs.Lowering.Root

/-!
# One assignment

Between assignments a compilation is at rest: everything it knows is true, nothing is marked, and every scratch qubit that no
symbol has is free (`Settled`). One assignment leads from rest to rest, with the target at the value of the expression
(`assign_spec`). It does so in three parts: the value is made on a qubit (`Valued`), the target is bound to this qubit
(`Named`), and the scratch qubits are driven back.
-/

namespace ReversibleLogic

namespace Workspace

variable {ρ : Valuation} {s₀ : Bits} {x dest : Option Qubit} {S : Symbol → Bool} {r : Except EvalError Bool}
  {w w' w₁ w₂ : Workspace} {p q out : Qubit} {qs : List Qubit} {E : List LogEntry} {a : Assignment}

/-! ## Making the value -/

/-- The value of an assignment has been made on the qubit `q`. If it has been made in place, `x` is this qubit. -/
structure Valued (ρ : Valuation) (s₀ : Bits) (a : Assignment) (w : Workspace) (q : Qubit) (w' : Workspace)
    (x : Option Qubit) (E : List LogEntry) : Prop where
  grows : Grows x w w' E
  sound : Sound ρ s₀ x w'
  value : a.expr.eval ρ = .ok (w'.circuit.final s₀ q)
  inUse : w'.InUse q
  loose : ∀ p, w'.Loose p → w.Loose p ∨ p = q
  /-- Only the target of the assignment is overwritten, and it is no output then. -/
  overwritten : ∀ p, x = some p → p = q ∧ w.env.get? a.target = some q ∧ a.target ∉ w.outputs
  /-- A qubit that is overwritten is the qubit of no other symbol. -/
  alone : x = some q → ∀ s, w.env.get? s = some q → s = a.target
  /-- What is noted for a qubit that is overwritten is in terms of the old value. -/
  noted : x = some q → ∀ b ∈ w'.memo.entries, b.2 = q → b.1.mentions a.target = true
  /-- The qubit of an output is new, and nothing has read it. -/
  output : a.target ∈ w.outputs → w.circuit.numQubits ≤ q ∧ ∀ e ∈ E, q ∉ e.reads

/-- A qubit that was handed over need not be, if it was not in use and carries a result. -/
theorem Fetched.keepOut (h : Fetched ρ s₀ x S (some out) w qs w' E) (hnew : ¬w.InUse out) (hmem : out ∈ qs) :
    Fetched ρ s₀ x S none w qs w' E := by
  refine ⟨h.grows.keep fun q hq => Option.some.inj hq ▸ hnew, h.sound, h.inUse, fun q hq => ?_, h.unread, fun q hq _ => ?_,
    h.unnoted⟩
  · rcases h.loose q hq with h | h | h
    · exact Or.inl h
    · exact Or.inr (Or.inl h)
    · exact Or.inr (Or.inl (Option.some.inj h ▸ hmem))
  · exact h.notResult q hq fun ho => hnew (Option.some.inj ho ▸ hq.inUse)

/-- A value that is elsewhere is copied to the destination. -/
theorem lowered_deliver {d : Qubit} (hR : Ready ρ s₀ x S (some d) w) (hz : w.circuit.final s₀ d = false)
    (hL : Lowered ρ s₀ x S r (some d) w p w₁ E) (hrun : deliver p (some d) w₁ = .ok (q, w')) :
    q = d ∧ ∃ E', Lowered ρ s₀ x S r (some d) w d w' E' := by
  rw [deliver] at hrun
  by_cases hpd : d = p
  · rw [if_pos hpd] at hrun
    obtain ⟨rfl, rfl⟩ := Lowering.pure_eq_ok.1 hrun
    exact ⟨hpd.symm, E, hpd ▸ hL⟩
  · rw [if_neg hpd] at hrun
    obtain ⟨_, w₂, hg, hrun⟩ := Lowering.bind_eq_ok.1 hrun
    obtain ⟨_, w₃, hrel, hrun⟩ := Lowering.bind_eq_ok.1 hrun
    obtain ⟨rfl, rfl⟩ := Lowering.pure_eq_ok.1 hrun
    obtain ⟨hF, hv, hp⟩ := hL
    -- the value is known, so nothing has been done and the destination is still at 0
    have hE : E = [] := by
      cases hp with
      | known hE => exact hE
      | taken hd => cases hd
      | delivered hd => exact absurd (Option.some.inj hd) hpd
    have hzero : w₁.circuit.final s₀ d = false := by rw [hF.grows.final_eq, hE, actLog_nil, hz]
    have hnot : d ∉ [p] := fun hmem => hpd (List.mem_singleton.1 hmem)
    have hO : Onto ρ s₀ x S w [p] w₁ E d := ⟨hF, hF.grows.inUse (hR.apart d rfl).inUse,
      hF.unnoted_of_apart (hR.apart d rfl) (hR.unnoted d rfl) hnot, hnot⟩
    obtain ⟨hO, hval⟩ := hO.gate rfl rfl (by simp [Gate.cx, Gate.controls]) hg
    obtain ⟨hF', hu, hfin⟩ := hO.settle hrel
    obtain ⟨hF', hp'⟩ := hF'.deliver hu (Or.inl rfl)
    refine ⟨rfl, _, hF', ?_, hp'⟩
    rw [hfin, hval, Function.update_self, hzero, hv]
    simp [Gate.cx, Gate.controls]

/-- The steps that come before the target is bound make the value of the assignment. -/
theorem exists_valued (he : a.expr.isBoolean = true) (hs : Sound ρ s₀ none w)
    (hdest : (if a.target ∈ w.outputs then some <$> onCircuit (·.addQubit none) else pure none : Lowering (Option Qubit)) w =
      .ok (dest, w₁))
    (hlower : lower a.expr dest (some a.target) w₁ = .ok (p, w₂)) (hdeliver : deliver p dest w₂ = .ok (q, w')) :
    ∃ x E, Valued ρ s₀ a w q w' x E := by
  have hR : Ready ρ s₀ none (fun s => a.expr.mentions s) none w := ⟨hs, by simp, by simp, by simp⟩
  by_cases hout : a.target ∈ w.outputs
  · rw [if_pos hout] at hdest
    obtain ⟨d, hadd, rfl⟩ := Lowering.map_eq_ok.1 hdest
    obtain ⟨rfl, rfl⟩ := Lowering.onCircuit_eq_ok.1 hadd
    obtain ⟨hO, hnew⟩ := onto_addQubit (.refl hs (fun s => a.expr.mentions s) none) .none
    have hR' := hO.ready hR
    have hzero : (w.circuit.addQubit none).1.final s₀ w.circuit.numQubits = false := hs.zero _ (Or.inr (Nat.le_refl _))
    rcases lower_root he hR' (fun d hd => Option.some.inj hd ▸ hzero) hlower with ⟨E, hL⟩ | ⟨hd, -⟩
    · obtain ⟨rfl, E', hF, hv, -⟩ := lowered_deliver hR' hzero hL hdeliver
      have hF' := (hO.fetched.trans hF (by simp)).keepOut hnew (by simp)
      refine ⟨none, E', hF'.grows, hF'.sound, hv, hF'.inUse _ (by simp), fun p hp => ?_, by simp, by simp, by simp,
        fun _ => ⟨Nat.le_refl _, fun e he hr => ?_⟩⟩
      · rcases hF'.loose p hp with h | h | h
        · exact Or.inl h
        · exact Or.inr (by simpa using h)
        · cases h
      · exact ((hF.grows.entry e he).reads _ hr).2 rfl
    · cases hd
  · rw [if_neg hout] at hdest
    obtain ⟨rfl, rfl⟩ := Lowering.pure_eq_ok.1 hdest
    obtain ⟨rfl, rfl⟩ := Lowering.pure_eq_ok.1 hdeliver
    rcases lower_root he hR (by simp) hlower with ⟨E, hF, hv, -⟩ | ⟨-, E, hU⟩
    · refine ⟨none, E, hF.grows, hF.sound, hv, hF.inUse _ (by simp), fun p hp => ?_, by simp, by simp, by simp,
        fun h => absurd h hout⟩
      rcases hF.loose p hp with h | h | h
      · exact Or.inl h
      · exact Or.inr (by simpa using h)
      · cases h
    · refine ⟨some p, E, hU.grows, hU.sound, hU.value, hU.sound.env_inUse (hU.grows.env ▸ hU.home), hU.loose,
        fun r hr => ⟨(Option.some.inj hr).symm, hU.home, hout⟩, fun _ => (canOverwrite_eq_true hU.alone).2, fun _ => hU.noted,
        fun h => absurd h hout⟩

/-! ## Binding the target -/

/-- `w'` is `w` after the symbol `t` has been bound to the qubit `q`, which holds the value of `e`. -/
structure Named (t : Symbol) (e : Expression) (q : Qubit) (w w' : Workspace) : Prop where
  gates : w'.circuit.gates = w.circuit.gates
  logs : w'.circuit.history = w.circuit.history ∧ w'.circuit.computed = w.circuit.computed
  numQubits : w'.circuit.numQubits = w.circuit.numQubits
  names : ∀ s, s ≠ "TRUE" → s ≠ "FALSE" → w'.circuit.names.get? s = (w.circuit.names.insert t q).get? s
  bound : ∀ p, p ∈ w'.circuit.bound ↔ p = q ∨ p ∈ w.circuit.bound
  ancillas : ∀ p ∈ w'.circuit.ancillas, p ∈ w.circuit.ancillas
  ancillas_of_ne : ∀ p, p ≠ q → p ∈ w.circuit.ancillas → p ∈ w'.circuit.ancillas
  free : ∀ p ∈ w'.circuit.free, p ∈ w.circuit.free
  free_of_ne : ∀ p, p ≠ q → p ∈ w.circuit.free → p ∈ w'.circuit.free
  marked : ∀ p, p ∈ w'.circuit.marked ↔ p ∈ w.circuit.marked ∧ p ≠ q
  env : ∀ s, w'.env.get? s = (w.env.insert t q).get? s
  settings : w'.options = w.options ∧ w'.outputs = w.outputs
  const : ∀ v, w'.constQubit v = w.constQubit v
  memo : ∀ b ∈ w'.memo.entries, b = (e, q) ∧ e.mentions t = false ∨
    b ∈ w.memo.entries ∧ ((w.env.get? t).isSome = true → b.1.mentions t = false)

/-- The memo after a symbol has been bound: entries about its old value are gone, and its new value may be noted. -/
theorem mem_memo_rebind {w : Workspace} {t : Symbol} {e : Expression} {b : Expression × Qubit}
    (hb : b ∈ (if w.options.memoize && e.isCompound && !e.mentions t then
        (if (w.env.get? t).isSome then w.memo.eraseSymbol t else w.memo).insert e q
      else if (w.env.get? t).isSome then w.memo.eraseSymbol t else w.memo).entries) :
    b = (e, q) ∧ e.isCompound = true ∧ e.mentions t = false ∨
      b ∈ w.memo.entries ∧ ((w.env.get? t).isSome = true → b.1.mentions t = false) := by
  have hold : b ∈ (if (w.env.get? t).isSome then w.memo.eraseSymbol t else w.memo).entries →
      b ∈ w.memo.entries ∧ ((w.env.get? t).isSome = true → b.1.mentions t = false) := by
    intro hb
    split at hb
    · obtain ⟨h1, h2⟩ := Memo.mem_eraseSymbol.1 hb
      exact ⟨h1, fun _ => h2⟩
    · next hn => exact ⟨hb, fun h => absurd h hn⟩
  split at hb
  · next hcond =>
    simp only [Bool.and_eq_true, Bool.not_eq_true'] at hcond
    rcases Memo.mem_insert hb with rfl | hb
    · exact Or.inl ⟨rfl, hcond.1.2, hcond.2⟩
    · exact Or.inr (hold hb)
  · exact Or.inr (hold hb)

/-- The three steps that bind the target. -/
theorem exists_named {t : Symbol} {e : Expression} {b : Bool} {u u' : Unit} {m : Bool}
    (hrebind : rebind t e q w = .ok (u, w₁)) (hmap : emit (·.mapQubit t q b) w₁ = .ok (u', w₂))
    (hunmark : onCircuit (·.unmarkAncilla q) w₂ = .ok (m, w')) : Named t e q w w' := by
  obtain rfl := Lowering.modify_eq_ok.1 hrebind
  obtain ⟨c, hc, rfl⟩ := Lowering.emit_eq_ok.1 hmap
  obtain ⟨-, rfl⟩ := Lowering.onCircuit_eq_ok.1 hunmark
  obtain ⟨⟨hgates, hhistory, hcomputed, hnum⟩, hsets⟩ := Circuit.mapQubit_eq_ok hc
  obtain ⟨-, hnames, hbound⟩ := Circuit.mapQubit_names hc
  have hmarked (p : Qubit) : p ∈ c.marked.erase q ↔ p ∈ w.circuit.marked ∧ p ≠ q := by
    rcases hsets with ⟨-, -, h⟩ | ⟨-, -, h⟩ <;> simp [h, QubitSet.mem_erase]
  -- Either the scratch qubits and the free ones stay as they are, or `q` is taken out of both.
  have hkept (p : Qubit) : (p ∈ c.ancillas → p ∈ w.circuit.ancillas) ∧ (p ≠ q → p ∈ w.circuit.ancillas → p ∈ c.ancillas) ∧
      (p ∈ c.free → p ∈ w.circuit.free) ∧ (p ≠ q → p ∈ w.circuit.free → p ∈ c.free) := by
    rcases hsets with ⟨ha, hf, -⟩ | ⟨ha, hf, -⟩ <;> grind [QubitSet.mem_erase]
  exact {
    gates := hgates
    logs := ⟨hhistory, hcomputed⟩
    numQubits := hnum
    names := fun s _ _ => congrArg (·.get? s) hnames
    bound := fun p => by
      rw [← QubitSet.mem_insert]
      exact iff_of_eq (congrArg (p ∈ ·) hbound)
    ancillas := fun p => (hkept p).1
    ancillas_of_ne := fun p => (hkept p).2.1
    free := fun p => (hkept p).2.2.1
    free_of_ne := fun p => (hkept p).2.2.2
    marked := hmarked
    env := fun _ => rfl
    settings := ⟨rfl, rfl⟩
    const := fun v => by cases v <;> rfl
    memo := fun b hb => (mem_memo_rebind hb).imp_left fun h => ⟨h.1, h.2.2⟩ }

namespace Named

variable {t : Symbol} {e : Expression}

/-- No qubit changes. -/
theorem final_eq (h : Named t e q w w') (s₀ : Bits) : w'.circuit.final s₀ = w.circuit.final s₀ := by
  rw [Circuit.final, Circuit.final, h.gates]

/-- Qubits in use stay in use. -/
theorem inUse (h : Named t e q w w') (hp : w.InUse p) : w'.InUse p :=
  ⟨h.numQubits ▸ hp.1, fun hf => hp.2 (h.free p hf)⟩

theorem get?_self (h : Named t e q w w') : w'.env.get? t = some q := by
  rw [h.env, NameMap.get?_insert_self]

theorem get?_of_ne (h : Named t e q w w') {s : Symbol} (hs : s ≠ t) : w'.env.get? s = w.env.get? s := by
  rw [h.env, NameMap.get?_insert_of_ne _ hs]

/-- The register has the scratch qubits, and those with names. -/
theorem register (h : Named t e q w w') (hs : Sound ρ s₀ x w) (hq : w.InUse q) :
    (∀ p ∈ w'.circuit.ancillas, p < w'.circuit.numQubits) ∧ ∀ p ∈ w'.circuit.bound, p < w'.circuit.numQubits := by
  rw [h.numQubits]
  refine ⟨fun p hp => hs.ancilla_lt p (h.ancillas p hp), fun p hp => ?_⟩
  rcases (h.bound p).1 hp with rfl | hp
  · exact hq.1
  · exact hs.bound_lt p hp

/-- Free and marked qubits are scratch qubits still: the one that has got a name was in use, and is marked no longer. -/
theorem scratch (h : Named t e q w w') (hs : Sound ρ s₀ x w) (hq : w.InUse q) :
    (∀ p ∈ w'.circuit.free, p ∈ w'.circuit.ancillas ∧ p ∉ w'.circuit.bound ∧ p ∉ w'.circuit.marked) ∧
      ∀ p ∈ w'.circuit.marked, p ∈ w'.circuit.ancillas ∧ p ∉ w'.circuit.bound := by
  have hkeep : ∀ p, p ≠ q → p ∈ w.circuit.ancillas → p ∉ w.circuit.bound →
      p ∈ w'.circuit.ancillas ∧ p ∉ w'.circuit.bound := fun p hne ha hb =>
    ⟨h.ancillas_of_ne p hne ha, fun hb' => hb (((h.bound p).1 hb').resolve_left hne)⟩
  constructor
  · intro p hp
    obtain ⟨ha, hb, hm⟩ := hs.free_scratch p (h.free p hp)
    obtain ⟨ha', hb'⟩ := hkeep p (fun hpq => hq.2 (hpq ▸ h.free p hp)) ha hb
    exact ⟨ha', hb', fun hm' => hm ((h.marked p).1 hm').1⟩
  · intro p hp
    obtain ⟨hm, hne⟩ := (h.marked p).1 hp
    obtain ⟨ha, hb⟩ := hs.marked_scratch p hm
    exact hkeep p hne ha hb

/-- The qubits of symbols and of constants have names still, and a constant is where it was. -/
theorem named (h : Named t e q w w') (hs : Sound ρ s₀ x w) :
    (∀ s p, w'.env.get? s = some p → p ∈ w'.circuit.bound) ∧ ∀ v p, w'.constQubit v = some p →
      p ∈ w'.circuit.bound ∧ p ∉ w'.circuit.ancillas ∧ w'.circuit.final s₀ p = v := by
  constructor
  · intro s p hp
    by_cases hst : s = t
    · subst hst
      rw [h.get?_self] at hp
      exact (h.bound p).2 (Or.inl (Option.some.inj hp).symm)
    · rw [h.get?_of_ne hst] at hp
      exact (h.bound p).2 (Or.inr (hs.env_bound s p hp))
  · intro v p hp
    rw [h.const v] at hp
    obtain ⟨hb, ha, hv⟩ := hs.const_value v p hp
    exact ⟨(h.bound p).2 (Or.inr hb), fun ha' => ha (h.ancillas p ha'), by rw [h.final_eq, hv]⟩

end Named

/-- A noted expression that stays when the target is bound is in terms of other symbols: of the target there was no value, or the
expressions that mention it are gone. -/
theorem Valued.not_mentions_of_memo (h : Valued ρ s₀ a w q w₁ x E) {b : Expression × Qubit} (hb : b ∈ w₁.memo.entries)
    (hm : (w₁.env.get? a.target).isSome = true → b.1.mentions a.target = false) : b.1.mentions a.target = false := by
  by_cases ht : (w₁.env.get? a.target).isSome = true
  · exact hm ht
  · have hx : x ≠ some b.2 := fun hx => by
      obtain ⟨-, hq, -⟩ := h.overwritten _ hx
      rw [h.grows.env, hq] at ht
      exact ht rfl
    cases hmen : b.1.mentions a.target with
    | false => rfl
    | true =>
      have hsome := Expression.isSome_of_eval (h.sound.memo_value b hb hx) _ hmen
      exact absurd (h.sound.env_total _ hsome) ht

/-- The target has its new value, and every other symbol the value it had: what was overwritten was the target's own qubit. -/
theorem Valued.env_value (h : Valued ρ s₀ a w q w₁ x E) (hN : Named a.target a.expr q w₁ w') {s : Symbol}
    (hp : w'.env.get? s = some p) : ρ.set a.target (w₁.circuit.final s₀ q) s = some (w'.circuit.final s₀ p) := by
  rw [hN.final_eq]
  by_cases hst : s = a.target
  · subst hst
    rw [hN.get?_self] at hp
    rw [Valuation.set_self, Option.some.inj hp]
  · rw [hN.get?_of_ne hst] at hp
    rw [Valuation.set_of_ne ρ hst]
    refine h.sound.env_value s p hp fun hx => ?_
    obtain ⟨rfl, -, -⟩ := h.overwritten p hx
    exact hst (h.alone hx s (h.grows.env ▸ hp))

/-- What is noted holds for the new values: the value of the target where it is in terms of other symbols, and what was noted
before and does not mention the target. -/
theorem Valued.memo_value (h : Valued ρ s₀ a w q w₁ x E) (hN : Named a.target a.expr q w₁ w') {b : Expression × Qubit}
    (hb : b ∈ w'.memo.entries) :
    b.1.eval (ρ.set a.target (w₁.circuit.final s₀ q)) = .ok (w'.circuit.final s₀ b.2) := by
  rw [hN.final_eq]
  rcases hN.memo b hb with ⟨rfl, hm⟩ | ⟨hb, hm⟩
  · rw [Valuation.eval_set hm]
    exact h.value
  · have hm' := h.not_mentions_of_memo hb hm
    rw [Valuation.eval_set hm']
    refine h.sound.memo_value b hb fun hx => ?_
    obtain ⟨hq, -, -⟩ := h.overwritten _ hx
    rw [h.noted (hq ▸ hx) b hb hq] at hm'
    exact Bool.noConfusion hm'

/-- Binding the target leaves every claim true, for the values after the assignment. -/
theorem Valued.named (h : Valued ρ s₀ a w q w₁ x E) (hN : Named a.target a.expr q w₁ w') :
    Sound (ρ.set a.target (w₁.circuit.final s₀ q)) s₀ none w' := by
  have hs := h.sound
  obtain ⟨hancilla, hbound⟩ := hN.register hs h.inUse
  obtain ⟨hfree, hmarked⟩ := hN.scratch hs h.inUse
  obtain ⟨henv, hconst⟩ := hN.named hs
  refine ⟨hancilla, hbound, hfree, hmarked, henv, fun b hb => ?_, hconst, fun s hsome => ?_, fun s p hp _ => h.env_value hN hp,
    fun b hb _ => h.memo_value hN hb, fun p hp => ?_⟩
  · rcases hN.memo b hb with ⟨rfl, -⟩ | ⟨hb, -⟩
    · exact hN.inUse h.inUse
    · exact hN.inUse (hs.memo_inUse b hb)
  · by_cases hst : s = a.target
    · rw [hst, hN.get?_self]
      rfl
    · rw [Valuation.set_of_ne ρ hst] at hsome
      rw [hN.get?_of_ne hst]
      exact hs.env_total s hsome
  · rw [hN.final_eq]
    exact hs.zero p (hp.imp (hN.free p) fun hle => hN.numQubits ▸ hle)

/-! ## From rest to rest -/

/-- A compilation at rest, when the symbols have the values `ρ` and the qubits started with the values `s₀`. -/
structure Settled (ρ : Valuation) (s₀ : Bits) (w : Workspace) : Prop where
  sound : Sound ρ s₀ none w
  /-- No value waits to be given up. -/
  unmarked : ∀ q, q ∉ w.circuit.marked
  /-- A scratch qubit that no symbol has is free. -/
  tight : ∀ q, ¬w.Loose q
  /-- The gates are those of the history. -/
  log : w.circuit.gates = w.circuit.history.flatMap LogEntry.gates
  /-- The history holds operations that undo themselves, on qubits of the register. -/
  entries : ∀ e ∈ w.circuit.history, e.Reversible ∧ ∀ g ∈ e.gates, g.Fits w.circuit.numQubits
  /-- What has not been undone was made on qubits in use. -/
  computed : ∀ e ∈ w.circuit.computed, e ∈ w.circuit.history ∧ w.InUse e.target
  /-- The circuit has the names of the symbols. -/
  names : ∀ s, s ≠ "TRUE" → s ≠ "FALSE" → w.circuit.names.get? s = w.env.get? s

/-- What an assignment does to the history and to the symbols: it makes the operations `E` and then some of them again. -/
structure Assigned (a : Assignment) (w w' : Workspace) (q : Qubit) (E : List LogEntry) : Prop where
  history : ∃ undo, w'.circuit.history = w.circuit.history ++ (E ++ undo) ∧ ∀ e ∈ undo, e ∈ E
  env : ∀ s, w'.env.get? s = (w.env.insert a.target q).get? s
  settings : w'.options = w.options ∧ w'.outputs = w.outputs
  numQubits : w.circuit.numQubits ≤ w'.circuit.numQubits
  /-- The qubits of other symbols are not changed. -/
  kept : ∀ e ∈ E, ∀ s, s ≠ a.target → w.env.get? s ≠ some e.target
  /-- The qubit of an output is new, and nothing has read it. -/
  output : a.target ∈ w.outputs → w.circuit.numQubits ≤ q ∧ ∀ e ∈ E, q ∉ e.reads

/-- The value has been made, starting at rest: what has been marked was not in use at rest. -/
theorem Valued.marked_new (h : Valued ρ s₀ a w q w₁ x E) (hw : Settled ρ s₀ w) (hp : p ∈ w₁.circuit.marked) :
    ¬w.InUse p := by
  intro hu
  obtain ⟨h1, h2⟩ := h.sound.marked_scratch p hp
  exact hw.tight p ⟨(h.grows.ancillas p hu.1).1 h1, fun hb => h2 ((h.grows.bound p hu.1).2 hb), hu.2, hw.unmarked p⟩

/-- A qubit that is not in use at rest holds 0. -/
theorem Settled.zero_of_not_inUse (hw : Settled ρ s₀ w) (hp : ¬w.InUse p) : w.circuit.final s₀ p = false := by
  refine hw.sound.zero p ?_
  by_contra hn
  rw [not_or] at hn
  exact hp ⟨Nat.not_le.1 hn.2, hn.1⟩

/-- Reclaiming after an assignment puts exactly the marked qubits back to 0. -/
theorem Valued.final_reclaimed (h : Valued ρ s₀ a w q w₁ x E) (hw : Settled ρ s₀ w)
    (hN : Named a.target a.expr q w₁ w₂) (p : Qubit) :
    w₂.circuit.reclaimed.final s₀ p = if p ∈ w₂.circuit.marked then false else w₂.circuit.final s₀ p := by
  have hmarked : ∀ p ∈ w₂.circuit.marked, ¬w.InUse p := fun p hp => h.marked_new hw ((hN.marked p).1 hp).1
  have hcomp : w₂.circuit.computed = w.circuit.computed ++ E := hN.logs.2.trans h.grows.computed
  have hfinal : w₂.circuit.final s₀ = actLog E (w.circuit.final s₀) := (hN.final_eq s₀).trans (h.grows.final_eq s₀)
  rw [Workspace.final_reclaimed w₂.circuit (fun e he => (h.grows.entry e he).reversible) h.grows.orderly hcomp
    (fun e he hm => hmarked _ hm (hw.computed e he).2) hfinal]
  split
  · next hp => exact hw.zero_of_not_inUse (hmarked p hp)
  · rfl

/-- What the history and the log hold once the target is bound. -/
theorem Valued.logs (h : Valued ρ s₀ a w q w₁ x E) (hw : Settled ρ s₀ w) (hN : Named a.target a.expr q w₁ w₂) :
    (∀ e ∈ w₂.circuit.history, e.Reversible ∧ ∀ g ∈ e.gates, g.Fits w₂.circuit.numQubits) ∧
      ∀ e ∈ w₂.circuit.computed, e ∈ w₂.circuit.history ∧ w₂.InUse e.target := by
  have hle : w.circuit.numQubits ≤ w₂.circuit.numQubits := hN.numQubits ▸ h.grows.numQubits_le
  constructor
  · intro e he
    rw [hN.logs.1, h.grows.history, List.mem_append] at he
    rcases he with he | he
    · exact ⟨(hw.entries e he).1, fun g hg => ((hw.entries e he).2 g hg).mono hle⟩
    · exact ⟨(h.grows.entry e he).reversible, fun g hg => hN.numQubits ▸ (h.grows.entry e he).fits g hg⟩
  · intro e he
    rw [hN.logs.1, h.grows.history]
    rw [hN.logs.2, h.grows.computed, List.mem_append] at he
    rcases he with he | he
    · exact ⟨List.mem_append_left E (hw.computed e he).1, hN.inUse (h.grows.inUse (hw.computed e he).2)⟩
    · exact ⟨List.mem_append_right _ he, hN.inUse (h.grows.entry e he).target_inUse⟩

/-- Driving back undoes operations of the assignment only: what was made before is on qubits in use, and these are not marked. -/
theorem Valued.undone_subset (h : Valued ρ s₀ a w q w₁ x E) (hw : Settled ρ s₀ w) (hN : Named a.target a.expr q w₁ w₂) :
    ∀ e ∈ w₂.circuit.undone, e ∈ E := by
  intro e he
  obtain ⟨he, hm⟩ := List.mem_filter.1 (List.mem_reverse.1 he)
  rw [hN.logs.2, h.grows.computed, List.mem_append] at he
  refine he.resolve_left fun hold => ?_
  exact h.marked_new hw ((hN.marked _).1 (by simpa using hm)).1 (hw.computed e hold).2

/-- After the scratch qubits have been driven back, the compilation is at rest. -/
theorem Valued.settled (h : Valued ρ s₀ a w q w₁ x E) (hw : Settled ρ s₀ w) (hN : Named a.target a.expr q w₁ w₂) :
    Settled (ρ.set a.target (w₁.circuit.final s₀ q)) s₀
      { w₂ with circuit := w₂.circuit.reclaimed, memo := w₂.circuit.marked.toList.foldl Memo.eraseQubit w₂.memo } := by
  obtain ⟨hentries, hcomp⟩ := h.logs hw hN
  refine ⟨(h.named hN).reclaim (h.final_reclaimed hw hN), QubitSet.not_mem_empty, ?_, ?_, ?_, ?_, ?_⟩
  · rintro p ⟨h1, h2, h3, -⟩
    have h3' := fun h => h3 (QubitSet.mem_union.2 h)
    have hpq : p ≠ q := fun hpq => h2 ((hN.bound p).2 (Or.inl hpq))
    have hl : w₁.Loose p := ⟨hN.ancillas p h1, fun hb => h2 ((hN.bound p).2 (Or.inr hb)),
      fun hf => h3' (Or.inl (hN.free_of_ne p hpq hf)), fun hm => h3' (Or.inr ((hN.marked p).2 ⟨hm, hpq⟩))⟩
    exact (h.loose p hl).elim (hw.tight p) hpq
  · change w₂.circuit.gates ++ _ = (w₂.circuit.history ++ _).flatMap LogEntry.gates
    rw [List.flatMap_append, hN.gates, h.grows.gates, hw.log, hN.logs.1, h.grows.history, List.flatMap_append]
  · intro e he
    rcases List.mem_append.1 he with he | he
    · exact hentries e he
    · exact hentries e (hcomp e (List.mem_filter.1 (List.mem_reverse.1 he)).1).1
  · intro e he
    obtain ⟨he, hn⟩ := List.mem_filter.1 he
    have hn : e.target ∉ w₂.circuit.marked := by simpa using hn
    obtain ⟨hh, hlt, hf⟩ := hcomp e he
    exact ⟨List.mem_append_left _ hh, hlt, fun hu => (QubitSet.mem_union.1 hu).elim hf hn⟩
  · intro s ht hf
    change w₂.circuit.names.get? s = w₂.env.get? s
    rw [hN.names s ht hf, hN.env, h.grows.env]
    by_cases hst : s = a.target
    · rw [hst, NameMap.get?_insert_self, NameMap.get?_insert_self]
    · rw [NameMap.get?_insert_of_ne _ hst, NameMap.get?_insert_of_ne _ hst, h.grows.names s ht hf, hw.names s ht hf]

/-- What the whole assignment has done to the history and to the symbols. -/
theorem Valued.assigned (h : Valued ρ s₀ a w q w₁ x E) (hw : Settled ρ s₀ w) (hN : Named a.target a.expr q w₁ w₂) :
    Assigned a w
      { w₂ with circuit := w₂.circuit.reclaimed, memo := w₂.circuit.marked.toList.foldl Memo.eraseQubit w₂.memo } q E := by
  refine ⟨⟨w₂.circuit.undone, ?_, h.undone_subset hw hN⟩, ?_, ⟨?_, ?_⟩, ?_, fun e he s hst hq => ?_, h.output⟩
  · change w₂.circuit.history ++ _ = _
    rw [hN.logs.1, h.grows.history, List.append_assoc]
  · exact fun s => (hN.env s).trans (by rw [h.grows.env])
  · exact hN.settings.1.trans h.grows.settings.1
  · exact hN.settings.2.trans h.grows.settings.2.2
  · exact Nat.le_trans h.grows.numQubits_le (Nat.le_of_eq hN.numQubits.symm)
  · rcases (h.grows.entry e he).target_new with hn | hx
    · exact hn (hw.sound.env_inUse hq)
    · obtain ⟨hqe, -, -⟩ := h.overwritten _ hx
      exact hst (h.alone (hqe ▸ hx) s (hqe ▸ hq))

/-- The steps of an assignment: the value is made, the target is bound, and scratch qubits are reclaimed. -/
theorem assign_eq_ok {u : Unit} (hrun : assign a w = .ok (u, w')) : ∃ dest p q m w₁ w₂ w₃ w₄ w₅ w₆,
    (if a.target ∈ w.outputs then some <$> onCircuit (·.addQubit none) else pure none : Lowering (Option Qubit)) w =
      .ok (dest, w₁) ∧
    lower a.expr dest (some a.target) w₁ = .ok (p, w₂) ∧ deliver p dest w₂ = .ok (q, w₃) ∧
    rebind a.target a.expr q w₃ = .ok ((), w₄) ∧ emit (·.mapQubit a.target q (!a.target.isSynthetic)) w₄ = .ok ((), w₅) ∧
    onCircuit (·.unmarkAncilla q) w₅ = .ok (m, w₆) ∧ reclaim w₆ = .ok (u, w') := by
  unfold assign at hrun
  rw [Lowering.get_bind] at hrun
  obtain ⟨dest, w₁, hdest, hrun⟩ : ∃ dest w₁,
      (if a.target ∈ w.outputs then some <$> onCircuit (·.addQubit none) else pure none : Lowering (Option Qubit)) w =
        .ok (dest, w₁) ∧
      (do
        let q ← lower a.expr dest (some a.target)
        let q ← deliver q dest
        rebind a.target a.expr q
        emit (·.mapQubit a.target q (!a.target.isSynthetic))
        discard <| onCircuit (·.unmarkAncilla q)
        reclaim : Lowering Unit) w₁ = .ok (u, w') := by
    by_cases hout : a.target ∈ w.outputs
    · rw [if_pos hout] at hrun ⊢
      exact Lowering.bind_eq_ok.1 hrun
    · rw [if_neg hout] at hrun ⊢
      exact Lowering.bind_eq_ok.1 hrun
  obtain ⟨p, w₂, hlower, hrun⟩ := Lowering.bind_eq_ok.1 hrun
  obtain ⟨q, w₃, hdeliver, hrun⟩ := Lowering.bind_eq_ok.1 hrun
  obtain ⟨_, w₄, hrebind, hrun⟩ := Lowering.bind_eq_ok.1 hrun
  obtain ⟨_, w₅, hmap, hrun⟩ := Lowering.bind_eq_ok.1 hrun
  obtain ⟨_, w₆, hunmark, hreclaim⟩ := Lowering.bind_eq_ok.1 hrun
  obtain ⟨m, hunmark, -⟩ := Lowering.map_eq_ok.1 hunmark
  exact ⟨dest, p, q, m, w₁, w₂, w₃, w₄, w₅, w₆, hdest, hlower, hdeliver, hrebind, hmap, hunmark, hreclaim⟩

/-- An assignment leads from rest to rest, and gives its target the value of its expression. -/
theorem assign_spec {u : Unit} (hw : Settled ρ s₀ w) (he : a.expr.isBoolean = true) (hrun : assign a w = .ok (u, w')) :
    ∃ v, a.expr.eval ρ = .ok v ∧ Settled (ρ.set a.target v) s₀ w' ∧ ∃ q E, Assigned a w w' q E := by
  obtain ⟨_, _, q, _, _, _, _, _, _, _, hdest, hlower, hdeliver, hrebind, hmap, hunmark, hreclaim⟩ := assign_eq_ok hrun
  obtain ⟨x, E, hV⟩ := exists_valued he hw.sound hdest hlower hdeliver
  have hN := exists_named hrebind hmap hunmark
  obtain ⟨hentries, hcomp⟩ := hV.logs hw hN
  obtain rfl := reclaim_eq_ok (fun e he => (hentries e (hcomp e he).1).1) hreclaim
  exact ⟨_, hV.value, hV.settled hw hN, q, E, hV.assigned hw hN⟩

end Workspace

end ReversibleLogic
