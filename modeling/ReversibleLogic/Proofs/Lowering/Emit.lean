import ReversibleLogic.Proofs.Lowering.Growth

/-!
# Adding values to a qubit

Every operator ends in the same way: the operands are on qubits `qs`, operations that read these are made on a qubit `out`, and
the operands are released. `Onto` is the situation between two such operations. It is reached from operands and a qubit that
waits for a value (`Onto.of_ready`), from operands and a scratch qubit (`onto_scratch`) and from an operand that is changed where
it is (`Onto.of_fresh`); it is kept by every operation (`Onto.push`), and it is left when the operands are released
(`Onto.settle`).
-/

namespace ReversibleLogic

namespace Workspace

variable {ρ : Valuation} {s₀ : Bits} {x dest : Option Qubit} {S T : Symbol → Bool} {w w' w₁ w₂ : Workspace}
  {q out : Qubit} {qs : List Qubit} {E : List LogEntry}

/-! ## Releasing -/

/-- Releasing a qubit marks it if it is a scratch qubit without a name, and changes nothing else. -/
theorem release_eq_ok {u : Unit} (h : release q w = .ok (u, w')) :
    ∃ m : QubitSet, w' = { w with circuit := { w.circuit with marked := m } } ∧
      ∀ p, p ∈ m ↔ p ∈ w.circuit.marked ∨ p = q ∧ w.circuit.isDisposable p = true := by
  have hw := Lowering.modify_eq_ok.1 h
  by_cases hd : w.circuit.isDisposable q = true
  · rw [if_pos hd] at hw
    have ha : q ∈ w.circuit.ancillas := by
      simp only [Circuit.isDisposable, Bool.and_eq_true, decide_eq_true_eq] at hd
      exact hd.1
    obtain ⟨m, hm, hmem⟩ := w.circuit.markAncilla_eq q
    rw [hm] at hw
    refine ⟨m, hw.symm, fun p => (hmem p).trans (or_congr_right (and_congr_right ?_))⟩
    rintro rfl
    exact iff_of_true ha hd
  · rw [if_neg hd] at hw
    refine ⟨w.circuit.marked, hw.symm, fun p => ⟨Or.inl, ?_⟩⟩
    rintro (hp | ⟨rfl, hd'⟩)
    · exact hp
    · exact absurd hd' hd

/-- Releasing qubits marks those of them that are scratch qubits without a name, and changes nothing else. -/
theorem releaseAll_eq_ok {u : Unit} : ∀ {qs : List Qubit} {w : Workspace}, releaseAll qs w = .ok (u, w') →
    ∃ m : QubitSet, w' = { w with circuit := { w.circuit with marked := m } } ∧
      ∀ p, p ∈ m ↔ p ∈ w.circuit.marked ∨ p ∈ qs ∧ w.circuit.isDisposable p = true := by
  intro qs
  induction qs with
  | nil =>
    intro w h
    obtain ⟨_, rfl⟩ := Lowering.pure_eq_ok.1 h
    exact ⟨w.circuit.marked, rfl, by simp⟩
  | cons q qs ih =>
    intro w h
    unfold releaseAll at h
    obtain ⟨_, w₁, h₁, h₂⟩ := Lowering.bind_eq_ok.1 h
    obtain ⟨m₁, rfl, hm₁⟩ := release_eq_ok h₁
    obtain ⟨m, rfl, hm⟩ := ih h₂
    refine ⟨m, rfl, fun p => (hm p).trans ?_⟩
    change p ∈ m₁ ∨ p ∈ qs ∧ w.circuit.isDisposable p = true ↔ _
    rw [hm₁ p, List.mem_cons, or_and_right, or_assoc]

/-- Releasing one qubit after another is releasing a list of two. -/
theorem releaseAll_pair {r : Qubit} {u v : Unit} (h₁ : release q w = .ok (u, w₁)) (h₂ : release r w₁ = .ok (v, w₂)) :
    releaseAll [q, r] w = .ok ((), w₂) :=
  Lowering.bind_eq_ok.2 ⟨u, w₁, h₁, h₂⟩

/-! ## Before a step -/

/-- What a step may rely on that lowers expressions over the symbols `S` and is handed the qubit `out`: the workspace is sound,
neither the qubit being overwritten nor `out` has to do with the expressions, and nothing is noted for `out`. -/
structure Ready (ρ : Valuation) (s₀ : Bits) (x : Option Qubit) (S : Symbol → Bool) (out : Option Qubit) (w : Workspace) :
    Prop where
  sound : Sound ρ s₀ x w
  overwritten : ∀ p, x = some p → Apart w S p
  apart : ∀ p, out = some p → Apart w S p
  unnoted : ∀ p, out = some p → Unnoted x w p

namespace Ready

/-- Fewer symbols are easier to be ready for. -/
theorem mono {out : Option Qubit} (h : Ready ρ s₀ x S out w) (hT : ∀ s, T s = true → S s = true) : Ready ρ s₀ x T out w :=
  ⟨h.sound, fun p hp => (h.overwritten p hp).mono hT, fun p hp => (h.apart p hp).mono hT, h.unnoted⟩

/-- A step need not be handed a qubit. -/
theorem withoutOut {out : Option Qubit} (h : Ready ρ s₀ x S out w) : Ready ρ s₀ x S none w :=
  ⟨h.sound, h.overwritten, by simp, by simp⟩

end Ready

/-- Nothing gets noted for a qubit that is apart from the expressions lowered and carries no result. -/
theorem Fetched.unnoted_of_apart {out : Option Qubit} (h : Fetched ρ s₀ x S out w qs w' E) {p : Qubit} (ha : Apart w S p)
    (hn : Unnoted x w p) (hp : p ∉ qs) : Unnoted x w' p := by
  refine ⟨fun v hv => ?_, fun s hs => ?_, fun b hb he => ?_⟩
  · rcases h.grows.const_new v p hv with hv | hge
    · exact hn.const v hv
    · exact Nat.not_lt.2 hge ha.inUse.1
  · exact hn.env s (h.grows.env ▸ hs)
  · exact hn.memo b (h.unnoted p ha hp b hb he) he

/-- After one step, the workspace is ready for the next with the same qubit. -/
theorem Ready.after {out : Option Qubit} (h : Ready ρ s₀ x S out w) (hT : Ready ρ s₀ x T out w)
    (hF : Fetched ρ s₀ x S out w qs w' E) (hout : ∀ p, out = some p → p ∉ qs) : Ready ρ s₀ x T out w' := by
  have hqs : ∀ p, Apart w S p → p ∉ qs := fun p hp => by
    by_cases ho : out = some p
    · exact hout p ho
    · exact hF.notResult p hp ho
  refine ⟨hF.sound, fun p hp => ?_, fun p hp => ?_, fun p hp => ?_⟩
  · exact hF.apart (h.overwritten p hp) (hT.overwritten p hp) (hqs p (h.overwritten p hp))
  · exact hF.apart (h.apart p hp) (hT.apart p hp) (hout p hp)
  · exact hF.unnoted_of_apart (h.apart p hp) (h.unnoted p hp) (hout p hp)

/-! ## Operations on one qubit -/

/-- Operands are on the qubits `qs`, and operations are being made on `out`. -/
structure Onto (ρ : Valuation) (s₀ : Bits) (x : Option Qubit) (S : Symbol → Bool) (w : Workspace) (qs : List Qubit)
    (w' : Workspace) (E : List LogEntry) (out : Qubit) : Prop where
  fetched : Fetched ρ s₀ x S (some out) w qs w' E
  inUse : w'.InUse out
  unnoted : Unnoted x w' out
  notOperand : out ∉ qs

/-- Operands have been fetched, and a qubit waits that has nothing to do with them. -/
theorem Onto.of_ready (hR : Ready ρ s₀ x S (some out) w) (hF : Fetched ρ s₀ x S none w qs w' E) :
    Onto ρ s₀ x S w qs w' E out := by
  have ha := hR.apart out rfl
  have hq := hF.notResult out ha (by simp)
  refine ⟨⟨hF.grows.handOver (hF.unread out ha), hF.sound, hF.inUse, ?_, hF.unread, ?_, hF.unnoted⟩, hF.grows.inUse ha.inUse,
    hF.unnoted_of_apart ha (hR.unnoted out rfl) hq, hq⟩
  · intro p hp
    rcases hF.loose p hp with hp | hp | hp
    · exact Or.inl hp
    · exact Or.inr (Or.inl hp)
    · simp at hp
  · exact fun p hp _ => hF.notResult p hp (by simp)

/-- An operand was left on a qubit taken for it that nothing has read, and this qubit is changed where it is. -/
theorem Onto.of_fresh (hF : Fetched ρ s₀ x S none w [out] w' E) (hn : Unnoted x w' out) (hnew : ¬w.InUse out)
    (hread : ∀ e ∈ E, out ∉ e.reads) : Onto ρ s₀ x S w [] w' E out := by
  refine ⟨⟨hF.grows.handOver hread, hF.sound, by simp, ?_, hF.unread, by simp, ?_⟩, hF.inUse out (by simp), hn, by simp⟩
  · intro p hp
    rcases hF.loose p hp with hp | hp | hp
    · exact Or.inl hp
    · exact Or.inr (Or.inr (congrArg some (List.mem_singleton.1 hp).symm))
    · simp at hp
  · intro p hp _
    refine hF.unnoted p hp fun hmem => hnew ?_
    rw [← List.mem_singleton.1 hmem]
    exact hp.inUse

/-- Operands have been fetched, and the destination or a scratch qubit takes their combination. The qubit is at 0 then. -/
theorem onto_scratch (hR : Ready ρ s₀ x S dest w) (hz : ∀ d, dest = some d → w.circuit.final s₀ d = false)
    (hF : Fetched ρ s₀ x S none w qs w₁ E) (h : scratch dest w₁ = .ok (out, w')) :
    Onto ρ s₀ x S w qs w' E out ∧ w'.circuit.final s₀ = w₁.circuit.final s₀ ∧ w'.circuit.final s₀ out = false ∧
      (dest = some out ∨ dest = none ∧ ¬w.InUse out) := by
  cases dest with
  | some d =>
    obtain ⟨rfl, rfl⟩ := Lowering.pure_eq_ok.1 h
    refine ⟨.of_ready hR hF, rfl, ?_, Or.inl rfl⟩
    rw [hF.grows.final_of_inUse (hR.apart d rfl).inUse (by simp)]
    exact hz d rfl
  | none =>
    unfold scratch at h
    obtain ⟨rfl, rfl⟩ := Lowering.onCircuit_eq_ok.1 h
    have hs := hF.sound
    have ht := Circuit.taken_takeAncilla hs.ancilla_lt fun q hq => (hs.free_scratch q hq).1
    generalize w₁.circuit.takeAncilla = r at ht
    obtain ⟨c, out⟩ := r
    have hfinal : c.final s₀ = w₁.circuit.final s₀ := by rw [Circuit.final, Circuit.final, ht.same.1]
    have hnew : ¬w₁.InUse out := by
      rintro ⟨hlt, hf⟩
      rcases ht.source with hs | hs
      · exact hf hs
      · exact Nat.not_lt.2 hs hlt
    have hgrow := hF.grows.trans (Grows.take ht fun q hq => (hs.free_scratch q hq).1)
    rw [List.append_nil] at hgrow
    have hread : ∀ e ∈ E, out ∉ e.reads := fun e he hr => hnew ((hF.grows.entry e he).reads out hr).1
    have hres : out ∉ qs := fun hmem => hnew (hF.inUse out hmem)
    refine ⟨⟨⟨hgrow.handOver hread, hs.take ht, ?_, ?_, hF.unread, ?_, hF.unnoted⟩, ⟨ht.lt, ?_⟩,
      (hs.unnoted_of_not_inUse hnew).onCircuit c, hres⟩, hfinal, ?_, Or.inr ⟨rfl, fun hu => hnew (hF.grows.inUse hu)⟩⟩
    · intro p hp
      obtain ⟨hlt, hf⟩ := hF.inUse p hp
      refine (Grows.take ht fun q hq => (hs.free_scratch q hq).1).inUse ⟨hlt, hf⟩
    · intro p hp
      by_cases hpo : p = out
      · exact Or.inr (Or.inr (congrArg some hpo.symm))
      · have hl : w₁.Loose p := by
          obtain ⟨h1, h2, h3, h4⟩ := hp
          refine ⟨((ht.ancillas p).1 h1).resolve_right hpo, ?_, fun hf => h3 ((ht.free p).2 ⟨hf, hpo⟩), ?_⟩
          · rw [← ht.same.2.2.2.2.1]
            exact h2
          · rw [← ht.same.2.2.2.2.2]
            exact h4
        rcases hF.loose p hl with hp | hp | hp
        · exact Or.inl hp
        · exact Or.inr (Or.inl hp)
        · simp at hp
    · exact fun p hp _ => hF.notResult p hp (by simp)
    · exact fun hf => ((ht.free out).1 hf).2 rfl
    · change c.final s₀ out = false
      rw [hfinal]
      exact hs.zero out ht.source

namespace Onto

/-- An operation on `out` that reads only operands. -/
theorem push (h : Onto ρ s₀ x S w qs w' E out) {e : LogEntry} (he : e.Reversible) (ht : e.target = out)
    (hfit : ∀ g ∈ e.gates, g.Fits w'.circuit.numQubits) (hr : ∀ r ∈ e.reads, r ∈ qs) :
    Onto ρ s₀ x S w qs { w' with circuit := w'.circuit.record e } (E ++ [e]) out := by
  subst ht
  have hF := h.fetched
  have hgrow := Grows.record (some e.target) he hfit rfl h.inUse fun r hmem => hF.inUse r (hr r hmem)
  refine ⟨⟨hF.grows.trans hgrow, hF.sound.record he h.inUse h.unnoted, hF.inUse, hF.loose, ?_, hF.notResult, hF.unnoted⟩,
    h.inUse, h.unnoted.onCircuit _, h.notOperand⟩
  intro p hp f hf
  rcases List.mem_append.1 hf with hf | hf
  · exact hF.unread p hp f hf
  · obtain rfl := List.mem_singleton.1 hf
    intro hmem
    by_cases ho : f.target = p
    · exact (LogEntry.mem_reads.1 hmem).2 ho.symm
    · exact hF.notResult p hp (fun heq => ho (Option.some.inj heq)) (hr p hmem)

/-- A gate on `out` whose controls are operands. -/
theorem gate (h : Onto ρ s₀ x S w qs w' E out) {g : Gate} (hc : g.kind.isClassical = true) (ht : g.target? = some out)
    (hr : ∀ r ∈ g.controls, r ∈ qs) {u : Unit} (hg : Workspace.gate g w' = .ok (u, w₂)) :
    Onto ρ s₀ x S w qs w₂ (E ++ [⟨[g], out⟩]) out ∧
      w₂.circuit.final s₀ =
        Function.update (w'.circuit.final s₀) out (w'.circuit.final s₀ out ^^ g.controls.all (w'.circuit.final s₀)) := by
  obtain ⟨c, hc', rfl⟩ := Lowering.emit_eq_ok.1 hg
  obtain ⟨hfit, t, htog, rfl⟩ := Circuit.append_eq_ok hc hc'
  obtain rfl : t = out := Option.some.inj (htog.target.symm.trans ht)
  have hrev := LogEntry.Reversible.plain htog
  refine ⟨h.push hrev rfl (by simpa using hfit) fun r hr' => ?_, ?_⟩
  · obtain ⟨⟨g', hg', hr''⟩, hne⟩ := LogEntry.mem_reads.1 hr'
    obtain rfl := List.mem_singleton.1 hg'
    rw [Gate.qubits_eq htog.target, List.mem_append, List.mem_singleton] at hr''
    exact hr r (hr''.resolve_right hne)
  · rw [Circuit.final_record hrev, LogEntry.fires_plain htog]

/-- A gate on `out` between two flips of an operand. -/
theorem conjugated (h : Onto ρ s₀ x S w qs w' E out) {flip : Qubit} {g : Gate} (ht : g.target? = some out)
    (hr : ∀ r ∈ g.controls, r ∈ qs) (hflip : flip ∈ qs) {u : Unit}
    (hg : emit (·.appendConjugated flip g) w' = .ok (u, w₂)) :
    Onto ρ s₀ x S w qs w₂ (E ++ [⟨[.x flip, g, .x flip], out⟩]) out ∧
      w₂.circuit.final s₀ = Function.update (w'.circuit.final s₀) out (w'.circuit.final s₀ out ^^
        g.controls.all (Function.update (w'.circuit.final s₀) flip (!w'.circuit.final s₀ flip))) := by
  obtain ⟨c, hc', rfl⟩ := Lowering.emit_eq_ok.1 hg
  obtain ⟨hfit, hfit', t, htog, hne, rfl⟩ := Circuit.appendConjugated_eq_ok hc'
  obtain rfl : t = out := Option.some.inj (htog.target.symm.trans ht)
  have hrev := LogEntry.Reversible.conjugated htog hne
  refine ⟨h.push hrev rfl ?_ fun r hr' => ?_, ?_⟩
  · intro g' hg'
    simp only [List.mem_cons, List.not_mem_nil, or_false] at hg'
    rcases hg' with rfl | rfl | rfl
    · exact hfit'
    · exact hfit
    · exact hfit'
  · obtain ⟨⟨g', hg', hr''⟩, hne'⟩ := LogEntry.mem_reads.1 hr'
    simp only [List.mem_cons, List.not_mem_nil, or_false] at hg'
    have hx : ∀ p, p ∈ (Gate.x flip).qubits → p ∈ qs := fun p hp => by
      rw [List.mem_singleton.1 hp]
      exact hflip
    rcases hg' with rfl | rfl | rfl
    · exact hx r hr''
    · rw [Gate.qubits_eq htog.target, List.mem_append, List.mem_singleton] at hr''
      exact hr r (hr''.resolve_right hne')
    · exact hx r hr''
  · rw [Circuit.final_record hrev, LogEntry.fires_conjugated htog hne]

/-- The operands are released. -/
theorem settle (h : Onto ρ s₀ x S w qs w' E out) {u : Unit} (hrel : releaseAll qs w' = .ok (u, w₂)) :
    Fetched ρ s₀ x S (some out) w [] w₂ E ∧ w₂.InUse out ∧ w₂.circuit.final s₀ = w'.circuit.final s₀ := by
  obtain ⟨m, rfl, hm⟩ := releaseAll_eq_ok hrel
  have hF := h.fetched
  have hgrow := hF.grows.trans (Grows.handOver (Grows.mark fun q hq => (hm q).2 (Or.inl hq)) (q := out) (by simp))
  rw [List.append_nil] at hgrow
  refine ⟨⟨hgrow, hF.sound.mark fun q hq => ?_, by simp, ?_, hF.unread, by simp, ?_⟩, h.inUse, rfl⟩
  · exact ((hm q).1 hq).imp_right fun ⟨hq, hd⟩ => ⟨hF.inUse q hq, hd⟩
  · rintro q ⟨h1, h2, h3, h4⟩
    have hl : w'.Loose q := ⟨h1, h2, h3, fun hq => h4 ((hm q).2 (Or.inl hq))⟩
    rcases hF.loose q hl with hq | hq | hq
    · exact Or.inl hq
    · refine absurd ((hm q).2 (Or.inr ⟨hq, ?_⟩)) h4
      simpa [Circuit.isDisposable, Circuit.isAncilla] using And.intro h1 h2
    · exact Or.inr (Or.inr hq)
  · intro q hq _
    refine hF.unnoted q hq ?_
    by_cases ho : out = q
    · exact ho ▸ h.notOperand
    · exact hF.notResult q hq fun heq => ho (Option.some.inj heq)

end Onto

end Workspace

end ReversibleLogic
