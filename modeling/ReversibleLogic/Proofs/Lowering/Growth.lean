import ReversibleLogic.Proofs.Lowering.Invariant

/-!
# What a step of a compilation adds

`Grows out w w' E` says all that lowering does to a workspace beside its results: it appends the operations `E`, takes free or
new qubits, marks, and leaves everything else alone. The operations change only qubits that were not in use before, and the one
qubit `out` that was handed to the step for this purpose; no operation changes a qubit that an earlier one has read.

`Fetched` adds that the workspace stays sound and that the qubits `qs` carry results, and says what a qubit can rely on that has
nothing to do with the symbols `S` of the expressions lowered: it is neither read nor given a note.
-/

namespace ReversibleLogic

namespace Workspace

/-- What the qubit of a constant is called. -/
def constName (v : Bool) : Symbol := if v then "TRUE" else "FALSE"

/-- The two constants have different names. -/
theorem constName_injective {u v : Bool} (h : constName u = constName v) : u = v := by
  revert u v
  decide

/-- What a qubit is called that lowering adds: nothing, or the name of a constant. -/
def NamesConst (name : Option Symbol) : Prop := ∀ s, name = some s → ∃ v, s = constName v

/-- A qubit without a name. -/
theorem NamesConst.none : NamesConst none := by simp [NamesConst]

/-- The qubit of a constant. -/
theorem NamesConst.const (v : Bool) : NamesConst (some (constName v)) := fun _ hs => ⟨v, (Option.some.inj hs).symm⟩

/-- An operation that a step makes. -/
structure StepEntry (out : Option Qubit) (w w' : Workspace) (e : LogEntry) : Prop where
  /-- The operation undoes itself. -/
  reversible : e.Reversible
  /-- Its gates fit the register. -/
  fits : ∀ g ∈ e.gates, g.Fits w'.circuit.numQubits
  /-- It changes a qubit that was not in use, or the one that was handed over. -/
  target_new : ¬w.InUse e.target ∨ out = some e.target
  /-- What it changes is in use from then on. -/
  target_inUse : w'.InUse e.target
  /-- It reads qubits in use, and not the one that was handed over. -/
  reads : ∀ r ∈ e.reads, w'.InUse r ∧ out ≠ some r

/-- `w'` is `w` after a step that makes the operations `E`, on `out` among others. -/
structure Grows (out : Option Qubit) (w w' : Workspace) (E : List LogEntry) : Prop where
  gates : w'.circuit.gates = w.circuit.gates ++ E.flatMap LogEntry.gates
  history : w'.circuit.history = w.circuit.history ++ E
  computed : w'.circuit.computed = w.circuit.computed ++ E
  labels : ∃ L, w'.circuit.labels = w.circuit.labels ++ L
  names : ∀ s, s ≠ "TRUE" → s ≠ "FALSE" → w'.circuit.names.get? s = w.circuit.names.get? s
  ancillas : ∀ q, q < w.circuit.numQubits → (q ∈ w'.circuit.ancillas ↔ q ∈ w.circuit.ancillas)
  bound : ∀ q, q < w.circuit.numQubits → (q ∈ w'.circuit.bound ↔ q ∈ w.circuit.bound)
  free : ∀ q ∈ w'.circuit.free, q ∈ w.circuit.free
  marked : ∀ q ∈ w.circuit.marked, q ∈ w'.circuit.marked
  env : w'.env = w.env
  settings : w'.options = w.options ∧ w'.inputs = w.inputs ∧ w'.outputs = w.outputs
  const_old : ∀ v q, w.constQubit v = some q → w'.constQubit v = some q
  const_new : ∀ v q, w'.constQubit v = some q → w.constQubit v = some q ∨ w.circuit.numQubits ≤ q
  entry : ∀ e ∈ E, StepEntry out w w' e
  orderly : Orderly E

namespace Grows

variable {out : Option Qubit} {w w' w₁ w₂ : Workspace} {E E₁ E₂ : List LogEntry}

theorem refl (out : Option Qubit) (w : Workspace) : Grows out w w [] := by
  refine ⟨by simp, by simp, by simp, ⟨[], by simp⟩, fun _ _ _ => rfl, fun _ _ => Iff.rfl, fun _ _ => Iff.rfl, fun _ => id,
    fun _ => id, rfl, ⟨rfl, rfl, rfl⟩, fun _ _ => id, fun _ _ => Or.inl, by simp, List.Pairwise.nil⟩

/-- No qubit is taken out of the register. -/
theorem numQubits_le (h : Grows out w w' E) : w.circuit.numQubits ≤ w'.circuit.numQubits := by
  obtain ⟨L, hL⟩ := h.labels
  simp [Circuit.numQubits, hL]

/-- A qubit in use stays in use. -/
theorem inUse (h : Grows out w w' E) {q : Qubit} (hq : w.InUse q) : w'.InUse q :=
  ⟨Nat.lt_of_lt_of_le hq.1 h.numQubits_le, fun hf => hq.2 (h.free q hf)⟩

/-- The values after the step are those that the operations lead to. -/
theorem final_eq (h : Grows out w w' E) (s₀ : Bits) : w'.circuit.final s₀ = actLog E (w.circuit.final s₀) := by
  rw [Circuit.final, h.gates, actGates_append]
  rfl

/-- A qubit in use keeps its value, unless it was handed over. -/
theorem final_of_inUse (h : Grows out w w' E) {q : Qubit} (hq : w.InUse q) (ho : out ≠ some q) (s₀ : Bits) :
    w'.circuit.final s₀ q = w.circuit.final s₀ q := by
  rw [h.final_eq]
  refine actLog_of_forall_ne (fun e he => (h.entry e he).reversible) (fun e he hq' => ?_) _
  rcases (h.entry e he).target_new with hn | hn
  · exact hn (hq' ▸ hq)
  · exact ho (hq' ▸ hn)

/-- A qubit in use does not get loose. -/
theorem loose (h : Grows out w w' E) {q : Qubit} (hq : w.InUse q) (hl : w'.Loose q) : w.Loose q :=
  ⟨(h.ancillas q hq.1).1 hl.1, fun hb => hl.2.1 ((h.bound q hq.1).2 hb), hq.2, fun hm => hl.2.2.2 (h.marked q hm)⟩

/-- What a step has made stays so when more is done. -/
theorem StepEntry.later {e : LogEntry} (he : StepEntry out w w₁ e) (h : Grows out w₁ w₂ E₂) : StepEntry out w w₂ e :=
  ⟨he.reversible, fun g hg => (he.fits g hg).mono h.numQubits_le, he.target_new, h.inUse he.target_inUse,
    fun r hr => ⟨h.inUse (he.reads r hr).1, (he.reads r hr).2⟩⟩

/-- What a later step makes is new for an earlier workspace as well. -/
theorem StepEntry.earlier {e : LogEntry} (he : StepEntry out w₁ w₂ e) (h : Grows out w w₁ E₁) : StepEntry out w w₂ e :=
  ⟨he.reversible, he.fits, he.target_new.imp_left fun hn hu => hn (h.inUse hu), he.target_inUse, he.reads⟩

/-- Two steps, one after the other, are a step. The second changes nothing that the first has read: what the first has read is
in use when the second begins. -/
theorem trans (h₁ : Grows out w w₁ E₁) (h₂ : Grows out w₁ w₂ E₂) : Grows out w w₂ (E₁ ++ E₂) := by
  have hle := h₁.numQubits_le
  refine ⟨?_, ?_, ?_, ?_, ?_, ?_, ?_, ?_, ?_, h₂.env.trans h₁.env, ?_, ?_, ?_, ?_, ?_⟩
  · rw [h₂.gates, h₁.gates, List.flatMap_append, List.append_assoc]
  · rw [h₂.history, h₁.history, List.append_assoc]
  · rw [h₂.computed, h₁.computed, List.append_assoc]
  · obtain ⟨L₁, hL₁⟩ := h₁.labels
    obtain ⟨L₂, hL₂⟩ := h₂.labels
    exact ⟨L₁ ++ L₂, by rw [hL₂, hL₁, List.append_assoc]⟩
  · exact fun s ht hf => (h₂.names s ht hf).trans (h₁.names s ht hf)
  · exact fun q hq => (h₂.ancillas q (Nat.lt_of_lt_of_le hq hle)).trans (h₁.ancillas q hq)
  · exact fun q hq => (h₂.bound q (Nat.lt_of_lt_of_le hq hle)).trans (h₁.bound q hq)
  · exact fun q hq => h₁.free q (h₂.free q hq)
  · exact fun q hq => h₂.marked q (h₁.marked q hq)
  · exact ⟨h₂.settings.1.trans h₁.settings.1, h₂.settings.2.1.trans h₁.settings.2.1,
      h₂.settings.2.2.trans h₁.settings.2.2⟩
  · exact fun v q hv => h₂.const_old v q (h₁.const_old v q hv)
  · intro v q hv
    rcases h₂.const_new v q hv with hv | hn
    · exact h₁.const_new v q hv
    · exact Or.inr (Nat.le_trans hle hn)
  · intro e he
    rcases List.mem_append.1 he with he | he
    · exact StepEntry.later (h₁.entry e he) h₂
    · exact StepEntry.earlier (h₂.entry e he) h₁
  · refine List.pairwise_append.2 ⟨h₁.orderly, h₂.orderly, fun e he f hf hr => ?_⟩
    obtain ⟨hu, ho⟩ := (h₁.entry e he).reads f.target hr
    rcases (h₂.entry f hf).target_new with hn | hn
    · exact hn hu
    · exact ho hn

/-- A step that reads nothing of `q` may be seen as one that `q` was handed to. -/
theorem handOver (h : Grows none w w' E) {q : Qubit} (hq : ∀ e ∈ E, q ∉ e.reads) : Grows (some q) w w' E := by
  refine { h with entry := fun e he => ?_ }
  have hs := h.entry e he
  refine ⟨hs.reversible, hs.fits, Or.inl ?_, hs.target_inUse, fun r hr => ⟨(hs.reads r hr).1, ?_⟩⟩
  · exact hs.target_new.resolve_right (by simp)
  · rw [Ne, Option.some.injEq]
    exact fun he' => hq e he (he' ▸ hr)

/-- A qubit that was not in use need not be handed over. -/
theorem keep (h : Grows out w w' E) (hq : ∀ q, out = some q → ¬w.InUse q) : Grows none w w' E := by
  refine { h with entry := fun e he => ?_ }
  have hs := h.entry e he
  refine ⟨hs.reversible, hs.fits, Or.inl ?_, hs.target_inUse, fun r hr => ⟨(hs.reads r hr).1, by simp⟩⟩
  rcases hs.target_new with hn | hn
  · exact hn
  · exact hq _ hn

/-- Notes do not matter to growth. -/
theorem withMemo (h : Grows out w w' E) (m : Memo) : Grows out w { w' with memo := m } E :=
  { h with entry := fun e he => ⟨(h.entry e he).reversible, (h.entry e he).fits, (h.entry e he).target_new,
      (h.entry e he).target_inUse, (h.entry e he).reads⟩ }

/-! ### Elementary steps -/

/-- Appending one operation. -/
theorem record (out : Option Qubit) {w : Workspace} {e : LogEntry} (he : e.Reversible)
    (hfit : ∀ g ∈ e.gates, g.Fits w.circuit.numQubits) (ht : out = some e.target) (hu : w.InUse e.target)
    (hr : ∀ r ∈ e.reads, w.InUse r) : Grows out w { w with circuit := w.circuit.record e } [e] := by
  refine ⟨by simp [Circuit.record], rfl, rfl, ⟨[], by simp [Circuit.record]⟩, fun _ _ _ => rfl, fun _ _ => Iff.rfl,
    fun _ _ => Iff.rfl, fun _ => id, fun _ => id, rfl, ⟨rfl, rfl, rfl⟩, fun _ _ => id, fun _ _ => Or.inl, fun f hf => ?_,
    List.pairwise_singleton _ _⟩
  obtain rfl := List.mem_singleton.1 hf
  refine ⟨he, hfit, Or.inr ht, hu, fun r hr' => ⟨hr r hr', ?_⟩⟩
  rw [ht, Ne, Option.some.injEq]
  exact fun h => (LogEntry.mem_reads.1 hr').2 h.symm

/-- Taking a scratch qubit. -/
theorem take {w : Workspace} {c : Circuit} {q : Qubit} (ht : Circuit.Taken w.circuit c q)
    (hf : ∀ p ∈ w.circuit.free, p ∈ w.circuit.ancillas) : Grows none w { w with circuit := c } [] := by
  obtain ⟨hg, hh, hc, hn, hb, hm⟩ := ht.same
  refine ⟨by simp [hg], by simp [hh], by simp [hc], ht.labels, fun _ _ _ => by rw [hn], ?_, fun _ _ => by rw [hb],
    fun p hp => ((ht.free p).1 hp).1, fun p hp => by rw [hm]; exact hp, rfl, ⟨rfl, rfl, rfl⟩, fun _ _ => id,
    fun _ _ => Or.inl, by simp, List.Pairwise.nil⟩
  intro p hp
  refine (ht.ancillas p).trans ⟨?_, Or.inl⟩
  rintro (h | rfl)
  · exact h
  · rcases ht.source with h | h
    · exact hf p h
    · exact absurd hp (Nat.not_lt.2 h)

/-- Marking qubits. -/
theorem mark {w : Workspace} {m : QubitSet} (hm : ∀ q ∈ w.circuit.marked, q ∈ m) :
    Grows none w { w with circuit := { w.circuit with marked := m } } [] :=
  { refl none w with marked := hm, entry := by simp }

/-- Adding a qubit without a name, or one for a constant. -/
theorem addQubit (w : Workspace) {name : Option Symbol} (hname : NamesConst name) :
    Grows none w { w with circuit := (w.circuit.addQubit name).1 } [] := by
  have hbound : ∀ q, q < w.circuit.numQubits → (q ∈ (w.circuit.addQubit name).1.bound ↔ q ∈ w.circuit.bound) := by
    intro q hq
    refine ⟨fun h => ?_, Circuit.bound_subset_addQubit⟩
    rcases Circuit.mem_bound_addQubit h with h | rfl
    · exact h
    · exact absurd hq (Nat.lt_irrefl _)
  cases name with
  | none =>
    exact { refl none w with labels := ⟨_, rfl⟩, bound := hbound, entry := by simp }
  | some s =>
    refine { refl none w with labels := ⟨_, rfl⟩, bound := hbound, entry := by simp, names := fun r ht hf => ?_ }
    refine NameMap.get?_insert_of_ne _ (fun hr => ?_) _
    obtain ⟨v, rfl⟩ := hname s rfl
    cases v with
    | false => exact hf hr
    | true => exact ht hr

end Grows

/-! ## Results -/

/-- The qubit is in use and has nothing to do with expressions over the symbols `S`: no such symbol has it, and what is noted for
it are expressions that mention some other symbol. -/
structure Apart (w : Workspace) (S : Symbol → Bool) (q : Qubit) : Prop where
  inUse : w.InUse q
  const : ∀ v, w.constQubit v ≠ some q
  env : ∀ s, S s = true → w.env.get? s ≠ some q
  memo : ∀ b ∈ w.memo.entries, b.2 = q → ∃ s, b.1.mentions s = true ∧ S s = false

/-- Fewer symbols are easier to be apart from. -/
theorem Apart.mono {w : Workspace} {S T : Symbol → Bool} {q : Qubit} (h : Apart w S q)
    (hT : ∀ s, T s = true → S s = true) : Apart w T q := by
  refine ⟨h.inUse, h.const, fun s hs => h.env s (hT s hs), fun b hb hq => ?_⟩
  obtain ⟨s, hm, hs⟩ := h.memo b hb hq
  refine ⟨s, hm, ?_⟩
  cases ht : T s with
  | false => rfl
  | true => rw [hT s ht] at hs; exact hs

/-- A step has lowered expressions over the symbols `S` and left results on the qubits `qs`. -/
structure Fetched (ρ : Valuation) (s₀ : Bits) (x : Option Qubit) (S : Symbol → Bool) (out : Option Qubit) (w : Workspace)
    (qs : List Qubit) (w' : Workspace) (E : List LogEntry) : Prop where
  grows : Grows out w w' E
  sound : Sound ρ s₀ x w'
  /-- The results are on qubits in use. -/
  inUse : ∀ q ∈ qs, w'.InUse q
  /-- Scratch qubits that have been taken and not given up carry results. -/
  loose : ∀ q, w'.Loose q → w.Loose q ∨ q ∈ qs ∨ out = some q
  /-- The operations do not read what is apart from the expressions. -/
  unread : ∀ q, Apart w S q → ∀ e ∈ E, q ∉ e.reads
  /-- Results are not on qubits that are apart from the expressions. -/
  notResult : ∀ q, Apart w S q → out ≠ some q → q ∉ qs
  /-- Nothing is noted for qubits that are apart from the expressions and carry no result. -/
  unnoted : ∀ q, Apart w S q → q ∉ qs → ∀ b ∈ w'.memo.entries, b.2 = q → b ∈ w.memo.entries

namespace Fetched

variable {ρ : Valuation} {s₀ : Bits} {x out : Option Qubit} {S T : Symbol → Bool} {w w' w₁ w₂ : Workspace}
  {qs rs : List Qubit} {E E₁ E₂ : List LogEntry}

/-- What is apart stays apart. -/
theorem apart (h : Fetched ρ s₀ x S out w qs w' E) {q : Qubit} (hS : Apart w S q) (hT : Apart w T q) (hq : q ∉ qs) :
    Apart w' T q := by
  refine ⟨h.grows.inUse hS.inUse, fun v hv => ?_, fun s hs => ?_, fun b hb hb' => ?_⟩
  · rcases h.grows.const_new v q hv with hv | hn
    · exact hS.const v hv
    · exact Nat.not_lt.2 hn hS.inUse.1
  · rw [h.grows.env]
    exact hT.env s hs
  · exact hT.memo b (h.unnoted q hS hq b hb hb') hb'

/-- Nothing has been done. -/
theorem refl (hs : Sound ρ s₀ x w) (S : Symbol → Bool) (out : Option Qubit) : Fetched ρ s₀ x S out w [] w [] :=
  ⟨Grows.refl out w, hs, by simp, fun _ => Or.inl, by simp, by simp, fun _ _ _ _ hb _ => hb⟩

/-- Results of one step and of the next. -/
theorem trans (h₁ : Fetched ρ s₀ x S out w qs w₁ E₁) (h₂ : Fetched ρ s₀ x T out w₁ rs w₂ E₂)
    (hout : ∀ q, out = some q → q ∉ qs) :
    Fetched ρ s₀ x (fun s => S s || T s) out w (qs ++ rs) w₂ (E₁ ++ E₂) := by
  have hS : ∀ q, Apart w (fun s => S s || T s) q → Apart w S q := fun q hq => hq.mono fun s hs => by simp [hs]
  have hqs : ∀ q, Apart w (fun s => S s || T s) q → q ∉ qs := fun q hq => by
    by_cases ho : out = some q
    · exact hout q ho
    · exact h₁.notResult q (hS q hq) ho
  have hT : ∀ q, Apart w (fun s => S s || T s) q → Apart w₁ T q := fun q hq =>
    h₁.apart (hS q hq) (hq.mono fun s hs => by simp [hs]) (hqs q hq)
  refine ⟨h₁.grows.trans h₂.grows, h₂.sound, ?_, ?_, ?_, ?_, ?_⟩
  · intro q hq
    rcases List.mem_append.1 hq with hq | hq
    · exact h₂.grows.inUse (h₁.inUse q hq)
    · exact h₂.inUse q hq
  · intro q hq
    rcases h₂.loose q hq with hq | hq | hq
    · rcases h₁.loose q hq with hq | hq | hq
      · exact Or.inl hq
      · exact Or.inr (Or.inl (List.mem_append_left rs hq))
      · exact Or.inr (Or.inr hq)
    · exact Or.inr (Or.inl (List.mem_append_right qs hq))
    · exact Or.inr (Or.inr hq)
  · intro q hq e he
    rcases List.mem_append.1 he with he | he
    · exact h₁.unread q (hS q hq) e he
    · exact h₂.unread q (hT q hq) e he
  · intro q hq ho hmem
    rcases List.mem_append.1 hmem with hmem | hmem
    · exact hqs q hq hmem
    · exact h₂.notResult q (hT q hq) ho hmem
  · intro q hq hn b hb hb'
    rw [List.mem_append, not_or] at hn
    exact h₁.unnoted q (hS q hq) hn.1 b (h₂.unnoted q (hT q hq) hn.2 b hb hb') hb'

/-- Symbols may be added to those that count as lowered. -/
theorem mono (h : Fetched ρ s₀ x S out w qs w' E) (hT : ∀ s, S s = true → T s = true) :
    Fetched ρ s₀ x T out w qs w' E :=
  { h with
    unread := fun q hq => h.unread q (hq.mono hT)
    notResult := fun q hq => h.notResult q (hq.mono hT)
    unnoted := fun q hq => h.unnoted q (hq.mono hT) }

end Fetched

end Workspace

end ReversibleLogic
