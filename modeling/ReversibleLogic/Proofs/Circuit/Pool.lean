import ReversibleLogic.Proofs.Circuit.Operations

/-!
# The pool of free scratch qubits

A circuit is built by calls that add and name qubits, take and mark scratch qubits, append operations and uncompute. A free
scratch qubit is handed out as one that holds 0, so every run of such calls has to leave 0 on all free qubits. A call may be
refused, and then it changes nothing (`Command.after_of_refused`).

A `Journal` watches a run. It notes which operations of the history still stand and which qubits were created as scratch
qubits. The invariant (`Journal.Sound`) says what each qubit holds: its first value, changed by what the operations that still
stand have added to it. No operation stands on a free qubit, so a free qubit holds its first value.

Two things are asked of a run (`Journal.Fair`): that no operation is made on a free qubit, and that uncomputing finds what the
operations that it undoes have read as they left it.
-/

namespace ReversibleLogic

/-- A call made on a circuit that is being built. -/
inductive Command where
  | addQubit (name : Option Symbol)
  | addAncilla (isFree : Bool)
  | takeAncilla
  | mapQubit (name : Symbol) (q : Qubit) (promote : Bool)
  | mark (q : Qubit)
  | unmark (q : Qubit)
  | append (g : Gate)
  | appendConjugated (flip : Qubit) (g : Gate)
  | uncompute (extra : List Qubit)

namespace Command

/-- Makes the call: the circuit as the call leaves it, and its error if the call is refused. -/
def run (c : Circuit) : Command → Circuit × Except CircuitError Unit
  | .addQubit name => ((c.addQubit name).1, .ok ())
  | .addAncilla isFree => ((c.addAncilla isFree).1, .ok ())
  | .takeAncilla => (c.takeAncilla.1, .ok ())
  | .mapQubit name q promote => c.mapQubit name q promote
  | .mark q => ((c.markAncilla q).1, .ok ())
  | .unmark q => ((c.unmarkAncilla q).1, .ok ())
  | .append g => c.append g
  | .appendConjugated flip g => c.appendConjugated flip g
  | .uncompute extra => ((c.uncompute extra).1, .ok ())

/-- The circuit after the call, whether or not it is refused. -/
def after (c : Circuit) (call : Command) : Circuit := (call.run c).1

/-- A refused call changes nothing. -/
theorem after_of_refused {c c' : Circuit} {call : Command} {e : CircuitError} (h : call.run c = (c', .error e)) :
    call.after c = c := by
  rw [after, h]
  cases call with
  | mapQubit name q promote => exact Circuit.mapQubit_eq_error h
  | append g => exact (Circuit.append_eq_error h).1
  | appendConjugated flip g => exact (Circuit.appendConjugated_eq_error h).1
  | _ => cases (Prod.mk.inj h).2

end Command

/-- The qubits that the second circuit has in addition to those of the first. -/
def Circuit.newQubits (c c' : Circuit) : List Qubit := List.range' c.numQubits (c'.numQubits - c.numQubits)

/-- The new qubits come behind the old ones. -/
theorem Circuit.mem_newQubits {c c' : Circuit} {q : Nat} : q ∈ c.newQubits c' ↔ c.numQubits ≤ q ∧ q < c'.numQubits := by
  rw [newQubits, List.mem_range'_1]
  omega

/-- A circuit that is being built and what has to be known about the calls so far. -/
structure Journal where
  /-- The circuit. -/
  circuit : Circuit
  /-- The history of the circuit. An operation is flagged as long as it stands, that is, until a call to uncompute retires it. -/
  log : FlaggedLog := []
  /-- The qubits that were created as scratch qubits. -/
  scratch : List Qubit := []

namespace Journal

variable {j : Journal} {q : Qubit}

/-- The journal after a call. New operations stand if they were appended, and do not if they undo others. -/
def step (j : Journal) (call : Command) : Journal where
  circuit := call.after j.circuit
  log :=
    let added := (call.after j.circuit).history.drop j.circuit.history.length
    match call with
    | .uncompute extra =>
      j.log.only (fun q => !decide (q ∈ (j.circuit.uncompute extra).2)) ++ added.map fun e => (e, false)
    | _ => j.log ++ added.map fun e => (e, true)
  scratch :=
    match call with
    | .addAncilla _ | .takeAncilla => j.scratch ++ j.circuit.newQubits (call.after j.circuit)
    | _ => j.scratch

/-- What is asked of a call. Appended gates are of the NOT family, and an operation that is appended does not change a free qubit.
Of the operations that uncomputing retires, none has read a qubit that was changed since by an operation that it does not
retire. -/
def Fair (j : Journal) : Command → Prop
  | .append g => g.kind.isClassical = true ∧ ((j.circuit.append g).2.isOk = true → ∀ t ∈ g.target?, t ∉ j.circuit.free)
  | .appendConjugated flip g => (j.circuit.appendConjugated flip g).2.isOk = true → ∀ t ∈ g.target?, t ∉ j.circuit.free
  | .uncompute extra => (j.log.only fun q => decide (q ∈ (j.circuit.uncompute extra).2)).Undoable
  | _ => True

instance (j : Journal) : ∀ call, Decidable (j.Fair call)
  | .append _ => inferInstanceAs (Decidable (_ ∧ (_ → _)))
  | .appendConjugated _ _ => inferInstanceAs (Decidable (_ → _))
  | .uncompute _ => inferInstanceAs (Decidable (FlaggedLog.Undoable _))
  | .addQubit _ | .addAncilla _ | .takeAncilla | .mapQubit _ _ _ | .mark _ | .unmark _ => inferInstanceAs (Decidable True)

/-- The journals of fair runs. A run starts with a circuit without gates. -/
inductive Reached : Journal → Prop where
  | new (name : String) : Reached { circuit := .new name }
  | ofSize (name : String) (n : Nat) : Reached { circuit := .ofSize name n }
  | step {j : Journal} (call : Command) : Reached j → j.Fair call → Reached (j.step call)

/-- The journal after calls, one after another. -/
def run : Journal → List Command → Journal
  | j, [] => j
  | j, call :: rest => (j.step call).run rest

/-- What is asked of calls, one after another. -/
def FairRun : Journal → List Command → Prop
  | _, [] => True
  | j, call :: rest => j.Fair call ∧ (j.step call).FairRun rest

instance decidableFairRun : ∀ (j : Journal) (calls : List Command), Decidable (j.FairRun calls)
  | _, [] => inferInstanceAs (Decidable True)
  | j, call :: rest =>
    have := decidableFairRun (j.step call) rest
    inferInstanceAs (Decidable (_ ∧ _))

/-- A fair run of calls leads from a reached journal to another. -/
theorem Reached.run {calls : List Command} (h : j.Reached) (hfair : j.FairRun calls) : (j.run calls).Reached := by
  induction calls generalizing j with
  | nil => exact h
  | cons call rest ih => exact ih (h.step call hfair.1) hfair.2

/-- The invariant of fair runs. -/
structure Sound (j : Journal) : Prop where
  /-- The log is the history. -/
  history : j.log.entries = j.circuit.history
  /-- The operations that stand are those that have not been undone. -/
  computed : j.log.flagged = j.circuit.computed
  gates : j.circuit.gates = j.circuit.history.flatMap LogEntry.gates
  flips : ∀ g ∈ j.circuit.gates, g.Flips j.circuit.numQubits
  reversible : ∀ e ∈ j.circuit.history, e.Reversible ∧ e.target < j.circuit.numQubits
  /-- Each qubit holds its first value with what the operations that stand have added to it. -/
  value : ∀ s q, actLog j.circuit.history s q = (s q ^^ j.log.flips s q)
  /-- No operation on a free qubit stands. -/
  free_idle : ∀ q ∈ j.circuit.free, ∀ b ∈ j.log, b.1.target = q → b.2 = false
  free_ancilla : ∀ q ∈ j.circuit.free, q ∈ j.circuit.ancillas
  marked_ancilla : ∀ q ∈ j.circuit.marked, q ∈ j.circuit.ancillas
  ancilla_scratch : ∀ q ∈ j.circuit.ancillas, q ∈ j.scratch
  scratch_lt : ∀ q ∈ j.scratch, q < j.circuit.numQubits

/-- Free and marked qubits are scratch qubits. -/
theorem Sound.ancilla (h : j.Sound) (hq : q ∈ j.circuit.free ∨ q ∈ j.circuit.marked) : q ∈ j.circuit.ancillas :=
  hq.elim (h.free_ancilla q) (h.marked_ancilla q)

/-! ## One call -/

/-- A circuit without gates and without scratch qubits. -/
theorem sound_start {c : Circuit} (hgates : c.gates = []) (hhistory : c.history = []) (hcomputed : c.computed = [])
    (hancillas : c.ancillas = .empty) (hfree : c.free = .empty) (hmarked : c.marked = .empty) :
    Sound { circuit := c } where
  history := hhistory.symm
  computed := hcomputed.symm
  gates := by rw [hgates, hhistory]; rfl
  flips := by simp [hgates]
  reversible := by simp [hhistory]
  value s q := by simp [hhistory, FlaggedLog.flips]
  free_idle := by simp
  free_ancilla := by simp [hfree]
  marked_ancilla := by simp [hmarked]
  ancilla_scratch := by simp [hancillas]
  scratch_lt := by simp

/-- A call that appends no operation keeps the invariant, if qubits that become free are new and all scratch qubits are
noted. -/
theorem Sound.quiet (h : j.Sound) {call : Command} {c : Circuit} (hrun : call.after j.circuit = c)
    (hcall : ∀ extra, call ≠ .uncompute extra) (hgates : c.gates = j.circuit.gates)
    (hhistory : c.history = j.circuit.history) (hcomputed : c.computed = j.circuit.computed)
    (hnum : j.circuit.numQubits ≤ c.numQubits) (hfree : ∀ q ∈ c.free, q ∈ j.circuit.free ∨ j.circuit.numQubits ≤ q)
    (hancilla : ∀ q, q ∈ c.free ∨ q ∈ c.marked → q ∈ c.ancillas) (hnoted : ∀ q ∈ c.ancillas, q ∈ (j.step call).scratch)
    (hscratch : ∀ q ∈ (j.step call).scratch, q < c.numQubits) : (j.step call).Sound := by
  have hlog : (j.step call).log = j.log := by
    unfold Journal.step
    cases call with
    | uncompute extra => exact absurd rfl (hcall extra)
    | _ => simp [hrun, hhistory]
  have hstep : j.step call = ⟨c, j.log, (j.step call).scratch⟩ := by
    rw [← hlog, ← hrun]
    rfl
  rw [hstep]
  exact {
    history := h.history.trans hhistory.symm
    computed := h.computed.trans hcomputed.symm
    gates := by rw [hgates, hhistory, h.gates]
    flips := fun g hg => (h.flips g (hgates ▸ hg)).mono hnum
    reversible := fun e he => by
      obtain ⟨hrev, hlt⟩ := h.reversible e (hhistory ▸ he)
      exact ⟨hrev, Nat.lt_of_lt_of_le hlt hnum⟩
    value := fun s q => by rw [hhistory]; exact h.value s q
    free_idle := fun q hq b hb hbq => by
      rcases hfree q hq with hold | hnew
      · exact h.free_idle q hold b hb hbq
      · -- no operation is on a new qubit
        have hlt := (h.reversible b.1 (h.history ▸ FlaggedLog.mem_entries hb)).2
        exact absurd (hbq ▸ hlt) (Nat.not_lt.2 hnew)
    free_ancilla := fun q hq => hancilla q (Or.inl hq)
    marked_ancilla := fun q hq => hancilla q (Or.inr hq)
    ancilla_scratch := hnoted
    scratch_lt := hscratch }

/-- A call that may create scratch qubits keeps the invariant, if it appends no operation and changes no marks, and if the scratch
qubits and the free qubits that it adds are new. -/
theorem Sound.create (h : j.Sound) {call : Command} {c : Circuit} (hrun : call.after j.circuit = c)
    (hcall : ∀ extra, call ≠ .uncompute extra) (hscratch : (j.step call).scratch = j.scratch ++ j.circuit.newQubits c)
    (hgates : c.gates = j.circuit.gates) (hhistory : c.history = j.circuit.history) (hcomputed : c.computed = j.circuit.computed)
    (hnum : j.circuit.numQubits ≤ c.numQubits) (hmarked : c.marked = j.circuit.marked)
    (hfree : ∀ q ∈ c.free, q ∈ c.ancillas ∧ (q ∈ j.circuit.free ∨ j.circuit.numQubits ≤ q))
    (hancillas : ∀ q ∈ c.ancillas, q ∈ j.circuit.ancillas ∨ j.circuit.numQubits ≤ q ∧ q < c.numQubits)
    (hold : ∀ q ∈ j.circuit.ancillas, q ∈ c.ancillas) : (j.step call).Sound := by
  refine h.quiet hrun hcall hgates hhistory hcomputed hnum (fun q hq => (hfree q hq).2) (fun q hq => ?_) (fun q hq => ?_)
    fun q hq => ?_
  · rcases hq with hq | hq
    · exact (hfree q hq).1
    · exact hold q (h.marked_ancilla q (hmarked ▸ hq))
  · rw [hscratch]
    exact List.mem_append.2 ((hancillas q hq).imp (h.ancilla_scratch q) Circuit.mem_newQubits.2)
  · rw [hscratch] at hq
    rcases List.mem_append.1 hq with hq | hq
    · exact Nat.lt_of_lt_of_le (h.scratch_lt q hq) hnum
    · exact (Circuit.mem_newQubits.1 hq).2

/-- A refused call keeps the invariant. -/
theorem Sound.refused (h : j.Sound) {call : Command} {c : Circuit} {e : CircuitError}
    (hrun : call.run j.circuit = (c, .error e)) : (j.step call).Sound := by
  have hafter := Command.after_of_refused hrun
  cases call with
  | mapQubit | append | appendConjugated =>
    exact h.quiet hafter (by simp) rfl rfl rfl (Nat.le_refl _) (fun _ => Or.inl) (fun _ => h.ancilla) h.ancilla_scratch
      h.scratch_lt
  | _ => cases (Prod.mk.inj hrun).2

/-- A call that appends an operation on a qubit that is not free. -/
theorem Sound.record (h : j.Sound) {call : Command} {e : LogEntry} (hrun : call.after j.circuit = j.circuit.record e)
    (hcall : ∀ extra, call ≠ .uncompute extra) (hscratch : (j.step call).scratch = j.scratch) (he : e.Reversible)
    (hfits : ∀ g ∈ e.gates, g.Fits j.circuit.numQubits) (hlt : e.target < j.circuit.numQubits)
    (hfree : e.target ∉ j.circuit.free) : (j.step call).Sound := by
  have hlog : (j.step call).log = j.log ++ [(e, true)] := by
    unfold Journal.step
    cases call with
    | uncompute extra => exact absurd rfl (hcall extra)
    | _ => simp [hrun, Circuit.record]
  have hstep : j.step call = ⟨j.circuit.record e, j.log ++ [(e, true)], j.scratch⟩ := by
    rw [← hlog, ← hrun, ← hscratch]
    rfl
  rw [hstep]
  refine ⟨?_, ?_, ?_, fun g hg => ?_, fun f hf => ?_, fun s q => ?_, fun q hq b hb hbq => ?_, h.free_ancilla, h.marked_ancilla,
    h.ancilla_scratch, h.scratch_lt⟩
  · rw [FlaggedLog.entries_append, h.history]
    rfl
  · rw [FlaggedLog.flagged_append, h.computed]
    rfl
  · simp [Circuit.record, h.gates]
  · rcases List.mem_append.1 hg with hg | hg
    · exact h.flips g hg
    · exact ⟨he.classical g hg, hfits g hg⟩
  · rcases List.mem_append.1 hf with hf | hf
    · exact h.reversible f hf
    · obtain rfl := List.mem_singleton.1 hf
      exact ⟨he, hlt⟩
  · have hact : actLog (j.circuit.record e).history s = actGates .idle e.gates (actLog j.circuit.history s) := by
      rw [Circuit.record, actLog_append, actLog_singleton]
    rw [hact, FlaggedLog.flips_append, h.history, he.act_eq, ← Bool.xor_assoc, ← h.value]
    by_cases hq : e.target = q
    · subst hq
      simp [FlaggedLog.flips]
    · simp [FlaggedLog.flips, hq, Function.update_of_ne (Ne.symm hq)]
  · rcases List.mem_append.1 hb with hb | hb
    · exact h.free_idle q hq b hb hbq
    · obtain rfl := List.mem_singleton.1 hb
      exact absurd (hbq ▸ hq) hfree

/-- Uncomputing drives back marked scratch qubits, and a fair call can do so. -/
theorem Sound.uncompute_eq (h : j.Sound) {extra : List Qubit} (hfair : j.Fair (.uncompute extra)) :
    ∃ m : QubitSet, j.circuit.uncompute extra = ({ j.circuit with marked := m }.reclaimed, m) ∧
      (∀ q ∈ m, q ∈ j.circuit.ancillas) ∧ (j.log.only fun q => decide (q ∈ m)).Undoable := by
  have hrev : ∀ e ∈ j.circuit.computed, e.Reversible := fun e he =>
    (h.reversible e (h.history ▸ FlaggedLog.mem_entries_of_flagged (h.computed ▸ he))).1
  have hundo : (j.log.only fun q => decide (q ∈ (j.circuit.uncompute extra).2)).Undoable := hfair
  obtain ⟨m, heq, hm⟩ := Circuit.uncompute_eq (fun e he => (hrev e he).reverse_eq) extra
  rw [heq] at hundo
  exact ⟨m, heq, fun q hq => ((hm q).1 hq).elim (h.marked_ancilla q) And.right, hundo⟩

/-- Uncomputing leaves on each qubit its first value with what the operations that stand afterwards have added to it. -/
theorem Sound.actLog_undone (h : j.Sound) {m : QubitSet} (hundo : (j.log.only fun q => decide (q ∈ m)).Undoable) (s : Bits)
    (q : Qubit) :
    actLog ({ j.circuit with marked := m }.undone) (actLog j.circuit.history s) q =
      (s q ^^ (j.log.only fun q => !decide (q ∈ m)).flips s q) := by
  have hundone : { j.circuit with marked := m }.undone = (j.log.only fun q => decide (q ∈ m)).flagged.reverse := by
    rw [FlaggedLog.flagged_only, h.computed]
    rfl
  have hentries : (j.log.only fun q => decide (q ∈ m)).entries = j.circuit.history := by
    rw [FlaggedLog.entries_only, h.history]
  have hrev : ∀ e ∈ (j.log.only fun q => decide (q ∈ m)).entries, e.Reversible := fun e he =>
    (h.reversible e (hentries ▸ he)).1
  rw [hundone, ← hentries, FlaggedLog.actLog_undo hrev (hundo.controls hrev), hentries, h.value,
    FlaggedLog.flips_split (fun q => decide (q ∈ m)) j.log]
  simp [Bool.xor_comm, Bool.xor_left_comm]

/-- Uncomputing, when the qubits to drive back have been marked. -/
theorem Sound.reclaimed (h : j.Sound) {m : QubitSet} (hm : ∀ q ∈ m, q ∈ j.circuit.ancillas)
    (hundo : (j.log.only fun q => decide (q ∈ m)).Undoable) :
    Sound ⟨{ j.circuit with marked := m }.reclaimed,
      (j.log.only fun q => !decide (q ∈ m)) ++ { j.circuit with marked := m }.undone.map fun e => (e, false), j.scratch⟩ := by
  have hundone : ∀ e ∈ { j.circuit with marked := m }.undone, e ∈ j.circuit.history := fun e he => by
    have hcomputed : e ∈ j.circuit.computed := (List.mem_filter.1 (List.mem_reverse.1 he)).1
    rw [← h.computed] at hcomputed
    exact h.history ▸ FlaggedLog.mem_entries_of_flagged hcomputed
  refine ⟨?_, ?_, ?_, fun g hg => ?_, fun e he => ?_, fun s q => ?_, fun q hq b hb hbq => ?_, fun q hq => ?_,
    by simp [Circuit.reclaimed], h.ancilla_scratch, h.scratch_lt⟩
  · simp [Circuit.reclaimed, h.history]
  · rw [FlaggedLog.flagged_append, FlaggedLog.flagged_only, h.computed]
    simp [Circuit.reclaimed, FlaggedLog.flagged]
  · simp [Circuit.reclaimed, h.gates]
  · rcases List.mem_append.1 hg with hg | hg
    · exact h.flips g hg
    · obtain ⟨e, he, hge⟩ := List.mem_flatMap.1 hg
      exact h.flips g (by rw [h.gates]; exact List.mem_flatMap.2 ⟨e, hundone e he, hge⟩)
  · rcases List.mem_append.1 he with he | he
    · exact h.reversible e he
    · exact h.reversible e (hundone e he)
  · have hnew : (FlaggedLog.flips ({ j.circuit with marked := m }.undone.map fun e => (e, false))
        (actLog (j.log.only fun q => !decide (q ∈ m)).entries s) q) = false :=
      FlaggedLog.flips_eq_false (by simp) _
    rw [FlaggedLog.flips_append, hnew, Bool.xor_false, ← h.actLog_undone hundo]
    exact congrFun (actLog_append _ _ s) q
  · rcases List.mem_append.1 hb with hb | hb
    · obtain ⟨⟨e, flag⟩, hlog, rfl⟩ := List.mem_map.1 hb
      obtain rfl : e.target = q := hbq
      rcases QubitSet.mem_union.1 hq with hq | hq
      · rw [show flag = false from h.free_idle e.target hq (e, flag) hlog rfl, Bool.false_and]
      · simp [show e.target ∈ m from hq]
    · obtain ⟨e, -, rfl⟩ := List.mem_map.1 hb
      rfl
  · rcases QubitSet.mem_union.1 hq with hq | hq
    · exact h.free_ancilla q hq
    · exact hm q hq

/-- A new qubit is not free. -/
theorem Sound.addQubit (h : j.Sound) (name : Option Symbol) : (j.step (.addQubit name)).Sound := by
  have hnum : (j.circuit.addQubit name).1.numQubits = j.circuit.numQubits + 1 := Circuit.numQubits_addQubit _ _
  have hscratch : ∀ q ∈ j.scratch, q < (j.circuit.addQubit name).1.numQubits := fun q hq =>
    hnum ▸ Nat.lt_succ_of_lt (h.scratch_lt q hq)
  cases name with
  | none | some name =>
    exact h.quiet rfl (by simp) rfl rfl rfl (hnum ▸ Nat.le_succ _) (fun _ => Or.inl) (fun _ => h.ancilla) h.ancilla_scratch
      hscratch

/-- A new scratch qubit has no operations, whether or not it is free. -/
theorem Sound.addAncilla (h : j.Sound) (isFree : Bool) : (j.step (.addAncilla isFree)).Sound := by
  have hnum : (j.circuit.addAncilla isFree).1.numQubits = j.circuit.numQubits + 1 := by
    simp [Circuit.addAncilla, Circuit.numQubits]
  have hancillas : ∀ q, q ∈ (j.circuit.addAncilla isFree).1.ancillas ↔ q = j.circuit.numQubits ∨ q ∈ j.circuit.ancillas :=
    fun q => QubitSet.mem_insert
  have hfree : ∀ q ∈ (j.circuit.addAncilla isFree).1.free, q = j.circuit.numQubits ∨ q ∈ j.circuit.free := by
    cases isFree with
    | false => exact fun q hq => Or.inr hq
    | true => exact fun q hq => QubitSet.mem_insert.1 hq
  refine h.create rfl (by simp) rfl rfl rfl rfl (hnum ▸ Nat.le_succ _) rfl (fun q hq => ?_) (fun q hq => ?_)
    fun q hq => (hancillas q).2 (Or.inr hq)
  · rcases hfree q hq with rfl | hq
    · exact ⟨(hancillas _).2 (Or.inl rfl), Or.inr (Nat.le_refl _)⟩
    · exact ⟨(hancillas q).2 (Or.inr (h.free_ancilla q hq)), Or.inl hq⟩
  · rcases (hancillas q).1 hq with rfl | hq
    · exact Or.inr ⟨Nat.le_refl _, hnum ▸ Nat.lt_succ_self _⟩
    · exact Or.inl hq

/-- A scratch qubit that is taken is no longer free. -/
theorem Sound.takeAncilla (h : j.Sound) : (j.step .takeAncilla).Sound := by
  have hlt : ∀ q ∈ j.circuit.ancillas, q < j.circuit.numQubits := fun q hq => h.scratch_lt q (h.ancilla_scratch q hq)
  have htaken := Circuit.taken_takeAncilla hlt h.free_ancilla
  obtain ⟨hgates, hhistory, hcomputed, -, -, hmarked⟩ := htaken.same
  obtain ⟨L, hL⟩ := htaken.labels
  have hnum : j.circuit.numQubits ≤ j.circuit.takeAncilla.1.numQubits := by simp [Circuit.numQubits, hL]
  refine h.create (c := j.circuit.takeAncilla.1) rfl (by simp) rfl hgates hhistory hcomputed hnum hmarked (fun q hq => ?_)
    (fun q hq => ?_) fun q hq => (htaken.ancillas q).2 (Or.inl hq)
  · have hq := ((htaken.free q).1 hq).1
    exact ⟨(htaken.ancillas q).2 (Or.inl (h.free_ancilla q hq)), Or.inl hq⟩
  · rcases (htaken.ancillas q).1 hq with hq | rfl
    · exact Or.inl hq
    · exact htaken.source.imp (h.free_ancilla _) fun hnew => ⟨hnew, htaken.lt⟩

/-- A name may make a scratch qubit an ordinary one: it is then no longer free or marked. -/
theorem Sound.mapQubit (h : j.Sound) (name : Symbol) (q : Qubit) (promote : Bool) :
    (j.step (.mapQubit name q promote)).Sound := by
  rcases hmap : j.circuit.mapQubit name q promote with ⟨c, answer⟩
  cases answer with
  | error e => exact h.refused hmap
  | ok _ =>
    have hrun : (Command.mapQubit name q promote).after j.circuit = c := congrArg Prod.fst hmap
    obtain ⟨⟨hgates, hhistory, hcomputed, hnum⟩, hsets⟩ := Circuit.mapQubit_eq_ok hmap
    refine h.quiet hrun (by simp) hgates hhistory hcomputed (Nat.le_of_eq hnum.symm) (fun p hp => Or.inl ?_) (fun p hp => ?_)
      (fun p hp => h.ancilla_scratch p ?_) (hnum ▸ h.scratch_lt)
    all_goals
      rcases hsets with ⟨ha, hf, hm⟩ | ⟨ha, hf, hm⟩
    · exact hf ▸ hp
    · exact (QubitSet.mem_erase.1 (hf ▸ hp)).1
    · rw [hf, hm] at hp
      exact ha ▸ h.ancilla hp
    · rw [hf, hm, QubitSet.mem_erase, QubitSet.mem_erase, ← or_and_right] at hp
      exact ha ▸ QubitSet.mem_erase.2 ⟨h.ancilla hp.1, hp.2⟩
    · exact ha ▸ hp
    · exact (QubitSet.mem_erase.1 (ha ▸ hp)).1

/-- A mark changes no value. -/
theorem Sound.mark (h : j.Sound) (q : Qubit) : (j.step (.mark q)).Sound := by
  obtain ⟨m, hmark, hm⟩ := j.circuit.markAncilla_eq q
  refine h.quiet hmark (by simp) rfl rfl rfl (Nat.le_refl _) (fun _ => Or.inl) (fun p hp => ?_) h.ancilla_scratch h.scratch_lt
  rcases hp with hp | hp
  · exact h.free_ancilla p hp
  · exact ((hm p).1 hp).elim (h.marked_ancilla p) And.right

/-- An appended gate is an operation on a qubit that is not free, or it is refused. -/
theorem Sound.append (h : j.Sound) {g : Gate} (hfair : j.Fair (.append g)) : (j.step (.append g)).Sound := by
  rcases happ : j.circuit.append g with ⟨c, answer⟩
  cases answer with
  | error e => exact h.refused happ
  | ok _ =>
    obtain ⟨hclassical, hfree⟩ := hfair
    obtain ⟨hfit, t, ht, rfl⟩ := Circuit.append_eq_ok hclassical happ
    refine h.record (e := ⟨[g], t⟩) (congrArg Prod.fst happ) (by simp) rfl (.plain ht) (by simpa using hfit)
      (hfit.range t ht.target_mem) ?_
    exact hfree (by rw [happ]; rfl) t ht.target

/-- A gate between two flips is such an operation too. -/
theorem Sound.appendConjugated (h : j.Sound) {flip : Qubit} {g : Gate} (hfair : j.Fair (.appendConjugated flip g)) :
    (j.step (.appendConjugated flip g)).Sound := by
  rcases happ : j.circuit.appendConjugated flip g with ⟨c, answer⟩
  cases answer with
  | error e => exact h.refused happ
  | ok _ =>
    obtain ⟨hfit, hflip, t, ht, hne, rfl⟩ := Circuit.appendConjugated_eq_ok happ
    refine h.record (e := ⟨[.x flip, g, .x flip], t⟩) (congrArg Prod.fst happ) (by simp) rfl (.conjugated ht hne)
      (by simp [hfit, hflip]) (hfit.range t ht.target_mem) ?_
    exact hfair (by rw [happ]; rfl) t ht.target

/-- Uncomputing frees the qubits that it drives back. -/
theorem Sound.uncompute (h : j.Sound) {extra : List Qubit} (hfair : j.Fair (.uncompute extra)) :
    (j.step (.uncompute extra)).Sound := by
  obtain ⟨m, heq, hm, hundo⟩ := h.uncompute_eq hfair
  have hstep : j.step (.uncompute extra) = ⟨{ j.circuit with marked := m }.reclaimed,
      (j.log.only fun q => !decide (q ∈ m)) ++ { j.circuit with marked := m }.undone.map fun e => (e, false), j.scratch⟩ := by
    simp [Journal.step, Command.after, Command.run, heq, Circuit.reclaimed]
  rw [hstep]
  exact h.reclaimed hm hundo

/-- One fair call keeps the invariant. -/
theorem Sound.step (h : j.Sound) {call : Command} (hfair : j.Fair call) : (j.step call).Sound := by
  cases call with
  | addQubit name => exact h.addQubit name
  | addAncilla isFree => exact h.addAncilla isFree
  | takeAncilla => exact h.takeAncilla
  | mapQubit name q promote => exact h.mapQubit name q promote
  | mark q => exact h.mark q
  | unmark q =>
    exact h.quiet (c := (j.circuit.unmarkAncilla q).1) rfl (by simp) rfl rfl rfl (Nat.le_refl _) (fun _ => Or.inl)
      (fun p hp => h.ancilla (hp.imp_right fun hm => (QubitSet.mem_erase.1 hm).1)) h.ancilla_scratch h.scratch_lt
  | append g => exact h.append hfair
  | appendConjugated flip g => exact h.appendConjugated hfair
  | uncompute extra => exact h.uncompute hfair

/-! ## Runs -/

/-- A fair run keeps the invariant. -/
theorem Reached.sound (h : j.Reached) : j.Sound := by
  induction h with
  | new name => exact sound_start rfl rfl rfl rfl rfl rfl
  | ofSize name n => exact sound_start rfl rfl rfl rfl rfl rfl
  | step call _ hfair ih => exact ih.step hfair

/-- The circuit of a sound journal can be simulated, and leads to where its history leads. -/
theorem Sound.simulate (h : j.Sound) {row : List Bool} (hrow : row.length = j.circuit.numQubits) :
    ∃ s, j.circuit.simulate row = .ok s ∧ s.size = j.circuit.numQubits ∧ s.bits = actLog j.circuit.history (.ofRow row) := by
  obtain ⟨s, hs, hsize, hbits⟩ := Circuit.simulate_eq (fun g hg => (h.flips g hg).fits)
    (fun g hg => GateKind.isBlackBox_of_isClassical (h.flips g hg).classical) (Nat.le_of_eq hrow)
  refine ⟨s, hs, hsize, ?_⟩
  rw [hbits, Circuit.final, h.gates]
  rfl

/-- Free scratch qubits hold 0. In a fair run, from any values with 0 on all qubits that were created as scratch qubits, every
free qubit holds 0 after every call. A fair call to uncompute changes no qubit but those that it returns, from any values at
all. What the journal says of the calls so far is what the two logs of the circuit say: its operations are the history, and
those that stand are the ones that have not been undone. -/
theorem free_pool_zero (h : j.Reached) :
    (j.log.entries = j.circuit.history ∧ j.log.flagged = j.circuit.computed) ∧
    (∀ row : List Bool, row.length = j.circuit.numQubits → (∀ q ∈ j.scratch, row[q]? = some false) →
      ∃ s, j.circuit.simulate row = .ok s ∧ ∀ q ∈ j.circuit.free, s[q]? = some false) ∧
    ∀ extra, j.Fair (.uncompute extra) → ∀ row : List Bool, row.length = j.circuit.numQubits →
      ∃ s s', j.circuit.simulate row = .ok s ∧ (j.circuit.uncompute extra).1.simulate row = .ok s' ∧
        ∀ q, q ∉ (j.circuit.uncompute extra).2 → s'[q]? = s[q]? := by
  have hj := h.sound
  refine ⟨⟨hj.history, hj.computed⟩, fun row hrow hzero => ?_, fun extra hfair row hrow => ?_⟩
  · obtain ⟨s, hs, hsize, hbits⟩ := hj.simulate hrow
    refine ⟨s, hs, fun q hq => ?_⟩
    have hscratch := hj.ancilla_scratch q (hj.free_ancilla q hq)
    have hstart : Bits.ofRow row q = false := by rw [Bits.ofRow, hzero q hscratch, Option.getD_some]
    rw [Register.getElem?_eq_some_bits (hsize ▸ hj.scratch_lt q hscratch), hbits, hj.value, hstart,
      FlaggedLog.flips_eq_false (hj.free_idle q hq)]
    rfl
  · obtain ⟨m, heq, hm, hundo⟩ := hj.uncompute_eq hfair
    obtain ⟨s, hs, hsize, hbits⟩ := hj.simulate hrow
    obtain ⟨s', hs', hsize', hbits'⟩ := (hj.reclaimed hm hundo).simulate hrow
    rw [heq]
    refine ⟨s, s', hs, hs', fun q hq => Register.getElem?_congr (hsize'.trans hsize.symm) ?_⟩
    -- no operation on the qubit has been retired
    have hkept : (j.log.only fun q => decide (q ∈ m)).flips (.ofRow row) q = false := by
      refine FlaggedLog.flips_eq_false (fun b hb hbq => ?_) _
      obtain ⟨c, -, rfl⟩ := List.mem_map.1 hb
      obtain rfl : c.1.target = q := hbq
      simp [hq]
    rw [hbits', hbits, Circuit.reclaimed, actLog_append, hj.actLog_undone hundo, hj.value,
      FlaggedLog.flips_split (fun q => decide (q ∈ m)) j.log, hkept, Bool.false_xor]

/-- Two scratch qubits are computed, one from the other, and used for the third qubit; they are uncomputed, and the first of them
is taken again, computed from the third qubit and uncomputed. -/
def cycles : List Command :=
  [.takeAncilla, .append (.ccx 0 1 3), .takeAncilla, .appendConjugated 3 (.ccx 0 3 4), .append (.cx 4 2), .uncompute [3, 4],
    .takeAncilla, .append (.cx 2 3), .mark 3]

/-- Before the last time that a scratch qubit is uncomputed, the other one is free and holds 0; uncomputing leaves the third qubit
as it is. -/
theorem free_pool_zero_cycles : ∃ j : Journal, j.Reached ∧ 4 ∈ j.circuit.free ∧ j.Fair (.uncompute []) ∧
    ∃ s s', j.circuit.simulate [true, false, false, false, false] = .ok s ∧ s[4]? = some false ∧ s[2]? = some true ∧
      (j.circuit.uncompute []).1.simulate [true, false, false, false, false] = .ok s' ∧ s'[2]? = s[2]? := by
  have hreached : (run { circuit := .ofSize "cycles" 3 } cycles).Reached := (Reached.ofSize "cycles" 3).run (by decide +kernel)
  obtain ⟨j, hj⟩ : ∃ j, j = run { circuit := .ofSize "cycles" 3 } cycles := ⟨_, rfl⟩
  rw [← hj] at hreached
  have hfair : j.Fair (.uncompute []) := by
    rw [hj]
    decide +kernel
  have hscratch : j.circuit.numQubits = 5 ∧ j.scratch = [3, 4] ∧ 4 ∈ j.circuit.free ∧ 2 ∉ (j.circuit.uncompute []).2 := by
    rw [hj]
    decide +kernel
  have hbit : ((j.circuit.simulate [true, false, false, false, false]).toOption.bind fun s => s[2]?) = some true := by
    rw [hj]
    decide +kernel
  obtain ⟨hnum, hzero, hfree, hkept⟩ := hscratch
  obtain ⟨-, hpool, huncompute⟩ := free_pool_zero hreached
  obtain ⟨s, hs, hall⟩ := hpool [true, false, false, false, false] hnum.symm (by rw [hzero]; decide)
  obtain ⟨t, s', ht, hs', hsame⟩ := huncompute [] hfair [true, false, false, false, false] hnum.symm
  obtain rfl : t = s := Except.ok.inj (ht.symm.trans hs)
  rw [hs] at hbit
  exact ⟨j, hreached, hfree, hfair, t, s', hs, hall 4 hfree, hbit, hs', hsame 2 hkept⟩

end Journal

end ReversibleLogic
