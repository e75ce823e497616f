import ReversibleLogic.Circuit.Uncompute
import ReversibleLogic.Proofs.Action

/-!
# Rewinding operations

An operation of a log flips its target under a condition on the qubits it reads, and so undoes itself. Operations that are chosen
from a log are undone by making them once more, the newest first, while all others stay made.

`FlaggedLog.actLog_undo` says when this works: whatever changes a qubit that a chosen operation depends on, after that operation,
must be chosen too. Then every qubit loses what the chosen operations have added to it. `actLog_rewind` is the case in which the
operations on some qubits are chosen: these qubits have the values from before the log, and the others keep theirs.
-/

namespace ReversibleLogic

namespace LogEntry

/-- The qubits that the operation reads: those of its gates, but for the one it changes. -/
def reads (e : LogEntry) : List Qubit := (e.gates.flatMap Gate.qubits).filter (· != e.target)

/-- The qubits on whose values it depends what the operation does: the controls of its gates. -/
def controls (e : LogEntry) : List Qubit := e.gates.flatMap Gate.controls

/-- The operations that undo themselves: a gate that flips the target, alone or between two flips of another qubit. -/
inductive Reversible : LogEntry → Prop where
  | plain {g : Gate} {t : Qubit} (h : g.Toggles t) : Reversible ⟨[g], t⟩
  | conjugated {g : Gate} {t r : Qubit} (h : g.Toggles t) (hr : r ≠ t) : Reversible ⟨[.x r, g, .x r], t⟩

/-- Whether the operation flips its target. -/
def fires (e : LogEntry) (s : Bits) : Bool := actGates .idle e.gates s e.target ^^ s e.target

/-- An operation reads the qubits of its gates, but for its target. -/
theorem mem_reads {e : LogEntry} {r : Qubit} : r ∈ e.reads ↔ (∃ g ∈ e.gates, r ∈ g.qubits) ∧ r ≠ e.target := by
  simp [reads]

end LogEntry

/-- A flip toggles its qubit. -/
theorem Gate.toggles_x (q : Qubit) : (Gate.x q).Toggles q := ⟨rfl, rfl, by simp [Gate.controls, Gate.x]⟩

/-- The gate without controls flips its qubit. -/
theorem Gate.act_x (box : Reading) (q : Qubit) (s : Bits) : (Gate.x q).act box s = Function.update s q (!s q) := by
  rw [(Gate.toggles_x q).act_eq]
  simp [Gate.controls, Gate.x]

/-- A gate alone flips its target when all its controls are set. -/
theorem LogEntry.fires_plain {g : Gate} {t : Qubit} (h : g.Toggles t) (s : Bits) :
    LogEntry.fires ⟨[g], t⟩ s = g.controls.all s := by
  simp only [LogEntry.fires, actGates_cons, actGates_nil, h.act_eq, Function.update_self]
  cases s t <;> simp

/-- What a gate between two flips does: the flips are undone, and the target is flipped when all controls are set with the
flipped qubit read the other way round. -/
theorem actGates_conjugated {g : Gate} {t r : Qubit} (h : g.Toggles t) (hr : r ≠ t) (s : Bits) :
    actGates .idle [.x r, g, .x r] s = Function.update s t (s t ^^ g.controls.all (Function.update s r (!s r))) := by
  simp only [actGates_cons, actGates_nil, Gate.act_x, h.act_eq]
  rw [Function.update_of_ne hr.symm, Function.update_of_ne hr, Function.update_self, Bool.not_not]
  funext p
  by_cases hp : p = r
  · subst hp
    rw [Function.update_self, Function.update_of_ne hr]
  · by_cases hpt : p = t
    · subst hpt
      rw [Function.update_of_ne hp, Function.update_self, Function.update_self]
    · simp [Function.update_of_ne hp, Function.update_of_ne hpt]

/-- With a control flipped around the gate, the operation fires where the gate does with that control flipped. -/
theorem LogEntry.fires_conjugated {g : Gate} {t r : Qubit} (h : g.Toggles t) (hr : r ≠ t) (s : Bits) :
    LogEntry.fires ⟨[.x r, g, .x r], t⟩ s = g.controls.all (Function.update s r (!s r)) := by
  simp only [LogEntry.fires, actGates_conjugated h hr, Function.update_self]
  cases s t <;> simp

namespace LogEntry.Reversible

variable {e : LogEntry}

/-- An operation changes its target, by the condition, and nothing else. -/
theorem act_eq (h : e.Reversible) (s : Bits) :
    actGates .idle e.gates s = Function.update s e.target (s e.target ^^ e.fires s) := by
  cases h with
  | plain hg => rw [fires_plain hg, actGates_cons, actGates_nil, hg.act_eq]
  | conjugated hg hr => rw [fires_conjugated hg hr, actGates_conjugated hg hr]

/-- The controls are read. -/
theorem mem_reads_of_controls (h : e.Reversible) {r : Qubit} (hr : r ∈ e.controls) : r ∈ e.reads := by
  cases h with
  | @plain g t hg =>
    have hr : r ∈ g.controls := by simpa [controls] using hr
    exact mem_reads.2 ⟨⟨g, by simp, hg.control_mem hr⟩, hg.control_ne hr⟩
  | @conjugated g t p hg hp =>
    have hr : r ∈ g.controls := by simpa [controls, Gate.controls, Gate.x] using hr
    exact mem_reads.2 ⟨⟨g, by simp, hg.control_mem hr⟩, hg.control_ne hr⟩

/-- The condition depends on the controls. A qubit that is flipped to and fro and is no control does not matter. -/
theorem fires_congr (h : e.Reversible) {s s' : Bits} (hs : ∀ r ∈ e.controls, s r = s' r) : e.fires s = e.fires s' := by
  cases h with
  | @plain g t hg =>
    rw [fires_plain hg, fires_plain hg]
    exact Bits.all_congr fun q hq => hs q (by simpa [controls] using hq)
  | @conjugated g t r hg hr =>
    rw [fires_conjugated hg hr, fires_conjugated hg hr]
    have hread : ∀ q ∈ g.controls, s q = s' q := fun q hq => hs q (by simp [controls, hq])
    refine Bits.all_congr fun q hq => ?_
    by_cases hqr : q = r
    · subst hqr
      rw [Function.update_self, Function.update_self, hread q hq]
    · rw [Function.update_of_ne hqr, Function.update_of_ne hqr, hread q hq]

/-- Backwards the operation is the same. -/
theorem reverse_eq (h : e.Reversible) : e.reverse = e := by
  cases h with
  | plain hg => rfl
  | conjugated hg hr => rfl

/-- The gates of the operation are of the NOT family. -/
theorem classical (h : e.Reversible) : ∀ g ∈ e.gates, g.kind.isClassical = true := by
  cases h with
  | plain hg => simpa using hg.classical
  | conjugated hg hr => simpa [Gate.x, GateKind.isClassical] using hg.classical

end LogEntry.Reversible

/-! ## Logs -/

/-- What the operations of a log do one after another. -/
def actLog (E : List LogEntry) (s : Bits) : Bits := actGates .idle (E.flatMap LogEntry.gates) s

@[simp] theorem actLog_nil (s : Bits) : actLog [] s = s := rfl

@[simp] theorem actLog_append (E F : List LogEntry) (s : Bits) : actLog (E ++ F) s = actLog F (actLog E s) := by
  simp [actLog]

theorem actLog_cons (e : LogEntry) (E : List LogEntry) (s : Bits) :
    actLog (e :: E) s = actLog E (actGates .idle e.gates s) := by
  simp [actLog]

theorem actLog_singleton (e : LogEntry) (s : Bits) : actLog [e] s = actGates .idle e.gates s := by
  simp [actLog]

/-- A qubit that is no operation's target keeps its value. -/
theorem actLog_of_forall_ne {E : List LogEntry} {q : Qubit} (hE : ∀ e ∈ E, e.Reversible)
    (hq : ∀ e ∈ E, e.target ≠ q) (s : Bits) : actLog E s q = s q := by
  induction E generalizing s with
  | nil => rfl
  | cons e E ih =>
    rw [actLog_cons, ih (fun f hf => hE f (List.mem_cons_of_mem e hf)) (fun f hf => hq f (List.mem_cons_of_mem e hf)),
      (hE e List.mem_cons_self).act_eq, Function.update_of_ne (hq e List.mem_cons_self).symm]

/-! ## Undoing chosen operations -/

/-- A log in which some of the operations are flagged. -/
abbrev FlaggedLog := List (LogEntry × Bool)

namespace FlaggedLog

/-- All operations. -/
def entries (L : FlaggedLog) : List LogEntry := L.map Prod.fst

/-- The operations that are flagged. -/
def flagged (L : FlaggedLog) : List LogEntry := (L.filter Prod.snd).map Prod.fst

/-- Whether the flagged operations together flip the qubit, when the whole log is made on the values `s`. -/
def flips : FlaggedLog → Bits → Qubit → Bool
  | [], _, _ => false
  | (e, flag) :: L, s, q => (flag && decide (e.target = q) && e.fires s) ^^ flips L (actGates .idle e.gates s) q

/-- The log with only those flags left that stand on operations on the qubits of `M`. -/
def only (M : Qubit → Bool) (L : FlaggedLog) : FlaggedLog := L.map fun b => (b.1, b.2 && M b.1.target)

/-- Whatever changes a qubit after a flagged operation has read it is flagged too. -/
def Undoable (L : FlaggedLog) : Prop := L.Pairwise fun b c => b.2 = true → c.1.target ∈ b.1.reads → c.2 = true

instance (L : FlaggedLog) : Decidable L.Undoable := inferInstanceAs (Decidable (L.Pairwise _))

variable {L K : FlaggedLog} {M : Qubit → Bool} {q : Qubit}

@[simp] theorem entries_nil : entries [] = [] := rfl

@[simp] theorem entries_cons (b : LogEntry × Bool) (L : FlaggedLog) : entries (b :: L) = b.1 :: entries L := rfl

@[simp] theorem entries_append (L K : FlaggedLog) : entries (L ++ K) = entries L ++ entries K := List.map_append

@[simp] theorem entries_only (M : Qubit → Bool) (L : FlaggedLog) : entries (only M L) = entries L := by
  simp [entries, only, Function.comp_def]

@[simp] theorem flagged_cons_false (e : LogEntry) (L : FlaggedLog) : flagged ((e, false) :: L) = flagged L := rfl

@[simp] theorem flagged_cons_true (e : LogEntry) (L : FlaggedLog) : flagged ((e, true) :: L) = e :: flagged L := rfl

@[simp] theorem flagged_append (L K : FlaggedLog) : flagged (L ++ K) = flagged L ++ flagged K := by
  simp [flagged]

/-- A log with one flag for all. -/
@[simp] theorem entries_map (E : List LogEntry) (flag : Bool) : entries (E.map fun e => (e, flag)) = E := by
  simp [entries, Function.comp_def]

theorem mem_entries {b : LogEntry × Bool} (h : b ∈ L) : b.1 ∈ entries L := List.mem_map_of_mem h

theorem mem_entries_of_flagged {e : LogEntry} (h : e ∈ flagged L) : e ∈ entries L := by
  obtain ⟨b, hb, rfl⟩ := List.mem_map.1 h
  exact mem_entries (List.mem_filter.1 hb).1

/-- The flags that are left stand on flagged operations on the qubits of `M`. -/
theorem flagged_only (M : Qubit → Bool) (L : FlaggedLog) : flagged (only M L) = (flagged L).filter fun e => M e.target := by
  induction L with
  | nil => rfl
  | cons b L ih =>
    obtain ⟨e, flag⟩ := b
    have hhead : only M ((e, flag) :: L) = (e, flag && M e.target) :: only M L := rfl
    rw [hhead]
    cases flag <;> cases hM : M e.target <;> simp [hM, ih]

/-- What two logs flip in a row, the second seeing the values that the first has left. -/
theorem flips_append (L K : FlaggedLog) (s : Bits) (q : Qubit) :
    flips (L ++ K) s q = (flips L s q ^^ flips K (actLog (entries L) s) q) := by
  induction L generalizing s with
  | nil => simp [flips]
  | cons b L ih =>
    rw [List.cons_append, flips, flips, ih, entries_cons, actLog_cons, Bool.xor_assoc]

/-- What is not flagged does not count. -/
theorem flips_eq_false (h : ∀ b ∈ L, b.1.target = q → b.2 = false) (s : Bits) : flips L s q = false := by
  induction L generalizing s with
  | nil => rfl
  | cons b L ih =>
    have hb : (b.2 && decide (b.1.target = q)) = false := by
      by_cases hq : b.1.target = q
      · rw [h b List.mem_cons_self hq, Bool.false_and]
      · rw [decide_eq_false hq, Bool.and_false]
    rw [flips, ih (fun c hc => h c (List.mem_cons_of_mem b hc)), hb]
    rfl

/-- The flags on the qubits of `M` and those on other qubits make up all flags. -/
theorem flips_split (M : Qubit → Bool) (L : FlaggedLog) (s : Bits) (q : Qubit) :
    flips L s q = (flips (only M L) s q ^^ flips (only (fun p => !M p) L) s q) := by
  induction L generalizing s with
  | nil => rfl
  | cons b L ih =>
    obtain ⟨e, flag⟩ := b
    have hhead : ∀ M', only M' ((e, flag) :: L) = (e, flag && M' e.target) :: only M' L := fun _ => rfl
    rw [hhead, hhead, flips, flips, flips, ih]
    cases flag <;> cases M e.target <;> simp [Bool.xor_left_comm]

/-- A qubit on which all operations are flagged is changed by what these add to it. -/
theorem actLog_eq_flips (hL : ∀ e ∈ entries L, e.Reversible) (hq : ∀ b ∈ L, b.1.target = q → b.2 = true) (s : Bits) :
    actLog (entries L) s q = (s q ^^ flips L s q) := by
  induction L generalizing s with
  | nil => simp [flips]
  | cons b L ih =>
    obtain ⟨e, flag⟩ := b
    have he : e.Reversible := hL e List.mem_cons_self
    rw [entries_cons, actLog_cons, ih (fun f hf => hL f (List.mem_cons_of_mem e hf))
      (fun c hc => hq c (List.mem_cons_of_mem _ hc)), flips, ← Bool.xor_assoc]
    by_cases hqe : e.target = q
    · subst hqe
      obtain rfl : flag = true := hq _ List.mem_cons_self rfl
      simp [he.act_eq]
    · simp [he.act_eq, Function.update_of_ne (Ne.symm hqe), hqe]

/-- It is enough to look at the qubits that the flagged operations depend on. -/
theorem Undoable.controls (h : L.Undoable) (hL : ∀ e ∈ entries L, e.Reversible) :
    L.Pairwise fun b c => b.2 = true → c.1.target ∈ b.1.controls → c.2 = true :=
  List.Pairwise.imp_of_mem (fun {b _} hb _ hbc hflag hc => hbc hflag ((hL b.1 (mem_entries hb)).mem_reads_of_controls hc)) h

/-- Making the flagged operations once more, the newest first, takes from every qubit what they have added to it. -/
theorem actLog_undo (hL : ∀ e ∈ entries L, e.Reversible)
    (h : L.Pairwise fun b c => b.2 = true → c.1.target ∈ b.1.controls → c.2 = true) (s : Bits) (p : Qubit) :
    actLog (flagged L).reverse (actLog (entries L) s) p = (actLog (entries L) s p ^^ flips L s p) := by
  induction L generalizing s p with
  | nil => simp [flagged, flips]
  | cons b L ih =>
    obtain ⟨e, flag⟩ := b
    obtain ⟨hlater, hrest⟩ := List.pairwise_cons.1 h
    have he : e.Reversible := hL e List.mem_cons_self
    have hL' : ∀ f ∈ entries L, f.Reversible := fun f hf => hL f (List.mem_cons_of_mem e hf)
    have hrec := ih hL' hrest (actGates .idle e.gates s)
    rw [entries_cons, actLog_cons, flips]
    cases flag with
    | false =>
      rw [flagged_cons_false, hrec]
      simp
    | true =>
      rw [flagged_cons_true, List.reverse_cons, actLog_append, actLog_singleton, he.act_eq]
      -- what the operation depends on is as it was when the operation was made: all that changed it since has been undone
      have hreads : ∀ r ∈ e.controls, actLog (flagged L).reverse (actLog (entries L) (actGates .idle e.gates s)) r = s r := by
        intro r hr
        have hall : ∀ c ∈ L, c.1.target = r → c.2 = true := fun c hc hcr => hlater c hc rfl (hcr ▸ hr)
        rw [hrec r, actLog_eq_flips hL' hall, Bool.xor_assoc, Bool.xor_self, Bool.xor_false, he.act_eq,
          Function.update_of_ne (LogEntry.mem_reads.1 (he.mem_reads_of_controls hr)).2]
      rw [he.fires_congr hreads]
      by_cases hp : e.target = p
      · subst hp
        rw [Function.update_self, hrec]
        simp [Bool.xor_comm]
      · rw [Function.update_of_ne (Ne.symm hp), hrec]
        simp [hp]

end FlaggedLog

/-! ## Rewinding qubits -/

/-- The log can be rewound on the qubits of `M`: what an operation on one of them reads outside of `M` is not changed by a later
operation. -/
def Rewindable (M : Qubit → Bool) (E : List LogEntry) : Prop :=
  E.Pairwise fun e f => M e.target = true → ∀ r ∈ e.reads, M r = false → f.target ≠ r

/-- No operation of the log changes a qubit that an earlier one has read. -/
def Orderly (E : List LogEntry) : Prop := E.Pairwise fun e f => f.target ∉ e.reads

/-- An orderly log can be rewound on any qubits. -/
theorem Orderly.rewindable {E : List LogEntry} (h : Orderly E) (M : Qubit → Bool) : Rewindable M E := by
  refine List.Pairwise.imp ?_ h
  intro e f hef _ r hr _ he
  exact hef (he ▸ hr)

/-- Rewinding puts the qubits of `M` back to where they were before the log, and leaves all others as the log left them, if what
the operations on `M` depend on outside of `M` is not changed later. -/
theorem actLog_rewind_of_controls {M : Qubit → Bool} {E : List LogEntry} (hE : ∀ e ∈ E, e.Reversible)
    (h : E.Pairwise fun e f => M e.target = true → M f.target = false → f.target ∉ e.controls) (s : Bits) (p : Qubit) :
    actLog (E.filter fun e => M e.target).reverse (actLog E s) p = if M p then s p else actLog E s p := by
  -- the operations on the qubits of `M` are flagged
  obtain ⟨L, hL⟩ : ∃ L : FlaggedLog, L = E.map fun e => (e, M e.target) := ⟨_, rfl⟩
  have hmem : ∀ b ∈ L, b.2 = M b.1.target := by simp [hL]
  have hentries : L.entries = E := by simp [hL, FlaggedLog.entries, Function.comp_def]
  have hflagged : L.flagged = E.filter fun e => M e.target := by
    simp [hL, FlaggedLog.flagged, List.filter_map, Function.comp_def]
  have hundo : L.Pairwise fun b c => b.2 = true → c.1.target ∈ b.1.controls → c.2 = true := by
    rw [hL, List.pairwise_map]
    refine h.imp fun {e f} hef he hf => ?_
    by_contra hMf
    exact hef he (by simpa using hMf) hf
  rw [← hentries] at hE
  rw [← hflagged, ← hentries, FlaggedLog.actLog_undo hE hundo]
  by_cases hp : M p = true
  · rw [if_pos hp, FlaggedLog.actLog_eq_flips hE fun b hb hbp => by rw [hmem b hb, hbp, hp]]
    simp
  · rw [if_neg hp, FlaggedLog.flips_eq_false fun b hb hbp => by rw [hmem b hb, hbp]; simpa using hp]
    simp

/-- A log that can be rewound on the qubits of `M` is, and all other qubits stay as they are. -/
theorem actLog_rewind {M : Qubit → Bool} {E : List LogEntry} (hE : ∀ e ∈ E, e.Reversible) (h : Rewindable M E)
    (s : Bits) (p : Qubit) :
    actLog (E.filter fun e => M e.target).reverse (actLog E s) p = if M p then s p else actLog E s p :=
  actLog_rewind_of_controls hE
    (List.Pairwise.imp_of_mem (fun he _ hef hMe hMf hf => hef hMe _ ((hE _ he).mem_reads_of_controls hf) hMf rfl) h) s p

end ReversibleLogic
