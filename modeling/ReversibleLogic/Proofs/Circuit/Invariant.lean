import ReversibleLogic.Proofs.Cancel
import ReversibleLogic.Proofs.Circuit.Pool
import ReversibleLogic.Proofs.Relabel

/-!
# What holds of every circuit that calls can build

`Circuit.Built` are the circuits that any calls lead to, from a circuit without gates, with refused calls among them. Whatever the
calls were, the scratch qubits, the names and the logs of the circuit fit together (`Circuit.Consistent`): every call keeps this,
and most calls only add operations to the gates and the history (`Circuit.Consistent.grow`).

The logs tell what the gates do: gates and history act alike, although barriers are in the gates only and cancelling drops gates
and no operations (`Circuit.built_representation`).
-/

namespace ReversibleLogic

/-- The gates that a call hands over. -/
def Command.gates : Command → List Gate
  | .append g | .appendConjugated _ g => [g]
  | _ => []

/-- The circuits that calls lead to, refused calls included, where the kinds of all gates that are handed over satisfy `P`. -/
inductive Circuit.Built (P : GateKind → Prop) : Circuit → Prop where
  | new (name : String) : Built P (.new name)
  | ofSize (name : String) (n : Nat) : Built P (.ofSize name n)
  | call {c : Circuit} (call : Command) : Built P c → (∀ g ∈ call.gates, P g.kind) → Built P (call.after c)
  | appendBarrier {c : Circuit} (qubits : List Qubit) : Built P c → Built P (c.appendBarrier qubits).1
  | appendCircuit {c other : Circuit} (mapping : List Qubit) :
    Built P c → Built P other → Built P (c.appendCircuit other mapping).1
  | uncomputeAll {c : Circuit} (keep : List Qubit) : Built P c → Built P (c.uncomputeAll keep).1
  | removeIdentities {c : Circuit} : Built P c → Built P c.removeIdentities.1
  | emptyLike {c : Circuit} : Built P c → Built P c.emptyLike
  | withGates {c c' : Circuit} {gates : List Gate} :
    Built P c → (∀ g ∈ gates, P g.kind) → c.withGates gates = .ok c' → Built P c'

/-- The operations that a log can have: those that undo themselves, and black boxes. -/
inductive LogEntry.Legal : LogEntry → Prop where
  | reversible {e : LogEntry} (h : e.Reversible) : Legal e
  | boxed {g : Gate} {t : Qubit} (h : g.kind.isBlackBox = true) : Legal ⟨[g], t⟩

/-- The gate fits a register of `n` qubits, and its kind satisfies `P` if it is a black box. -/
structure Gate.Admitted (P : GateKind → Prop) (n : Nat) (g : Gate) : Prop where
  fits : g.Fits n
  boxes : g.kind.isBlackBox = true → P g.kind

theorem Gate.Admitted.mono {P : GateKind → Prop} {n m : Nat} {g : Gate} (h : g.Admitted P n) (hnm : n ≤ m) : g.Admitted P m :=
  ⟨h.fits.mono hnm, h.boxes⟩

namespace LogEntry

variable {e : LogEntry}

/-- Backwards every operation of a log is the same. -/
theorem Legal.reverse_eq (h : e.Legal) : e.reverse = e := by
  cases h with
  | reversible h => exact h.reverse_eq
  | boxed h => rfl

/-- An operation of a log without black boxes undoes itself. -/
theorem Legal.reversible_of (h : e.Legal) (hbox : ∀ g ∈ e.gates, g.kind.isBlackBox = false) : e.Reversible := by
  cases h with
  | reversible h => exact h
  | @boxed g t h => simp [hbox g (by simp)] at h

/-- A gate that is appended, and is no barrier, makes an operation. -/
theorem legal_of_gate {n : Nat} {g : Gate} {t : Qubit} (hfit : g.Fits n) (hb : g.kind.isBarrier = false)
    (ht : g.target? = some t) : Legal ⟨[g], t⟩ := by
  cases hc : g.kind.isClassical with
  | true =>
    obtain ⟨t', ht'⟩ := hfit.toggles hc
    obtain rfl : t' = t := Option.some.inj (ht'.target.symm.trans ht)
    exact .reversible (.plain ht')
  | false =>
    refine .boxed ?_
    cases hk : g.kind <;> simp [hk, GateKind.isBarrier, GateKind.isClassical] at hb hc
    rfl

/-- Made twice, an operation that undoes itself does nothing. -/
theorem Reversible.act_act (h : e.Reversible) (s : Bits) :
    actGates .idle e.gates (actGates .idle e.gates s) = s := by
  have hfires : e.fires (Function.update s e.target (s e.target ^^ e.fires s)) = e.fires s :=
    h.fires_congr fun r hr => Function.update_of_ne (mem_reads.1 (h.mem_reads_of_controls hr)).2 _ _
  rw [h.act_eq, h.act_eq, hfires, Function.update_self, Function.update_idem, Bool.xor_assoc, Bool.xor_self, Bool.xor_false,
    Function.update_eq_self]

end LogEntry

namespace Circuit

variable {P : GateKind → Prop} {c c' other : Circuit}

/-- The parts of the circuit fit together. -/
structure Consistent (P : GateKind → Prop) (c : Circuit) : Prop where
  /-- Free and marked qubits are scratch qubits. -/
  ancilla : ∀ q, q ∈ c.free ∨ q ∈ c.marked → q ∈ c.ancillas
  /-- The register has the scratch qubits and the qubits with a name. -/
  lt : ∀ q, q ∈ c.ancillas ∨ q ∈ c.bound → q < c.numQubits
  /-- What a name refers to is known to have a name. -/
  named : ∀ name q, c.qubit? name = some q → q ∈ c.bound
  gates : ∀ g ∈ c.gates, g.Admitted P c.numQubits
  entries : ∀ e ∈ c.history, e.Legal ∧ ∀ g ∈ e.gates, g.Admitted P c.numQubits
  computed : c.computed.Sublist c.history
  /-- The gates do what the operations of the history do. -/
  action : ∀ (box : Reading) (s : Bits), actGates box c.gates s = actGates box (c.history.flatMap LogEntry.gates) s

namespace Consistent

theorem entries_of_computed (h : c.Consistent P) {e : LogEntry} (he : e ∈ c.computed) : e ∈ c.history :=
  h.computed.subset he

theorem reverse_eq (h : c.Consistent P) : ∀ e ∈ c.history, e.reverse = e := fun e he => (h.entries e he).1.reverse_eq

/-! ## One call -/

/-- A circuit without gates and operations. -/
theorem bare (hgates : c.gates = []) (hhistory : c.history = []) (hcomputed : c.computed = [])
    (hancilla : ∀ q, q ∈ c.free ∨ q ∈ c.marked → q ∈ c.ancillas) (hlt : ∀ q, q ∈ c.ancillas ∨ q ∈ c.bound → q < c.numQubits)
    (hnamed : ∀ name q, c.qubit? name = some q → q ∈ c.bound) : c.Consistent P where
  ancilla := hancilla
  lt := hlt
  named := hnamed
  gates := by simp [hgates]
  entries := by simp [hhistory]
  computed := by simp [hcomputed]
  action := by simp [hgates, hhistory]

/-- A circuit that has the gates and the operations of a consistent one, and further operations after them. -/
theorem grow (h : c.Consistent P) (l : List LogEntry) (hgates : c'.gates = c.gates ++ l.flatMap LogEntry.gates)
    (hhistory : c'.history = c.history ++ l) (hcomputed : c'.computed.Sublist c'.history) (hnum : c.numQubits ≤ c'.numQubits)
    (hl : ∀ e ∈ l, e.Legal ∧ ∀ g ∈ e.gates, g.Admitted P c.numQubits)
    (hancilla : ∀ q, q ∈ c'.free ∨ q ∈ c'.marked → q ∈ c'.ancillas)
    (hlt : ∀ q, q ∈ c'.ancillas ∨ q ∈ c'.bound → q < c'.numQubits)
    (hnamed : ∀ name q, c'.qubit? name = some q → q ∈ c'.bound) : c'.Consistent P where
  ancilla := hancilla
  lt := hlt
  named := hnamed
  gates g hg := by
    rw [hgates] at hg
    rcases List.mem_append.1 hg with hg | hg
    · exact (h.gates g hg).mono hnum
    · obtain ⟨e, he, hge⟩ := List.mem_flatMap.1 hg
      exact ((hl e he).2 g hge).mono hnum
  entries e he := by
    rw [hhistory] at he
    obtain ⟨hlegal, hfit⟩ := (List.mem_append.1 he).elim (h.entries e) (hl e)
    exact ⟨hlegal, fun g hg => (hfit g hg).mono hnum⟩
  computed := hcomputed
  action box s := by
    rw [hgates, hhistory, List.flatMap_append, actGates_append, actGates_append, h.action]

/-- A call that changes the register, the names or the marks only. -/
theorem register (h : c.Consistent P) (hsame : c'.gates = c.gates ∧ c'.history = c.history ∧ c'.computed = c.computed)
    (hnum : c.numQubits ≤ c'.numQubits) (hancilla : ∀ q, q ∈ c'.free ∨ q ∈ c'.marked → q ∈ c'.ancillas)
    (hlt : ∀ q, q ∈ c'.ancillas ∨ q ∈ c'.bound → q < c'.numQubits)
    (hnamed : ∀ name q, c'.qubit? name = some q → q ∈ c'.bound) : c'.Consistent P := by
  obtain ⟨hgates, hhistory, hcomputed⟩ := hsame
  refine h.grow [] (by simp [hgates]) (by simp [hhistory]) ?_ hnum (by simp) hancilla hlt hnamed
  rw [hcomputed, hhistory]
  exact h.computed

/-- A call that appends an operation. -/
theorem record (h : c.Consistent P) {e : LogEntry} (he : e.Legal) (hfit : ∀ g ∈ e.gates, g.Admitted P c.numQubits) :
    (c.record e).Consistent P := by
  refine h.grow [e] (by simp [Circuit.record]) rfl (h.computed.append (List.Sublist.refl [e])) (Nat.le_refl _) ?_ h.ancilla h.lt
    h.named
  intro f hf
  obtain rfl := List.mem_singleton.1 hf
  exact ⟨he, hfit⟩

/-- A call that makes operations of the history once more, and strikes operations off the list of those to undo. -/
theorem replay (h : c.Consistent P) {l : List LogEntry} (hl : ∀ e ∈ l, e ∈ c.history) (p : LogEntry → Bool)
    {free marked : QubitSet} (hancilla : ∀ q, q ∈ free ∨ q ∈ marked → q ∈ c.ancillas) :
    { c with gates := c.gates ++ l.flatMap LogEntry.gates, history := c.history ++ l
             computed := c.computed.filter p, free, marked }.Consistent P := by
  refine h.grow l rfl rfl ?_ (Nat.le_refl _) (fun e he => h.entries e (hl e he)) hancilla h.lt h.named
  exact (List.filter_sublist.trans h.computed).trans (List.sublist_append_left c.history l)

/-- A new name refers to a qubit that is noted to have a name. -/
theorem named_insert (h : c.Consistent P) (name : Symbol) (q : Qubit) {other : Symbol} {r : Qubit}
    (hr : (c.names.insert name q).get? other = some r) : r ∈ c.bound.insert q := by
  by_cases hname : other = name
  · subst hname
    rw [NameMap.get?_insert_self] at hr
    exact QubitSet.mem_insert.2 (Or.inl (Option.some.inj hr).symm)
  · rw [NameMap.get?_insert_of_ne _ hname] at hr
    exact QubitSet.mem_insert.2 (Or.inr (h.named other r hr))

/-- A qubit is added at the end, with a name or without. -/
theorem addQubit (h : c.Consistent P) (name : Option Symbol) : (c.addQubit name).1.Consistent P := by
  have hnum := c.numQubits_addQubit name
  have hle : c.numQubits ≤ (c.addQubit name).1.numQubits := by omega
  have hlt : ∀ q, q ∈ c.ancillas ∨ q ∈ c.bound → q < (c.addQubit name).1.numQubits := fun q hq =>
    Nat.lt_of_lt_of_le (h.lt q hq) hle
  cases name with
  | none => exact h.register ⟨rfl, rfl, rfl⟩ hle h.ancilla hlt h.named
  | some name =>
    refine h.register ⟨rfl, rfl, rfl⟩ hle h.ancilla (fun q hq => ?_) fun _ _ => h.named_insert name c.numQubits
    rcases hq with hq | hq
    · exact hlt q (Or.inl hq)
    · rcases QubitSet.mem_insert.1 hq with rfl | hq
      · exact hnum ▸ Nat.lt_succ_self _
      · exact hlt q (Or.inr hq)

/-- A scratch qubit is added at the end. -/
theorem addAncilla (h : c.Consistent P) (isFree : Bool) : (c.addAncilla isFree).1.Consistent P := by
  have hnum : (c.addAncilla isFree).1.numQubits = c.numQubits + 1 := by simp [Circuit.addAncilla, numQubits]
  have hle : c.numQubits ≤ (c.addAncilla isFree).1.numQubits := by omega
  refine h.register ⟨rfl, rfl, rfl⟩ hle (fun q hq => QubitSet.mem_insert.2 ?_) (fun q hq => ?_) h.named
  · cases isFree with
    | false => exact Or.inr (h.ancilla q hq)
    | true =>
      rcases hq with hq | hq
      · exact (QubitSet.mem_insert.1 hq).imp_right fun hq => h.ancilla q (Or.inl hq)
      · exact Or.inr (h.ancilla q (Or.inr hq))
  · rcases hq with hq | hq
    · rcases QubitSet.mem_insert.1 hq with rfl | hq
      · exact hnum ▸ Nat.lt_succ_self _
      · exact Nat.lt_of_lt_of_le (h.lt q (Or.inl hq)) hle
    · exact Nat.lt_of_lt_of_le (h.lt q (Or.inr hq)) hle

/-- A free qubit is taken, or one is added. -/
theorem takeAncilla (h : c.Consistent P) : c.takeAncilla.1.Consistent P := by
  unfold Circuit.takeAncilla
  cases hpop : c.free.popMin? with
  | none => exact h.addAncilla false
  | some r =>
    obtain ⟨-, hrest⟩ := QubitSet.popMin?_eq_some hpop
    refine h.register ⟨rfl, rfl, rfl⟩ (Nat.le_refl _) (fun q hq => h.ancilla q ?_) h.lt h.named
    exact hq.imp_left fun hq => ((hrest q).1 hq).1

/-- A qubit that gets a name is in the register, or the name is refused. -/
theorem mapQubit (h : c.Consistent P) (name : Symbol) (q : Qubit) (promote : Bool) :
    (c.mapQubit name q promote).1.Consistent P := by
  rcases hmap : c.mapQubit name q promote with ⟨c', _ | _⟩
  · exact mapQubit_eq_error hmap ▸ h
  obtain ⟨⟨hgates, hhistory, hcomputed, hnum⟩, hsets⟩ := mapQubit_eq_ok hmap
  obtain ⟨hq, hnames, hbound⟩ := mapQubit_names hmap
  have hancillas : ∀ p ∈ c'.ancillas, p ∈ c.ancillas := fun p hp => by
    rcases hsets with ⟨ha, -⟩ | ⟨ha, -⟩
    · exact ha ▸ hp
    · exact (QubitSet.mem_erase.1 (ha ▸ hp)).1
  refine h.register ⟨hgates, hhistory, hcomputed⟩ (Nat.le_of_eq hnum.symm) (fun p hp => ?_) (fun p hp => hnum ▸ ?_)
    fun other r hr => ?_
  · rcases hsets with ⟨ha, hf, hm⟩ | ⟨ha, hf, hm⟩
    · rw [hf, hm] at hp
      exact ha ▸ h.ancilla p hp
    · rw [hf, hm, QubitSet.mem_erase, QubitSet.mem_erase, ← or_and_right] at hp
      exact ha ▸ QubitSet.mem_erase.2 ⟨h.ancilla p hp.1, hp.2⟩
  · rcases hp with hp | hp
    · exact h.lt p (Or.inl (hancillas p hp))
    · rw [hbound] at hp
      rcases QubitSet.mem_insert.1 hp with rfl | hp
      · exact hq
      · exact h.lt p (Or.inr hp)
  · rw [qubit?, hnames] at hr
    exact hbound ▸ h.named_insert name q hr

/-- A mark changes neither gates nor names. -/
theorem markAncilla (h : c.Consistent P) (q : Qubit) : (c.markAncilla q).1.Consistent P := by
  obtain ⟨m, hmark, hm⟩ := c.markAncilla_eq q
  rw [hmark]
  refine h.register ⟨rfl, rfl, rfl⟩ (Nat.le_refl _) (fun p hp => ?_) h.lt h.named
  rcases hp with hp | hp
  · exact h.ancilla p (Or.inl hp)
  · exact ((hm p).1 hp).elim (fun hp => h.ancilla p (Or.inr hp)) And.right

/-- Nor does taking one back. -/
theorem unmarkAncilla (h : c.Consistent P) (q : Qubit) : (c.unmarkAncilla q).1.Consistent P :=
  h.register ⟨rfl, rfl, rfl⟩ (Nat.le_refl _)
    (fun p hp => h.ancilla p (hp.imp_right fun hp => (QubitSet.mem_erase.1 hp).1)) h.lt h.named

/-- A gate that is accepted is a valid operation, except for a barrier, which does nothing. -/
theorem append (h : c.Consistent P) {g : Gate} (hP : g.kind.isBlackBox = true → P g.kind) : (c.append g).1.Consistent P := by
  rcases happ : c.append g with ⟨c', _ | _⟩
  · exact (append_eq_error happ).1 ▸ h
  obtain ⟨hfit, ⟨hb, rfl⟩ | ⟨hb, t, ht, rfl⟩⟩ := append_cases happ
  · refine ⟨h.ancilla, h.lt, h.named, fun k hk => ?_, h.entries, h.computed, fun box s => ?_⟩
    · rcases List.mem_append.1 hk with hk | hk
      · exact h.gates k hk
      · obtain rfl := List.mem_singleton.1 hk
        exact ⟨hfit, hP⟩
    · rw [actGates_append, h.action]
      exact Gate.act_of_isBarrier hb _
  · exact h.record (LogEntry.legal_of_gate hfit hb ht) (by simpa using ⟨hfit, hP⟩)

/-- A gate between two flips that is accepted is an operation that undoes itself. -/
theorem appendConjugated (h : c.Consistent P) (flip : Qubit) (g : Gate) : (c.appendConjugated flip g).1.Consistent P := by
  rcases happ : c.appendConjugated flip g with ⟨c', _ | _⟩
  · exact (appendConjugated_eq_error happ).1 ▸ h
  obtain ⟨hfit, hflip, t, ht, hne, rfl⟩ := appendConjugated_eq_ok happ
  have hbox : ∀ {k : Gate}, k.kind.isClassical = true → k.kind.isBlackBox = true → P k.kind := fun hc hb => by
    rw [GateKind.isBlackBox_of_isClassical hc] at hb
    cases hb
  refine h.record (.reversible (.conjugated ht hne)) fun k hk => ?_
  have hk : k = .x flip ∨ k = g ∨ k = .x flip := by simpa using hk
  rcases hk with rfl | rfl | rfl
  · exact ⟨hflip, hbox rfl⟩
  · exact ⟨hfit, hbox ht.classical⟩
  · exact ⟨hflip, hbox rfl⟩

/-- Gates are appended one after another, as long as they are accepted. -/
theorem appendAll {gs : List Gate} : ∀ {c : Circuit}, c.Consistent P → (∀ g ∈ gs, g.kind.isBlackBox = true → P g.kind) →
    c.appendAll gs = .ok c' → c'.Consistent P := by
  induction gs with
  | nil =>
    intro c h _ happ
    exact Except.ok.inj happ ▸ h
  | cons g gs ih =>
    intro c h hP happ
    obtain ⟨c₁, hg, hgs⟩ := appendAll_cons_eq_ok.1 happ
    have hc₁ := h.append (hP g List.mem_cons_self)
    rw [hg] at hc₁
    exact ih hc₁ (fun k hk => hP k (List.mem_cons_of_mem g hk)) hgs

/-- The gates of another circuit are appended up to the first one that is refused. -/
theorem appendMapped (mapping : List Qubit) {gs : List Gate} : ∀ {c : Circuit}, c.Consistent P →
    (∀ g ∈ gs, g.kind.isBlackBox = true → P g.kind) → (c.appendMapped mapping gs).1.Consistent P := by
  induction gs with
  | nil => exact fun h _ => h
  | cons g gs ih =>
    intro c h hP
    unfold Circuit.appendMapped
    split
    · exact h
    · next qubits _ =>
      have hc₁ := h.append (g := { g with qubits }) (hP g List.mem_cons_self)
      split
      · next happ => exact happ ▸ hc₁
      · next happ =>
        rw [happ] at hc₁
        exact ih hc₁ fun k hk => hP k (List.mem_cons_of_mem g hk)

/-- The other circuit's gates are appended on other qubits, as they fit there. -/
theorem appendCircuit (h : c.Consistent P) (hother : other.Consistent P) (mapping : List Qubit) :
    (c.appendCircuit other mapping).1.Consistent P := by
  unfold Circuit.appendCircuit
  split
  · exact h
  · exact h.appendMapped mapping fun g hg => (hother.gates g hg).boxes

/-- Operations are made once more, and those are in the history already. -/
theorem uncompute (h : c.Consistent P) (extra : List Qubit) : (c.uncompute extra).1.Consistent P := by
  obtain ⟨m, heq, hm⟩ := uncompute_eq (fun e he => h.reverse_eq e (h.entries_of_computed he)) extra
  rw [heq]
  refine h.replay (fun e he => ?_) _ fun q hq => ?_
  · exact h.entries_of_computed (List.mem_filter.1 (List.mem_reverse.1 he)).1
  · rcases hq with hq | hq
    · rcases QubitSet.mem_union.1 hq with hq | hq
      · exact h.ancilla q (Or.inl hq)
      · exact ((hm q).1 hq).elim (fun hq => h.ancilla q (Or.inr hq)) And.right
    · exact absurd hq (QubitSet.not_mem_empty q)

/-- So are all that have been made. -/
theorem uncomputeAll (h : c.Consistent P) (keep : List Qubit) : (c.uncomputeAll keep).1.Consistent P := by
  rw [uncomputeAll_eq h.reverse_eq]
  refine h.replay (fun e => mem_rewinding) _ fun q hq => ?_
  rcases hq with hq | hq
  · rcases QubitSet.mem_union.1 hq with hq | hq
    · exact h.ancilla q (Or.inl hq)
    · exact (QubitSet.mem_filter.1 hq).1
  · exact absurd hq (QubitSet.not_mem_empty q)

/-- Gates that cancel are taken out, and nothing else changes. -/
theorem removeIdentities (h : c.Consistent P) : c.removeIdentities.1.Consistent P where
  ancilla := h.ancilla
  lt := h.lt
  named := h.named
  gates g hg := h.gates g (mem_cancelPairs hg)
  entries := h.entries
  computed := h.computed
  action box s := (actGates_cancelPairs (fun g hg => (h.gates g hg).fits) s).trans (h.action box s)

/-- The register is kept, without gates. -/
theorem emptyLike (h : c.Consistent P) : c.emptyLike.Consistent P :=
  bare rfl rfl rfl (by simp [Circuit.emptyLike]) h.lt h.named

/-- Every call keeps the parts together. -/
theorem after (h : c.Consistent P) (call : Command) (hP : ∀ g ∈ call.gates, P g.kind) : (call.after c).Consistent P := by
  cases call with
  | addQubit name => exact h.addQubit name
  | addAncilla isFree => exact h.addAncilla isFree
  | takeAncilla => exact h.takeAncilla
  | mapQubit name q promote => exact h.mapQubit name q promote
  | mark q => exact h.markAncilla q
  | unmark q => exact h.unmarkAncilla q
  | append g => exact h.append fun _ => hP g List.mem_cons_self
  | appendConjugated flip g => exact h.appendConjugated flip g
  | uncompute extra => exact h.uncompute extra

end Consistent

/-! ## All calls -/

/-- Whatever calls a circuit is built by, its parts fit together. -/
theorem Built.consistent (h : c.Built P) : c.Consistent P := by
  induction h with
  | new name => exact .bare rfl rfl rfl (by simp [Circuit.new]) (by simp [Circuit.new]) (by simp [Circuit.new, qubit?])
  | ofSize name n =>
    exact .bare rfl rfl rfl (by simp [Circuit.ofSize]) (by simp [Circuit.ofSize]) (by simp [Circuit.ofSize, qubit?])
  | call call _ hP ih => exact ih.after call hP
  | appendBarrier qubits _ ih => exact ih.append (by simp [GateKind.isBlackBox])
  | appendCircuit mapping _ _ ih ihother => exact ih.appendCircuit ihother mapping
  | uncomputeAll keep _ ih => exact ih.uncomputeAll keep
  | removeIdentities _ ih => exact ih.removeIdentities
  | emptyLike _ ih => exact ih.emptyLike
  | withGates _ hP happ ih => exact ih.emptyLike.appendAll (fun g hg _ => hP g hg) happ

/-- Calls lead from a circuit that is built to another one. -/
theorem Built.calls {l : List Command} (h : c.Built P) (hl : ∀ call ∈ l, ∀ g ∈ call.gates, P g.kind) :
    (l.foldl Command.after c).Built P := by
  induction l generalizing c with
  | nil => exact h
  | cons call l ih =>
    exact ih (h.call call (hl call List.mem_cons_self)) fun call' hcall' => hl call' (List.mem_cons_of_mem call hcall')

namespace Consistent

/-- An operation of the history without black boxes changes its target at most, and is undone by being made backwards. -/
theorem undone (h : c.Consistent P) {e : LogEntry} (he : e ∈ c.history) (hc : ∀ g ∈ e.gates, g.kind.isClassical = true)
    {s : Register} (hs : s.size = c.numQubits) :
    ∃ t, runGates e.gates s = .ok t ∧ (∀ q, q ≠ e.target → t[q]? = s[q]?) ∧ runGates e.reverse.gates t = .ok s := by
  obtain ⟨hlegal, hfit⟩ := h.entries e he
  have hbox : ∀ g ∈ e.gates, g.kind.isBlackBox = false := fun g hg => GateKind.isBlackBox_of_isClassical (hc g hg)
  have hrev := hlegal.reversible_of hbox
  obtain ⟨t, ht, hsize, hbits⟩ := runGates_eq (s := s) (fun g hg => hs ▸ (hfit g hg).fits) hbox
  obtain ⟨u, hu, husize, hubits⟩ := runGates_eq (s := t) (fun g hg => hsize ▸ hs ▸ (hfit g hg).fits) hbox
  refine ⟨t, ht, fun q hq => Register.getElem?_congr hsize ?_, ?_⟩
  · rw [hbits, hrev.act_eq, Function.update_of_ne hq]
  · have hback : u = s := Register.eq_of_bits (husize.trans hsize) (by rw [hubits, hbits, hrev.act_act])
    rw [hrev.reverse_eq, hu, hback]

/-- The gates and the operations of the history lead from every register to the same one, under every reading of black boxes. -/
theorem runGatesWith_history (h : c.Consistent P) (box : Reading) {s : Register} (hs : s.size = c.numQubits) :
    ∃ t, runGatesWith box c.gates s = .ok t ∧ runGatesWith box (c.history.flatMap LogEntry.gates) s = .ok t := by
  obtain ⟨t, ht, hsize, hbits⟩ := runGatesWith_eq box (s := s) fun g hg => hs ▸ (h.gates g hg).fits
  have hlog : ∀ g ∈ c.history.flatMap LogEntry.gates, g.Fits s.size := fun g hg => by
    obtain ⟨e, he, hge⟩ := List.mem_flatMap.1 hg
    exact hs ▸ ((h.entries e he).2 g hge).fits
  obtain ⟨u, hu, husize, hubits⟩ := runGatesWith_eq box hlog
  have hsame : u = t := Register.eq_of_bits (husize.trans hsize.symm) (by rw [hubits, hbits, h.action])
  exact ⟨t, ht, hsame ▸ hu⟩

/-- If no black box has been handed over, the circuit has none. -/
theorem isBlackBox_eq_false (h : c.Consistent P) (hP : ∀ k, P k → k.isBlackBox = false) {g : Gate}
    (hg : g ∈ c.gates ∨ g ∈ c.history.flatMap LogEntry.gates) : g.kind.isBlackBox = false := by
  have hadmitted : g.Admitted P c.numQubits := by
    rcases hg with hg | hg
    · exact h.gates g hg
    · obtain ⟨e, he, hge⟩ := List.mem_flatMap.1 hg
      exact (h.entries e he).2 g hge
  by_contra hb
  have hb : g.kind.isBlackBox = true := by simpa using hb
  rw [hP _ (hadmitted.boxes hb)] at hb
  cases hb

end Consistent

/-- The representation of circuits. Whatever calls have built a circuit, refused calls included: free and marked qubits are
scratch qubits; scratch qubits and qubits with a name are in the register; what a name refers to is noted to have a name; all
gates of the circuit and of both logs are valid; the operations to be undone are some of the history, in its order; an operation
without black boxes changes no qubit but its target, from any values, and is undone by its reversal; and the gates do what the
operations of the history do, whatever black boxes do, and in particular if no black box has been handed over. -/
theorem built_representation (h : c.Built P) :
    (∀ q, q ∈ c.free ∨ q ∈ c.marked → q ∈ c.ancillas) ∧
    (∀ q, q ∈ c.ancillas ∨ q ∈ c.bound → q < c.numQubits) ∧
    (∀ name q, c.qubit? name = some q → q ∈ c.bound) ∧
    (∀ g, (g ∈ c.gates ∨ ∃ e, (e ∈ c.history ∨ e ∈ c.computed) ∧ g ∈ e.gates) → c.validate g = .ok ()) ∧
    c.computed.Sublist c.history ∧
    (∀ e, e ∈ c.history ∨ e ∈ c.computed → (∀ g ∈ e.gates, g.kind.isClassical = true) → ∀ s : Register,
      s.size = c.numQubits →
        ∃ t, runGates e.gates s = .ok t ∧ (∀ q, q ≠ e.target → t[q]? = s[q]?) ∧ runGates e.reverse.gates t = .ok s) ∧
    (∀ (box : Reading) (s : Register), s.size = c.numQubits →
      ∃ t, runGatesWith box c.gates s = .ok t ∧ runGatesWith box (c.history.flatMap LogEntry.gates) s = .ok t) ∧
    ((∀ k, P k → k.isBlackBox = false) → ∀ s : Register, s.size = c.numQubits →
      ∃ t, runGates c.gates s = .ok t ∧ runGates (c.history.flatMap LogEntry.gates) s = .ok t) := by
  have hc := h.consistent
  have hlogged : ∀ e, e ∈ c.history ∨ e ∈ c.computed → e ∈ c.history := fun e he => he.elim id hc.entries_of_computed
  refine ⟨hc.ancilla, hc.lt, hc.named, fun g hg => validate_eq_ok_iff.2 ?_, hc.computed,
    fun e he hclassical s hs => hc.undone (hlogged e he) hclassical hs, fun box s hs => hc.runGatesWith_history box hs,
    fun hP s hs => ?_⟩
  · rcases hg with hg | ⟨e, he, hg⟩
    · exact (hc.gates g hg).fits
    · exact ((hc.entries e (hlogged e he)).2 g hg).fits
  · rw [← runGatesWith_of_no_blackBox .idle fun g hg => hc.isBlackBox_eq_false hP (Or.inl hg),
      ← runGatesWith_of_no_blackBox .idle fun g hg => hc.isBlackBox_eq_false hP (Or.inr hg)]
    exact hc.runGatesWith_history .idle hs

/-- A scratch qubit is computed, used between two flips of itself and uncomputed; a qubit is flipped twice, and one call is
refused because the register does not have the qubit. Then equal neighbours are cancelled. -/
def tidied : Circuit :=
  ([.takeAncilla, .append (.ccx 0 1 3), .appendConjugated 3 (.ccx 0 3 2), .mark 3, .append (.cx 0 7), .uncompute [],
    .append (.x 2), .append (.x 2)].foldl Command.after (.ofSize "tidied" 3)).removeIdentities.1

/-- The history has the two flips that the gates have no more, and both lead from two ones to three ones. -/
theorem built_representation_tidied : tidied.Built (·.isBlackBox = false) ∧ tidied.gates.length = 5 ∧
    tidied.history.length = 5 ∧
    ∃ t, runGates tidied.gates #[true, false, false, false] = .ok t ∧ t = #[true, false, true, false] ∧
      runGates (tidied.history.flatMap LogEntry.gates) #[true, false, false, false] = .ok t := by
  have hbuilt : tidied.Built (·.isBlackBox = false) := ((Built.ofSize "tidied" 3).calls (by decide)).removeIdentities
  have hrun : (runGates tidied.gates #[true, false, false, false]).toOption = some #[true, false, true, false] := by
    decide +kernel
  obtain ⟨-, -, -, -, -, -, -, hsame⟩ := built_representation hbuilt
  obtain ⟨t, ht, ht'⟩ := hsame (fun _ hk => hk) #[true, false, false, false] (by decide +kernel)
  rw [ht] at hrun
  exact ⟨hbuilt, by decide +kernel, by decide +kernel, t, ht, Option.some.inj hrun, ht'⟩

end Circuit

end ReversibleLogic
