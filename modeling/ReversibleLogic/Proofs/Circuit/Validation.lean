import Mathlib.Data.List.Perm.Subperm
import ReversibleLogic.Proofs.Circuit.Operations
import ReversibleLogic.Proofs.Relabel

/-!
# Which gates a circuit accepts

A gate is proper for a register (`Gate.Proper`) if it has as many qubits as its kind takes, all of them in the register and no
two of them equal. A circuit accepts the proper gates and no others, and a gate between two flips under three more conditions.
A refused call leaves the circuit as it is and names what is wrong with the gate (`Gate.Misfit`).

There is one exception. The number of qubits that a kind asks for is counted in 64 bits, and the count is made before anything
else is looked at. Asked about a gate with 2^64 - 1 controls or more, a circuit has no answer (`Circuit.not_append_total`), where
the gate is only one with too few qubits: no register of less than 2^64 qubits has a proper gate of that kind.
-/

namespace ReversibleLogic

/-! ## Proper gates -/

/-- How many qubits a gate of the kind may have. -/
def GateKind.Takes : GateKind → Nat → Prop
  | .x, n => n = 1
  | .cx, n => n = 2
  | .ccx, n => n = 3
  | .mcx controls, n => n = controls + 1
  | .barrier, _ => True
  | .blackBox _, n => 1 ≤ n

/-- A gate of the kind has no more qubits than can be counted in 64 bits. -/
def GateKind.Countable (k : GateKind) : Prop := ∀ controls, k = .mcx controls → controls + 1 < Nat.pow 2 64

/-- The gate may stand in a circuit of `n` qubits. -/
structure Gate.Proper (n : Nat) (g : Gate) : Prop where
  /-- The kind takes that many qubits. -/
  count : g.kind.Takes g.qubits.length
  /-- The register has the qubits. -/
  range : ∀ q ∈ g.qubits, q < n
  /-- No qubit occurs twice. -/
  nodup : g.qubits.Nodup

/-- What is wrong with a gate that may not stand in a circuit of `n` qubits. -/
inductive Gate.Misfit (n : Nat) (g : Gate) : CircuitError → Prop where
  /-- The kind does not take that many qubits. -/
  | count (expected : Nat) : g.kind.Takes expected → ¬ g.kind.Takes g.qubits.length →
      Misfit n g (.arityMismatch g.name expected g.qubits.length)
  /-- The register does not have the qubit. -/
  | range (q : Qubit) : q ∈ g.qubits → n ≤ q → Misfit n g (.qubitOutOfRange q n (some g.name))
  /-- The qubit occurs twice. -/
  | duplicate (q : Qubit) : 2 ≤ g.qubits.count q → Misfit n g (.duplicateQubit q (some g.name))

/-- What is wrong with a gate that may not stand between two flips of a qubit in a circuit of `n` qubits. -/
inductive Gate.MisfitBetween (n : Nat) (flip : Qubit) (g : Gate) : CircuitError → Prop where
  /-- The gate may not stand in the circuit. -/
  | gate {e : CircuitError} : g.Misfit n e → MisfitBetween n flip g e
  /-- The flip may not stand in the circuit. -/
  | flip {e : CircuitError} : (Gate.x flip).Misfit n e → MisfitBetween n flip g e
  /-- The gate is not of the NOT family. -/
  | kind : g.kind.isClassical = false → MisfitBetween n flip g (.arityMismatch g.name 1 0)
  /-- The flipped qubit is the target of the gate. -/
  | target : g.target? = some flip → MisfitBetween n flip g (.duplicateQubit flip (some g.name))

/-- A kind with a fixed number of qubits takes that number. -/
theorem GateKind.takes_iff_of_arity? {k : GateKind} {m n : Nat} (h : k.arity? = some m) : k.Takes n ↔ n = m := by
  cases k <;> simp_all [arity?, Takes]

/-- A kind that fixes no number takes any, but for the black box without qubits. -/
theorem GateKind.takes_iff_of_arity?_eq_none {k : GateKind} {n : Nat} (h : k.arity? = none) :
    k.Takes n ↔ (k.isBlackBox = true → n ≠ 0) := by
  cases k <;> simp_all [arity?, Takes, isBlackBox, Nat.one_le_iff_ne_zero]

/-- A kind is countable if its number of qubits fits 64 bits. -/
theorem GateKind.countable_iff {k : GateKind} : k.Countable ↔ ∀ m, k.arity? = some m → m < Nat.pow 2 64 := by
  cases k <;> simp [Countable, arity?]

/-- The gates that a circuit lets pass are the proper ones whose qubits can be counted. -/
theorem Gate.fits_iff {n : Nat} {g : Gate} : g.Fits n ↔ g.Proper n ∧ g.kind.Countable := by
  rw [GateKind.countable_iff]
  constructor
  · intro h
    refine ⟨⟨?_, h.range, h.nodup⟩, fun m hm => (h.arity m hm).1⟩
    cases ha : g.kind.arity? with
    | some m => exact (GateKind.takes_iff_of_arity? ha).2 (h.arity m ha).2
    | none =>
      exact (GateKind.takes_iff_of_arity?_eq_none ha).2 fun hb => List.length_eq_zero_iff.not.2 (h.nonempty hb)
  · rintro ⟨h, hcount⟩
    refine ⟨fun m hm => ⟨hcount m hm, (GateKind.takes_iff_of_arity? hm).1 h.count⟩, fun hb => ?_, h.range, h.nodup⟩
    have ha : g.kind.arity? = none := by
      cases hk : g.kind <;> simp_all [GateKind.isBlackBox, GateKind.arity?]
    exact List.length_eq_zero_iff.not.1 ((GateKind.takes_iff_of_arity?_eq_none ha).1 h.count hb)

/-- A flip fits if its qubit is in the register. -/
theorem Gate.fits_x_iff {n : Nat} {flip : Qubit} : (Gate.x flip).Fits n ↔ flip < n :=
  ⟨fun h => h.range flip (by simp [Gate.x]), Gate.fits_x⟩

/-- The qubits of a proper gate are no more than those of the register, and can be counted if those can. -/
theorem Gate.Proper.countable {n : Nat} {g : Gate} (h : g.Proper n) (hn : n < Nat.pow 2 64) : g.kind.Countable := by
  intro controls hk
  have hlength : g.qubits.length = controls + 1 := by simpa [hk, GateKind.Takes] using h.count
  have hle : g.qubits.length ≤ n := by
    have hsub : g.qubits ⊆ List.range n := fun q hq => List.mem_range.2 (h.range q hq)
    simpa using (h.nodup.subperm hsub).length_le
  omega

/-! ## Why a gate is refused -/

namespace Circuit

variable {c c' : Circuit} {g : Gate} {e : CircuitError}

/-- Looking through qubits stops at one that the register does not have or that occurred before. -/
theorem checkQubits_eq_error {gate : String} {qs : List Qubit} :
    ∀ {seen : List Qubit}, c.checkQubits gate seen qs = .error e →
      (∃ q ∈ qs, c.numQubits ≤ q ∧ e = .qubitOutOfRange q c.numQubits (some gate)) ∨
        ∃ q, 2 ≤ (seen ++ qs).count q ∧ e = .duplicateQubit q (some gate) := by
  induction qs with
  | nil => exact fun h => nomatch h
  | cons q rest ih =>
    intro seen h
    unfold checkQubits checkRange at h
    by_cases hq : q < c.numQubits
    · rw [if_pos hq] at h
      by_cases hs : q ∈ seen
      · have hpos := List.count_pos_iff.2 hs
        refine Or.inr ⟨q, by simp; omega, ?_⟩
        rw [if_pos hs] at h
        exact (Except.error.inj h).symm
      · rw [if_neg hs] at h
        rcases ih h with ⟨p, hp, hle, he⟩ | ⟨p, hp, he⟩
        · exact Or.inl ⟨p, List.mem_cons_of_mem q hp, hle, he⟩
        · refine Or.inr ⟨p, ?_, he⟩
          simp only [List.count_append, List.count_cons] at hp ⊢
          omega
    · rw [if_neg hq] at h
      exact Or.inl ⟨q, List.mem_cons_self, Nat.not_lt.1 hq, (Except.error.inj h).symm⟩

/-- The check of a gate has no answer exactly if the gate's qubits cannot be counted, and an answer that refuses the gate is
right. -/
theorem validate_eq_error (h : c.validate g = .error e) :
    ¬ g.kind.Countable ∧ e = .fault .operandCount ∨ g.kind.Countable ∧ g.Misfit c.numQubits e := by
  have hqubits : c.checkQubits g.name [] g.qubits = .error e → g.Misfit c.numQubits e := by
    intro h
    rcases checkQubits_eq_error h with ⟨q, hq, hle, rfl⟩ | ⟨q, hq, rfl⟩
    · exact .range q hq hle
    · exact .duplicate q hq
  rw [GateKind.countable_iff]
  unfold validate GateKind.checkedArity at h
  cases ha : g.kind.arity? with
  | some m =>
    have htakes := fun n => GateKind.takes_iff_of_arity? (n := n) ha
    by_cases hm : m < Nat.pow 2 64
    · refine Or.inr ⟨by simpa using hm, ?_⟩
      rw [ha, Outcome.bind_of_eq_ok (a := some m) (if_pos hm)] at h
      dsimp only at h
      by_cases hl : m = g.qubits.length
      · rw [if_neg (not_not.2 hl)] at h
        exact hqubits h
      · rw [if_pos hl] at h
        obtain rfl := Except.error.inj h
        exact .count m ((htakes m).2 rfl) fun ht => hl ((htakes _).1 ht).symm
    · rw [ha] at h
      dsimp only at h
      rw [if_neg hm] at h
      exact Or.inl ⟨by simpa using hm, (Except.error.inj h).symm⟩
  | none =>
    have htakes := fun n => GateKind.takes_iff_of_arity?_eq_none (n := n) ha
    refine Or.inr ⟨by simp, ?_⟩
    rw [ha, Outcome.bind_of_eq_ok (a := none) rfl] at h
    dsimp only at h
    by_cases hempty : (g.kind.isBlackBox && g.qubits.isEmpty) = true
    · obtain ⟨hb, hnil⟩ : g.kind.isBlackBox = true ∧ g.qubits.length = 0 := by simpa using hempty
      rw [if_pos hempty] at h
      obtain rfl := Except.error.inj h
      have hmisfit := Gate.Misfit.count (n := c.numQubits) 1 ((htakes 1).2 (by simp)) fun ht => (htakes _).1 ht hb hnil
      rwa [hnil] at hmisfit
    · rw [if_neg hempty] at h
      exact hqubits h

/-! ## The two ways to append a gate -/

/-- The answer to a call that asks for `block` to be appended, which the gate `g` is part of, as the circuit that the call leaves
and its outcome. A call is granted exactly if `accepted` holds and the qubits of the gate can be counted. One that is granted
appends the block. One that is refused changes nothing and names a cause, which is one of `causes` unless the qubits cannot be
counted. -/
structure Answers (c : Circuit) (g : Gate) (answer : Circuit × Except CircuitError Unit) (accepted : Prop)
    (block : List Gate) (causes : CircuitError → Prop) : Prop where
  granted : answer.2 = .ok () ↔ accepted ∧ g.kind.Countable
  effect : answer.2 = .ok () → answer.1.gates = c.gates ++ block
  refused : ∀ e, answer.2 = .error e → answer.1 = c ∧
    (¬ g.kind.Countable ∧ e = .fault .operandCount ∨ g.kind.Countable ∧ causes e)

/-- A gate alone is accepted if it is proper. -/
theorem answers_append (c : Circuit) (g : Gate) :
    c.Answers g (c.append g) (g.Proper c.numQubits) [g] (g.Misfit c.numQubits) where
  granted := by
    rw [← Gate.fits_iff]
    refine ⟨fun h => (append_cases (Prod.ext rfl h)).1, fun h => ?_⟩
    obtain ⟨c', h⟩ := append_total h
    rw [h]
  effect h := (appended_append (Prod.ext rfl h)).gates
  refused e h := (append_eq_error (Prod.ext rfl h)).imp_right validate_eq_error

/-- What is said against a gate between two flips. The gate is looked at before the flips, so that a fault comes from the gate. -/
theorem conjugable_eq_error {flip : Qubit} (h : c.conjugable flip g = .error e) :
    ¬ g.kind.Countable ∧ e = .fault .operandCount ∨ g.kind.Countable ∧ g.MisfitBetween c.numQubits flip e := by
  rcases Outcome.bind_eq_error.1 h with hg | ⟨_, hg, h⟩
  · rcases validate_eq_error hg with hfault | ⟨hcount, he⟩
    · exact Or.inl hfault
    · exact Or.inr ⟨hcount, .gate he⟩
  have hcount := (Gate.fits_iff.1 (validate_eq_ok_iff.1 hg)).2
  refine Or.inr ⟨hcount, ?_⟩
  rcases Outcome.bind_eq_error.1 h with hx | ⟨_, -, h⟩
  · rcases validate_eq_error hx with ⟨hx, -⟩ | ⟨-, he⟩
    · exact absurd (by simp [GateKind.Countable, Gate.x]) hx
    · exact .flip he
  · cases hc : g.kind.isClassical with
    | false =>
      obtain rfl : .arityMismatch g.name 1 0 = e := by
        cases ht : g.target? with
        | none =>
          rw [ht, hc] at h
          exact Except.error.inj h
        | some t =>
          rw [ht, hc] at h
          exact Except.error.inj h
      exact .kind hc
    | true =>
      obtain ⟨t, ht⟩ := (validate_eq_ok_iff.1 hg).toggles hc
      rw [ht.target, hc] at h
      dsimp only at h
      by_cases he : t = flip
      · rw [if_pos he] at h
        obtain rfl := Except.error.inj h
        exact .target (he ▸ ht.target)
      · rw [if_neg he] at h
        cases h

/-- Between two flips a proper gate is accepted if it is of the NOT family and the flipped qubit is another one of the register. -/
theorem answers_appendConjugated (c : Circuit) (flip : Qubit) (g : Gate) :
    c.Answers g (c.appendConjugated flip g)
      (g.Proper c.numQubits ∧ g.kind.isClassical = true ∧ flip < c.numQubits ∧ g.target? ≠ some flip)
      [.x flip, g, .x flip] (g.MisfitBetween c.numQubits flip) where
  granted := by
    constructor
    · intro h
      obtain ⟨hfit, hx, t, ht, hne, -⟩ := appendConjugated_eq_ok (Prod.ext rfl h)
      obtain ⟨hproper, hcount⟩ := Gate.fits_iff.1 hfit
      refine ⟨⟨hproper, ht.classical, Gate.fits_x_iff.1 hx, fun he => hne ?_⟩, hcount⟩
      exact Option.some.inj (he.symm.trans ht.target)
    · rintro ⟨⟨hproper, hc, hflip, hne⟩, hcount⟩
      have hfit := Gate.fits_iff.2 ⟨hproper, hcount⟩
      obtain ⟨t, ht⟩ := hfit.toggles hc
      obtain ⟨c', h⟩ := appendConjugated_total hfit (Gate.fits_x_iff.2 hflip) ht fun he => hne (he ▸ ht.target)
      rw [h]
  effect h := by
    obtain ⟨-, -, t, -, -, hrecord⟩ := appendConjugated_eq_ok (Prod.ext rfl h)
    exact congrArg Circuit.gates hrecord
  refused e h := (appendConjugated_eq_error (Prod.ext rfl h)).imp_right conjugable_eq_error

/-- A circuit answers every request to append a gate whose qubits can be counted, alone or between two flips. It accepts a gate
exactly if the gate is proper for the register, and between flips exactly if moreover the gate is of the NOT family and the
flipped qubit is in the register and not the gate's target. Otherwise it stays as it is and says what is wrong. A register of less
than 2^64 qubits has no proper gate whose qubits cannot be counted: there the count only decides whether there is an answer. -/
theorem append_exact (c : Circuit) (g : Gate) (flip : Qubit) :
    c.Answers g (c.append g) (g.Proper c.numQubits) [g] (g.Misfit c.numQubits) ∧
      c.Answers g (c.appendConjugated flip g)
        (g.Proper c.numQubits ∧ g.kind.isClassical = true ∧ flip < c.numQubits ∧ g.target? ≠ some flip)
        [.x flip, g, .x flip] (g.MisfitBetween c.numQubits flip) ∧
      (c.numQubits < Nat.pow 2 64 → g.Proper c.numQubits → g.kind.Countable) :=
  ⟨answers_append c g, answers_appendConjugated c flip g, fun hn h => h.countable hn⟩

/-- A gate with two controls is accepted alone, and not between two flips of its target. -/
theorem append_exact_flippedTarget :
    ((Circuit.ofSize "c" 3).append { kind := .mcx 2, qubits := [0, 1, 2] }).2 = .ok () ∧
      ((Circuit.ofSize "c" 3).appendConjugated 2 { kind := .mcx 2, qubits := [0, 1, 2] }).2 ≠ .ok () := by
  obtain ⟨halone, hbetween, hcount⟩ := append_exact (.ofSize "c" 3) { kind := .mcx 2, qubits := [0, 1, 2] } 2
  have hproper : Gate.Proper (Circuit.ofSize "c" 3).numQubits { kind := .mcx 2, qubits := [0, 1, 2] } :=
    ⟨rfl, by decide, by decide⟩
  exact ⟨halone.granted.2 ⟨hproper, hcount (by decide) hproper⟩, fun h => (hbetween.granted.1 h).1.2.2.2 rfl⟩

/-- There are requests without an answer: the qubits that a gate with 2^64 - 1 controls asks for cannot be counted. -/
theorem not_append_total : ¬ ∀ (c : Circuit) (g : Gate) (f : Fault), (c.append g).2 ≠ .error (.fault f) :=
  fun h => h (.ofSize "c" 2) { kind := .mcx (Nat.pow 2 64 - 1), qubits := [0, 1] } .operandCount rfl

end Circuit

end ReversibleLogic
