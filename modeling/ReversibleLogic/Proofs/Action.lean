import Mathlib.Logic.Function.Basic
import ReversibleLogic.Circuit.Simulate
import ReversibleLogic.Proofs.Outcome

/-!
# The action of gates on bits

`Gate.run` works on the bits of a register and can fail. Here a gate acts on the values of all qubits at once, those that no
register has yet included, and never fails: this is the form in which runs of growing circuits are compared. The two agree on
gates that fit the register (`Gate.runWith_eq`, `Circuit.simulate_eq`).

A black box has no action of its own. `Reading` supplies one, and every statement holds for all readings.
-/

namespace ReversibleLogic

/-- The values of all qubits. -/
abbrev Bits := Qubit → Bool

/-- A reading of black boxes: the bits that a black box leaves on its qubits, from its name, its parameter and the bits it
finds there. -/
abbrev Reading := String → Option Param → List Bool → List Bool

/-- The reading under which black boxes do nothing. -/
def Reading.idle : Reading := fun _ _ bits => bits

/-! ## Gates that fit a register -/

/-- The gate has as many qubits as its kind asks for, all among the first `n` and no two of them equal. -/
structure Gate.Fits (n : Nat) (g : Gate) : Prop where
  /-- The number of qubits is the one the kind fixes, and fits 64 bits. -/
  arity : ∀ k, g.kind.arity? = some k → k < Nat.pow 2 64 ∧ g.qubits.length = k
  /-- A black box has a qubit. -/
  nonempty : g.kind.isBlackBox = true → g.qubits ≠ []
  /-- The register has the qubits. -/
  range : ∀ q ∈ g.qubits, q < n
  /-- No qubit occurs twice. -/
  nodup : g.qubits.Nodup

/-- A gate of the NOT family is no black box. -/
theorem GateKind.isBlackBox_of_isClassical {k : GateKind} (h : k.isClassical = true) : k.isBlackBox = false := by
  cases k <;> simp_all [isClassical, isBlackBox]

/-- The gate is of the NOT family and flips `t`, which is none of its controls. -/
structure Gate.Toggles (g : Gate) (t : Qubit) : Prop where
  /-- The gate is of the NOT family. -/
  classical : g.kind.isClassical = true
  /-- The target is the last qubit. -/
  target : g.target? = some t
  /-- The target is not a control. -/
  apart : t ∉ g.controls

/-- The qubits of a gate with a target are its controls and the target. -/
theorem Gate.qubits_eq {g : Gate} {t : Qubit} (h : g.target? = some t) : g.qubits = g.controls ++ [t] := by
  obtain ⟨init, he⟩ := List.getLast?_eq_some_iff.1 h
  simp [Gate.controls, he]

/-- The controls are qubits of the gate. -/
theorem Gate.Toggles.control_mem {g : Gate} {t q : Qubit} (h : g.Toggles t) (hq : q ∈ g.controls) : q ∈ g.qubits := by
  rw [Gate.qubits_eq h.target]
  exact List.mem_append_left _ hq

/-- No control is the target. -/
theorem Gate.Toggles.control_ne {g : Gate} {t q : Qubit} (h : g.Toggles t) (hq : q ∈ g.controls) : q ≠ t :=
  fun he => h.apart (he ▸ hq)

/-- The target is a qubit of the gate. -/
theorem Gate.Toggles.target_mem {g : Gate} {t : Qubit} (h : g.Toggles t) : t ∈ g.qubits := by
  rw [Gate.qubits_eq h.target]
  simp

/-- A gate that fits a register has a target, unless it is a barrier. -/
theorem Gate.Fits.target {n : Nat} {g : Gate} (h : g.Fits n) (hb : g.kind.isBarrier = false) : ∃ t, g.target? = some t := by
  have hne : g.qubits ≠ [] := by
    intro he
    have ha := h.arity
    have hbox := h.nonempty
    rw [he] at ha hbox
    cases hk : g.kind <;> simp [hk, GateKind.isBarrier, GateKind.isBlackBox, GateKind.arity?] at hb ha hbox
  exact Option.isSome_iff_exists.1 (List.getLast?_isSome.2 hne)

/-- A gate of the NOT family is no barrier. -/
theorem GateKind.isBarrier_of_isClassical {k : GateKind} (h : k.isClassical = true) : k.isBarrier = false := by
  cases k <;> simp_all [isClassical, isBarrier]

/-- A gate of the NOT family that fits a register flips one of its qubits. -/
theorem Gate.Fits.toggles {n : Nat} {g : Gate} (h : g.Fits n) (hc : g.kind.isClassical = true) :
    ∃ t, g.Toggles t := by
  obtain ⟨t, ht⟩ := h.target (GateKind.isBarrier_of_isClassical hc)
  refine ⟨t, hc, ht, fun hmem => ?_⟩
  have hn := h.nodup
  rw [Gate.qubits_eq (g := g) ht] at hn
  exact (List.nodup_append.1 hn).2.2 t hmem t (by simp) rfl

/-- A gate that fits a register fits every larger one. -/
theorem Gate.Fits.mono {n m : Nat} {g : Gate} (h : g.Fits n) (hnm : n ≤ m) : g.Fits m :=
  ⟨h.arity, h.nonempty, fun q hq => Nat.lt_of_lt_of_le (h.range q hq) hnm, h.nodup⟩

/-- The gate is of the NOT family and fits a register of `n` qubits. -/
structure Gate.Flips (n : Nat) (g : Gate) : Prop where
  classical : g.kind.isClassical = true
  fits : g.Fits n

/-- A gate of the NOT family that fits flips its target. -/
theorem Gate.Flips.toggles {n : Nat} {g : Gate} (h : g.Flips n) : ∃ t, g.Toggles t := h.fits.toggles h.classical

theorem Gate.Flips.mono {n m : Nat} {g : Gate} (h : g.Flips n) (hnm : n ≤ m) : g.Flips m := ⟨h.classical, h.fits.mono hnm⟩

/-! ## Gates with controls -/

/-- A gate of the NOT family acts on its controls and one target. -/
theorem GateKind.arity?_ofControls : ∀ n : Nat, (GateKind.ofControls n).arity? = some (n + 1)
  | 0 | 1 | 2 | _ + 3 => rfl

namespace Gate

theorem target?_mcx (qs : List Qubit) (t : Qubit) : (mcx qs t).target? = some t := by
  simp [mcx, target?]

theorem controls_mcx (qs : List Qubit) (t : Qubit) : (mcx qs t).controls = qs := by
  simp [mcx, controls]

/-- Whatever their number, the gate is of the NOT family. -/
theorem isClassical_mcx (qs : List Qubit) (t : Qubit) : (mcx qs t).kind.isClassical = true := by
  simp only [mcx]
  match qs.length with
  | 0 | 1 | 2 | _ + 3 => rfl

/-- A gate of the NOT family fits if its qubits are in the register and distinct, and not too many to be counted. -/
theorem fits_mcx {n : Nat} (cs : List Qubit) {t : Qubit} (hcs : ∀ c ∈ cs, c < n) (ht : t < n) (hnodup : cs.Nodup)
    (hne : t ∉ cs) (hlen : cs.length + 1 < Nat.pow 2 64) : (mcx cs t).Fits n := by
  refine ⟨fun k hk => ?_, fun hb => ?_, fun q hq => ?_, ?_⟩
  · obtain rfl := Option.some.inj ((GateKind.arity?_ofControls cs.length).symm.trans hk)
    exact ⟨hlen, by simp [mcx]⟩
  · rw [GateKind.isBlackBox_of_isClassical (isClassical_mcx cs t)] at hb
    cases hb
  · rcases List.mem_append.1 hq with hq | hq
    · exact hcs q hq
    · rw [List.mem_singleton.1 hq]
      exact ht
  · exact List.nodup_append.2 ⟨hnodup, List.pairwise_singleton _ t, fun a ha b hb hab => hne (List.mem_singleton.1 hb ▸ hab ▸ ha)⟩

/-- A flip fits a register that has its qubit. -/
theorem fits_x {n : Nat} {t : Qubit} (ht : t < n) : (Gate.x t).Fits n :=
  fits_mcx [] (by simp) ht List.nodup_nil (by simp) (by decide)

end Gate

/-! ## The check of a gate -/

namespace Circuit

/-- A qubit passes the check of the range exactly if the register has it. -/
theorem checkRange_eq_ok_iff {c : Circuit} {q : Qubit} {name : Option String} {u : Unit} :
    c.checkRange q name = .ok u ↔ q < c.numQubits := by
  unfold checkRange
  split <;> simp_all

/-- The check of a gate's qubits passes exactly when they are in the register, distinct, and not among those seen before. -/
theorem checkQubits_eq_ok_iff {c : Circuit} {name : String} {qs : List Qubit} :
    ∀ {seen : List Qubit}, c.checkQubits name seen qs = .ok () ↔
      (∀ q ∈ qs, q < c.numQubits) ∧ qs.Nodup ∧ ∀ q ∈ qs, q ∉ seen := by
  induction qs with
  | nil => simp [checkQubits]
  | cons q rest ih =>
    intro seen
    unfold checkQubits
    rw [Outcome.bind_eq_ok]
    simp only [checkRange_eq_ok_iff, exists_and_left, exists_const, List.mem_cons, forall_eq_or_imp, List.nodup_cons]
    by_cases hs : q ∈ seen
    · simp [hs, Outcome.bind_eq_ok, Outcome.throw_eq_ok]
    · simp only [hs, if_false, ih, List.mem_cons, not_or]
      constructor
      · rintro ⟨hr, h1, h2, h3⟩
        exact ⟨⟨hr, h1⟩, ⟨fun hm => (h3 q hm).1 rfl, h2⟩, not_false, fun p hp => (h3 p hp).2⟩
      · rintro ⟨⟨hr, h1⟩, ⟨h2, h3⟩, _, h4⟩
        exact ⟨hr, h1, h3, fun p hp => ⟨fun he => h2 (he ▸ hp), h4 p hp⟩⟩

/-- A circuit accepts exactly the gates that fit its register. -/
theorem validate_eq_ok_iff {c : Circuit} {g : Gate} : c.validate g = .ok () ↔ g.Fits c.numQubits := by
  have hq : c.checkQubits g.name [] g.qubits = .ok () ↔ (∀ q ∈ g.qubits, q < c.numQubits) ∧ g.qubits.Nodup := by
    simp [checkQubits_eq_ok_iff]
  unfold validate
  rw [Outcome.bind_eq_ok]
  simp only [GateKind.checkedArity]
  cases hk : g.kind.arity? with
  | none =>
    by_cases he : (g.kind.isBlackBox && g.qubits.isEmpty) = true
    · simp only [he, if_true]
      constructor
      · simp [Outcome.bind_eq_ok, Outcome.throw_eq_ok]
      · intro h
        simp only [Bool.and_eq_true, List.isEmpty_iff] at he
        exact absurd he.2 (h.nonempty he.1)
    · simp only [Except.ok.injEq, exists_eq_left']
      rw [if_neg he, hq]
      constructor
      · rintro ⟨h1, h2⟩
        exact ⟨by simp [hk], fun hb hn => he (by simp [hb, hn]), h1, h2⟩
      · intro h
        exact ⟨h.range, h.nodup⟩
  | some k =>
    by_cases hlt : k < Nat.pow 2 64
    · simp only [hlt, if_true, Except.ok.injEq, exists_eq_left']
      by_cases hl : k = g.qubits.length
      · have hb : g.kind.isBlackBox = false := by
          cases hkind : g.kind <;> simp [hkind, GateKind.arity?] at hk <;> rfl
        simp only [hl, ne_eq, not_true_eq_false, if_false, hq]
        constructor
        · rintro ⟨h1, h2⟩
          refine ⟨fun j hj => ?_, by simp [hb], h1, h2⟩
          rw [hk, Option.some.injEq] at hj
          exact ⟨hj ▸ hlt, hj ▸ hl.symm⟩
        · intro h
          exact ⟨h.range, h.nodup⟩
      · simp only [hl, ne_eq, not_false_eq_true, if_true, Outcome.bind_eq_ok, Outcome.throw_eq_ok, false_and, exists_false,
          false_iff]
        intro h
        exact hl (h.arity k hk).2.symm
    · simp only [hlt, if_false]
      constructor
      · simp
      · intro h
        exact absurd (h.arity k hk).1 hlt

end Circuit

/-! ## The action on all qubits -/

/-- The bits with the listed qubits set to the listed values, as far as both lists go. -/
def Bits.write (s : Bits) : List Qubit → List Bool → Bits
  | q :: qs, b :: bs => write (Function.update s q b) qs bs
  | _, _ => s

/-- What a gate does to the values of all qubits. -/
def Gate.act (box : Reading) (g : Gate) (s : Bits) : Bits :=
  match g.kind with
  | .barrier => s
  | .blackBox name => s.write g.qubits (box name g.param (g.qubits.map s))
  | .x | .cx | .ccx | .mcx _ =>
    match g.target? with
    | none => s
    | some t => if g.controls.all s then Function.update s t (!s t) else s

/-- What gates do one after another. -/
def actGates (box : Reading) : List Gate → Bits → Bits
  | [], s => s
  | g :: rest, s => actGates box rest (g.act box s)

variable {box : Reading}

@[simp] theorem actGates_nil (s : Bits) : actGates box [] s = s := rfl

@[simp] theorem actGates_cons (g : Gate) (gs : List Gate) (s : Bits) :
    actGates box (g :: gs) s = actGates box gs (g.act box s) := rfl

@[simp] theorem actGates_append (gs hs : List Gate) (s : Bits) :
    actGates box (gs ++ hs) s = actGates box hs (actGates box gs s) := by
  induction gs generalizing s with
  | nil => rfl
  | cons g gs ih => exact ih _

/-- Whether all of some qubits are set depends on the values of these qubits. -/
theorem Bits.all_congr {qs : List Qubit} {s s' : Bits} (h : ∀ q ∈ qs, s q = s' q) : qs.all s = qs.all s' := by
  induction qs with
  | nil => rfl
  | cons q qs ih =>
    rw [List.all_cons, List.all_cons, h q List.mem_cons_self, ih fun p hp => h p (List.mem_cons_of_mem q hp)]

/-- A gate of the NOT family adds the conjunction of its controls to its target. -/
theorem Gate.Toggles.act_eq {g : Gate} {t : Qubit} (h : g.Toggles t) (s : Bits) :
    g.act box s = Function.update s t (s t ^^ g.controls.all s) := by
  have hc := h.classical
  unfold Gate.act
  cases hk : g.kind with
  | barrier => simp [hk, GateKind.isClassical] at hc
  | blackBox name => simp [hk, GateKind.isClassical] at hc
  | x | cx | ccx | mcx n =>
    simp only [h.target]
    cases g.controls.all s
    · simp
    · simp

/-- A gate changes only its own qubits. -/
theorem Bits.write_of_not_mem {qs : List Qubit} {q : Qubit} (h : q ∉ qs) :
    ∀ (bs : List Bool) (s : Bits), s.write qs bs q = s q := by
  induction qs with
  | nil => intro bs s; rfl
  | cons r qs ih =>
    intro bs s
    rw [List.mem_cons, not_or] at h
    cases bs with
    | nil => rfl
    | cons b bs =>
      rw [Bits.write, ih h.2, Function.update_of_ne h.1]

/-- A gate changes none but its own qubits. -/
theorem Gate.act_of_not_mem {g : Gate} {q : Qubit} (h : q ∉ g.qubits) (s : Bits) : g.act box s q = s q := by
  have hflip : (match g.target? with
      | none => s
      | some t => if g.controls.all s then Function.update s t (!s t) else s) q = s q := by
    cases ht : g.target? with
    | none => rfl
    | some t =>
      have hne : q ≠ t := fun he => h (by rw [Gate.qubits_eq ht, he]; simp)
      change (if g.controls.all s then Function.update s t (!s t) else s) q = s q
      split
      · rw [Function.update_of_ne hne]
      · rfl
  unfold Gate.act
  cases hk : g.kind with
  | barrier => rfl
  | blackBox name => exact Bits.write_of_not_mem h _ s
  | x | cx | ccx | mcx n => exact hflip

/-- Gates change only their own qubits. -/
theorem actGates_of_not_mem {gs : List Gate} {q : Qubit} (h : ∀ g ∈ gs, q ∉ g.qubits) (s : Bits) :
    actGates box gs s q = s q := by
  induction gs generalizing s with
  | nil => rfl
  | cons g gs ih =>
    rw [actGates_cons, ih (fun g' hg' => h g' (List.mem_cons_of_mem g hg')), Gate.act_of_not_mem (h g List.mem_cons_self)]

/-! ## Registers -/

namespace Register

/-- The values of all qubits when the register has its bits and every other qubit is at 0. -/
def bits (s : Register) : Bits := fun q => s[q]?.getD false

/-- The bit of a qubit that the register has is the one stored there. -/
theorem getElem?_eq_some_bits {s : Register} {q : Qubit} (h : q < s.size) : s[q]? = some (s.bits q) := by
  simp [bits, h]

/-- A qubit that the register does not have counts as 0. -/
theorem bits_of_size_le {s : Register} {q : Qubit} (h : s.size ≤ q) : s.bits q = false := by
  simp [bits, h]

/-- Registers of one size with the same values are equal. -/
theorem eq_of_bits {s t : Register} (hs : s.size = t.size) (h : s.bits = t.bits) : s = t := by
  apply Array.ext hs
  intro q hq hq'
  have hb := congrFun h q
  simpa [bits, hq, hq'] using hb

/-- Registers of one size have the same bit where they have the same value. -/
theorem getElem?_congr {s t : Register} {q : Qubit} (hs : s.size = t.size) (h : s.bits q = t.bits q) : s[q]? = t[q]? := by
  by_cases hq : q < s.size
  · rw [getElem?_eq_some_bits hq, getElem?_eq_some_bits (hs ▸ hq), h]
  · rw [Array.getElem?_eq_none (Nat.not_lt.1 hq), Array.getElem?_eq_none (hs ▸ Nat.not_lt.1 hq)]

/-- The bits of a list, and 0 beyond it. -/
theorem bits_toArray (l : List Bool) : Register.bits l.toArray = fun q => l[q]?.getD false := by
  funext q
  simp [bits]

/-- Reading controls that the register has succeeds. -/
theorem allSet_eq {s : Register} {qs : List Qubit} (h : ∀ q ∈ qs, q < s.size) : s.allSet qs = .ok (qs.all s.bits) := by
  induction qs with
  | nil => rfl
  | cons q qs ih =>
    unfold allSet
    rw [getElem?_eq_some_bits (h q List.mem_cons_self)]
    cases hb : s.bits q with
    | true => simpa [hb] using ih fun p hp => h p (List.mem_cons_of_mem q hp)
    | false => simp [hb]

/-- Flipping a qubit that the register has changes its bit and no other. -/
theorem flip_eq {s : Register} {q : Qubit} (h : q < s.size) :
    ∃ t, s.flip q = .ok t ∧ t.size = s.size ∧ t.bits = Function.update s.bits q (!s.bits q) := by
  refine ⟨s.modify q (!·), by simp [flip, h], by simp, ?_⟩
  funext p
  by_cases hp : p = q
  · subst hp
    simp [bits, h, Array.getElem_modify]
  · rw [Function.update_of_ne hp]
    simp [bits, Array.getElem?_modify, Ne.symm hp]

/-- The bits of qubits, in order. -/
def readAll (s : Register) : List Qubit → Except CircuitError (List Bool)
  | [] => .ok []
  | q :: rest =>
    match s[q]? with
    | some b => do return b :: (← readAll s rest)
    | none => .error (.fault (.strayQubit q))

/-- The register with the listed qubits set to the listed bits, as far as both lists go. -/
def writeAll (s : Register) : List Qubit → List Bool → Register
  | q :: qs, b :: bs => writeAll (s.setIfInBounds q b) qs bs
  | _, _ => s

/-- Reading qubits that the register has gives their bits in order. -/
theorem readAll_eq {s : Register} {qs : List Qubit} (h : ∀ q ∈ qs, q < s.size) : s.readAll qs = .ok (qs.map s.bits) := by
  induction qs with
  | nil => rfl
  | cons q qs ih =>
    unfold readAll
    rw [getElem?_eq_some_bits (h q List.mem_cons_self), ih fun p hp => h p (List.mem_cons_of_mem q hp)]
    rfl

/-- Writing one bit changes no other. -/
theorem bits_setIfInBounds {s : Register} {q : Qubit} (h : q < s.size) (b : Bool) :
    Register.bits (s.setIfInBounds q b) = Function.update s.bits q b := by
  funext p
  by_cases hp : p = q
  · subst hp
    simp [bits, h]
  · rw [Function.update_of_ne hp]
    simp [bits, Ne.symm hp]

/-- Writing bits to qubits that the register has changes the bits accordingly and keeps the size. -/
theorem writeAll_eq {qs : List Qubit} : ∀ {s : Register} (bs : List Bool), (∀ q ∈ qs, q < s.size) →
    (s.writeAll qs bs).size = s.size ∧ (s.writeAll qs bs).bits = s.bits.write qs bs := by
  induction qs with
  | nil => intro s bs _; exact ⟨rfl, rfl⟩
  | cons q qs ih =>
    intro s bs h
    cases bs with
    | nil => exact ⟨rfl, rfl⟩
    | cons b bs =>
      have hq : q < s.size := h q List.mem_cons_self
      obtain ⟨h1, h2⟩ := ih (s := s.setIfInBounds q b) bs fun p hp => by
        simpa using h p (List.mem_cons_of_mem q hp)
      refine ⟨by rw [writeAll, h1]; simp, ?_⟩
      rw [writeAll, h2, bits_setIfInBounds hq, Bits.write]

end Register

/-- The action of a gate on the bits of a register, with black boxes read as `box` says. -/
def Gate.runWith (box : Reading) (g : Gate) (s : Register) : Except CircuitError Register :=
  match g.kind with
  | .blackBox name => do return s.writeAll g.qubits (box name g.param (← s.readAll g.qubits))
  | .x | .cx | .ccx | .mcx _ | .barrier => g.run s

/-- The action of gates, one after another, with black boxes read as `box` says. -/
def runGatesWith (box : Reading) : List Gate → Register → Except CircuitError Register
  | [], s => .ok s
  | g :: rest, s => do runGatesWith box rest (← g.runWith box s)

/-- For a gate that is no black box the reading of black boxes does not matter. -/
theorem Gate.runWith_of_not_blackBox (box : Reading) {g : Gate} (h : g.kind.isBlackBox = false) (s : Register) :
    g.runWith box s = g.run s := by
  unfold Gate.runWith
  cases hk : g.kind with
  | blackBox name => simp [hk, GateKind.isBlackBox] at h
  | x | cx | ccx | mcx n | barrier => rfl

/-- Without black boxes the reading of black boxes does not matter. -/
theorem runGatesWith_of_no_blackBox (box : Reading) {gs : List Gate} (h : ∀ g ∈ gs, g.kind.isBlackBox = false) (s : Register) :
    runGatesWith box gs s = runGates gs s := by
  induction gs generalizing s with
  | nil => rfl
  | cons g gs ih =>
    unfold runGatesWith runGates
    rw [Gate.runWith_of_not_blackBox box (h g List.mem_cons_self)]
    cases g.run s with
    | error e => rfl
    | ok t => exact ih (fun g' hg' => h g' (List.mem_cons_of_mem g hg')) t

/-- On a register that it fits, a gate runs, and does what it does to the values of all qubits. -/
theorem Gate.runWith_eq (box : Reading) {g : Gate} {s : Register} (h : g.Fits s.size) :
    ∃ t, g.runWith box s = .ok t ∧ t.size = s.size ∧ t.bits = g.act box s.bits := by
  by_cases hc : g.kind.isClassical = true
  · obtain ⟨t, ht⟩ := h.toggles hc
    have hq := Gate.qubits_eq ht.target
    have hall : s.allSet g.controls = .ok (g.controls.all s.bits) :=
      Register.allSet_eq fun q hq' => h.range q (by rw [hq]; simp [hq'])
    have hrun : g.runWith box s = (do if ← s.allSet g.controls then s.flip t else return s) := by
      unfold Gate.runWith Gate.run
      cases hk : g.kind with
      | barrier => simp [hk, GateKind.isClassical] at hc
      | blackBox name => simp [hk, GateKind.isClassical] at hc
      | x | cx | ccx | mcx n => simp [ht.target]
    rw [hrun, hall, ht.act_eq]
    cases g.controls.all s.bits with
    | true =>
      obtain ⟨s', h1, h2, h3⟩ := Register.flip_eq (h.range t (by rw [hq]; simp))
      exact ⟨s', h1, h2, by rw [h3]; simp⟩
    | false => exact ⟨s, rfl, rfl, by simp⟩
  · unfold Gate.runWith Gate.act
    cases hk : g.kind with
    | x | cx | ccx | mcx n => simp [hk, GateKind.isClassical] at hc
    | barrier => exact ⟨s, by simp [Gate.run, hk], rfl, rfl⟩
    | blackBox name =>
      have hw := Register.writeAll_eq (s := s) (box name g.param (g.qubits.map s.bits)) h.range
      refine ⟨_, ?_, hw.1, hw.2⟩
      simp only [Register.readAll_eq h.range]
      rfl

/-- On a register that they fit, gates run, and do what they do to the values of all qubits. -/
theorem runGatesWith_eq (box : Reading) {gs : List Gate} : ∀ {s : Register}, (∀ g ∈ gs, g.Fits s.size) →
    ∃ t, runGatesWith box gs s = .ok t ∧ t.size = s.size ∧ t.bits = actGates box gs s.bits := by
  induction gs with
  | nil => exact fun {s} _ => ⟨s, rfl, rfl, rfl⟩
  | cons g gs ih =>
    intro s h
    obtain ⟨t, h1, h2, h3⟩ := Gate.runWith_eq box (h g List.mem_cons_self)
    obtain ⟨u, h4, h5, h6⟩ := ih (s := t) fun g' hg' => h2 ▸ h g' (List.mem_cons_of_mem g hg')
    refine ⟨u, ?_, h5.trans h2, ?_⟩
    · unfold runGatesWith
      rw [h1]
      exact h4
    · rw [h6, h3, actGates_cons]

/-- On a register that they fit, gates without a black box among them run, and do what they do to the values of all qubits. -/
theorem runGates_eq {gs : List Gate} {s : Register} (hfit : ∀ g ∈ gs, g.Fits s.size)
    (hbox : ∀ g ∈ gs, g.kind.isBlackBox = false) :
    ∃ t, runGates gs s = .ok t ∧ t.size = s.size ∧ t.bits = actGates .idle gs s.bits := by
  rw [← runGatesWith_of_no_blackBox .idle hbox]
  exact runGatesWith_eq .idle hfit

/-- On a register that they fit, gates with a black box among them run up to the first black box, which ends the run. -/
theorem runGates_eq_error {gs : List Gate} {g : Gate} : ∀ {s : Register}, (∀ k ∈ gs, k.Fits s.size) →
    gs.find? (fun k => k.kind.isBlackBox) = some g → runGates gs s = .error (.nonClassicalGate g.name) := by
  induction gs with
  | nil => exact fun _ hfind => nomatch hfind
  | cons k gs ih =>
    intro s hfit hfind
    cases hk : k.kind.isBlackBox with
    | true =>
      simp only [List.find?_cons, hk] at hfind
      obtain rfl := Option.some.inj hfind
      unfold runGates Gate.run Gate.name
      cases hkind : k.kind with
      | blackBox name => rfl
      | x | cx | ccx | mcx n | barrier => simp [hkind, GateKind.isBlackBox] at hk
    | false =>
      simp only [List.find?_cons, hk] at hfind
      obtain ⟨t, hrun, hsize, -⟩ := Gate.runWith_eq .idle (hfit k List.mem_cons_self)
      rw [Gate.runWith_of_not_blackBox .idle hk] at hrun
      unfold runGates
      rw [hrun]
      exact ih (fun j hj => hsize ▸ hfit j (List.mem_cons_of_mem k hj)) hfind

/-! ## Simulation -/

/-- The values with which a simulation starts: those of the row, and 0 beyond it. -/
def Bits.ofRow (row : List Bool) : Bits := fun q => row[q]?.getD false

/-- A row that is filled up with 0 gives a register of the wanted size. -/
theorem Register.size_fill {row : List Bool} {n : Nat} (h : row.length ≤ n) :
    (row ++ List.replicate (n - row.length) false).toArray.size = n := by
  simp
  omega

/-- The values that the gates of a circuit lead to. -/
def Circuit.final (c : Circuit) (s : Bits) : Bits := actGates .idle c.gates s

/-- A circuit without black boxes whose gates fit its register can be simulated on every row that is not too long, and the
simulation gives the values that its gates lead to. -/
theorem Circuit.simulate_eq {c : Circuit} {row : List Bool} (hfit : ∀ g ∈ c.gates, g.Fits c.numQubits)
    (hbox : ∀ g ∈ c.gates, g.kind.isBlackBox = false) (hrow : row.length ≤ c.numQubits) :
    ∃ s, c.simulate row = .ok s ∧ s.size = c.numQubits ∧ s.bits = c.final (Bits.ofRow row) := by
  have hsize := Register.size_fill hrow
  obtain ⟨s, h1, h2, h3⟩ := runGates_eq
    (s := (row ++ List.replicate (c.numQubits - row.length) false).toArray) (by rw [hsize]; exact hfit) hbox
  refine ⟨s, ?_, h2.trans hsize, ?_⟩
  · unfold simulate
    rw [if_neg (by omega), h1]
  · rw [h3, Circuit.final]
    congr 1
    rw [Register.bits_toArray]
    funext q
    unfold Bits.ofRow
    by_cases hq : q < row.length
    · rw [List.getElem?_append_left hq]
    · have hle : row.length ≤ q := Nat.not_lt.1 hq
      rw [List.getElem?_append_right hle, List.getElem?_eq_none hle, List.getElem?_replicate]
      split <;> rfl

/-- A circuit of gates of the NOT family can be simulated, and puts on each qubit what its gates lead to. -/
theorem Circuit.simulate_bits {c : Circuit} {n : Nat} {row : List Bool} (hn : c.numQubits = n)
    (hgates : ∀ g ∈ c.gates, g.Flips n) (hrow : row.length ≤ n) :
    ∃ s, c.simulate row = .ok s ∧ ∀ q, q < n → s[q]? = some (c.final (.ofRow row) q) := by
  subst hn
  obtain ⟨s, hs, hsize, hbits⟩ := Circuit.simulate_eq (fun g hg => (hgates g hg).fits)
    (fun g hg => GateKind.isBlackBox_of_isClassical (hgates g hg).classical) hrow
  exact ⟨s, hs, fun q hq => by rw [Register.getElem?_eq_some_bits (hsize ▸ hq), hbits]⟩

end ReversibleLogic
