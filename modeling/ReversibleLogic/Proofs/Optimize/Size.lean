import ReversibleLogic.Proofs.Optimize.Preserve

/-!
# Optimization never grows a circuit

A section is replaced by fewer gates than it has, or stays; all other gates stay; and cancelling at the end takes gates away. So
either an optimized circuit is what cancelling leaves of the circuit, or it has fewer gates than the circuit, barriers not counted
(`Optimizer.numGates_optimize`). In both cases nothing in it cancels.
-/

namespace ReversibleLogic

/-- How many of the gates are not barriers. -/
def countGates (gs : List Gate) : Nat := gs.countP fun g => !g.kind.isBarrier

theorem Circuit.numGates_eq (c : Circuit) : c.numGates = countGates c.gates := rfl

theorem countGates_append (gs hs : List Gate) : countGates (gs ++ hs) = countGates gs + countGates hs := List.countP_append

/-- Gates of the NOT family all count. -/
theorem countGates_of_classical {gs : List Gate} (h : ∀ g ∈ gs, g.kind.isClassical = true) : countGates gs = gs.length :=
  List.countP_eq_length.2 fun g hg => by simp [GateKind.isBarrier_of_isClassical (h g hg)]

/-- As many gates count elsewhere as count here. -/
theorem countGates_mapQubits (f : Qubit → Qubit) (gs : List Gate) : countGates (gs.map (Gate.mapQubits f)) = countGates gs := by
  rw [countGates, List.countP_map]
  rfl

/-- The gates are the same, or fewer of them count. -/
def SameOrFewer (gs new : List Gate) : Prop := new = gs ∨ countGates new < countGates gs

theorem SameOrFewer.refl (gs : List Gate) : SameOrFewer gs gs := Or.inl rfl

/-- Fewer of the gates count as soon as fewer count in one part. -/
theorem SameOrFewer.append {gs gs' new new' : List Gate} (h : SameOrFewer gs new) (h' : SameOrFewer gs' new') :
    SameOrFewer (gs ++ gs') (new ++ new') := by
  rcases h with rfl | h
  · rcases h' with rfl | h'
    · exact .refl _
    · right
      rw [countGates_append, countGates_append]
      omega
  · right
    have hle : countGates new' ≤ countGates gs' := h'.elim (fun hsame => Nat.le_of_eq (hsame ▸ rfl)) Nat.le_of_lt
    rw [countGates_append, countGates_append]
    omega

namespace Optimizer

variable {o : Optimizer} {c c' d : Circuit} {s : Section} {symbols : List Symbol} {gates : List Gate}
  {first : Array (Option Nat)} {preserve : Option (List Qubit)} {sections : List Section}

/-- What is put in the place of a section has fewer gates than the section. -/
def Shortens (s : Section) (r : Option Circuit) : Prop := ∀ d, r = some d → d.numGates < s.gates.length

/-- A section is only replaced by fewer gates. -/
theorem shortens_replacement? {r : Option Circuit} (h : o.replacement? first preserve s = .ok r) : Shortens s r := by
  rintro d rfl
  unfold replacement? at h
  dsimp only at h
  split at h
  · cases Outcome.pure_eq_ok.1 h
  · split at h
    · cases Outcome.pure_eq_ok.1 h
    · next hsize =>
      obtain ⟨same, -, hret⟩ := Outcome.bind_eq_ok.1 h
      cases same with
      | false => cases Outcome.pure_eq_ok.1 hret
      | true =>
        obtain rfl := Option.some.inj (Outcome.pure_eq_ok.1 hret)
        exact Nat.not_le.1 fun hle => hsize (Or.inr hle)

/-- What is put in the place of a section is to its gates as `Rel` says. -/
def PutFor (Rel : List Gate → List Gate → Prop) (s : Section) (r : Option Circuit) : Prop :=
  ∀ d, r = some d → Rel s.gates (d.gates.map (Gate.mapQubits (place s.qubits)))

/-- Gates that are accepted are appended. -/
theorem appended_appendGates {gs : List Gate} (h : appendGates c gs = .ok c') : c.Appended gs c' :=
  Circuit.appended_appendAll (Outcome.mapError_eq_ok.1 h)

section Splice

variable {Rel : List Gate → List Gate → Prop} (hrefl : ∀ gs, Rel gs gs)
  (happend : ∀ {gs gs' new new'}, Rel gs new → Rel gs' new' → Rel (gs ++ gs') (new ++ new'))

include hrefl in
/-- A section is appended as it is, or what was put for it. -/
theorem appended_appendSection {r : Option Circuit} (hr : PutFor Rel s r) (h : appendSection c s r = .ok c') :
    ∃ new, c.Appended new c' ∧ Rel s.gates new := by
  cases r with
  | none => exact ⟨_, appended_appendGates h, hrefl _⟩
  | some d =>
    unfold appendSection at h
    dsimp only at h
    split at h
    · next c₁ happ =>
      obtain rfl := Except.ok.inj h
      exact ⟨_, Circuit.appended_appendCircuit happ, hr d rfl⟩
    · cases h

include hrefl happend in
/-- A relation of gate lists that gates have to themselves, and that can be put together from parts, holds between the gates of a
circuit and what is put together along its sections, if it holds at each section. The induction is on the sections. -/
theorem appended_splice {cursor : Nat} (hlaid : Laid symbols gates cursor sections) :
    ∀ {replacements : List (Option Circuit)} {c c' : Circuit}, List.Forall₂ (PutFor Rel) sections replacements →
      splice gates cursor c (sections.zip replacements) = .ok c' → ∃ new, c.Appended new c' ∧ Rel (gates.drop cursor) new := by
  induction hlaid with
  | nil cursor =>
    intro replacements c c' hr h
    cases hr
    exact ⟨_, appended_appendGates h, hrefl _⟩
  | @cons cursor s sections hstart hstop hgates hs _ ih =>
    intro replacements c c' hr h
    cases hr with
    | @cons _ r _ replacements hr hrs =>
      obtain ⟨c₁, hbefore, hrest⟩ := Outcome.bind_eq_ok.1 h
      obtain ⟨c₂, hsection, hafter⟩ := Outcome.bind_eq_ok.1 hrest
      obtain ⟨new, happ, hnew⟩ := appended_appendSection hrefl hr hsection
      obtain ⟨later, happ', hlater⟩ := ih hrs hafter
      rw [drop_eq_stretch hstart, drop_eq_stretch hstop, ← hgates]
      exact ⟨_, (appended_appendGates hbefore).trans (happ.trans happ'), happend (hrefl _) (happend hnew hlater)⟩

end Splice

/-- In the place of a section fewer gates are put than it has. -/
theorem Shortens.putFor {r : Option Circuit} (hs : s.Faithful symbols) (hr : Shortens s r) : PutFor SameOrFewer s r := by
  rintro d rfl
  have hcount : countGates s.gates = s.gates.length := countGates_of_classical fun g hg => (hs.flips g hg).classical
  right
  rw [countGates_mapQubits, ← Circuit.numGates_eq, hcount]
  exact hr d rfl

/-- Nothing in an optimized circuit cancels. If no section has been replaced, it has the gates that cancelling leaves of the
circuit, and otherwise fewer gates than the circuit. -/
theorem numGates_optimize (hfit : ∀ g ∈ c.gates, g.Fits c.numQubits) (h : o.optimize c preserve = .ok d) :
    d.removeIdentities.2 = 0 ∧ (d.numGates = c.removeIdentities.1.numGates ∨ d.numGates < c.numGates) := by
  obtain ⟨sections, hsections, hrest⟩ := Outcome.bind_eq_ok.1 h
  obtain ⟨first, -, hrest⟩ := Outcome.bind_eq_ok.1 hrest
  obtain ⟨replacements, hreplace, hrest⟩ := Outcome.bind_eq_ok.1 hrest
  obtain ⟨out, hsplice, hret⟩ := Outcome.bind_eq_ok.1 hrest
  obtain rfl := Outcome.pure_eq_ok.1 hret
  have hlaid := laid_decompile hfit hsections
  have hput := replaceAll_eq_ok (fun s hs r hr => (shortens_replacement? hr).putFor (hlaid.faithful s hs)) hreplace
  obtain ⟨new, happ, hnew⟩ := appended_splice .refl .append hlaid hput hsplice
  have hgates : out.gates = new := happ.gates
  refine ⟨congrArg Prod.snd out.removeIdentities_removeIdentities, hnew.imp (fun hsame => ?_) fun hfewer => ?_⟩
  · exact congrArg (fun gs => countGates (cancelPairs gs)) (hgates.trans hsame)
  · rw [← hgates] at hfewer
    exact Nat.lt_of_le_of_lt out.numGates_removeIdentities_le hfewer

/-- An optimized circuit has no more gates than the circuit. -/
theorem numGates_optimize_le (hfit : ∀ g ∈ c.gates, g.Fits c.numQubits) (h : o.optimize c preserve = .ok d) :
    d.numGates ≤ c.numGates := by
  rcases (numGates_optimize hfit h).2 with hsame | hfewer
  · exact hsame ▸ c.numGates_removeIdentities_le
  · exact Nat.le_of_lt hfewer

end Optimizer

end ReversibleLogic
