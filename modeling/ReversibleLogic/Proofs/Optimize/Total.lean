import ReversibleLogic.Proofs.Optimize.Preserve
import ReversibleLogic.Proofs.Section.Faithful

/-!
# Optimization never fails

A circuit whose gates fit its register can be optimized, whatever the simplifier does, as long as it puts in no black box
(`optimize_total`). Every step finds what it needs: the circuit can be read, a candidate can be read because its gates fit, and
the gates that take the place of a section are accepted because a section has distinct qubits of the register. Every gate of the
result is a gate of the circuit or of the NOT family, and the names are those of the circuit.
-/

namespace ReversibleLogic

variable {gates : List Gate}

/-! ## First touches -/

/-- The qubits of a gate that fits can be noted. -/
theorem noteTouched_total (index : Nat) {qs : List Qubit} : ∀ {first : Array (Option Nat)}, (∀ q ∈ qs, q < first.size) →
    ∃ first', noteTouched index first qs = .ok first' ∧ first'.size = first.size := by
  induction qs with
  | nil => exact fun {first} _ => ⟨first, rfl, rfl⟩
  | cons q qs ih =>
    intro first h
    unfold noteTouched
    rw [if_pos (h q List.mem_cons_self)]
    have hqs : ∀ p ∈ qs, p < (first.modify q fun t => some (t.getD index)).size := fun p hp => by
      rw [Array.size_modify]
      exact h p (List.mem_cons_of_mem q hp)
    obtain ⟨first', hrest, hsize⟩ := ih hqs
    exact ⟨first', hrest, hsize.trans (Array.size_modify ..)⟩

/-- So can those of all gates. -/
theorem firstTouchFrom_total : ∀ (index : Nat) {first : Array (Option Nat)}, (∀ g ∈ gates, g.Fits first.size) →
    ∃ first', firstTouchFrom index first gates = .ok first' := by
  induction gates with
  | nil => exact fun _ first _ => ⟨first, rfl⟩
  | cons g gates ih =>
    intro index first h
    have hrest : ∀ k ∈ gates, k.Fits first.size := fun k hk => h k (List.mem_cons_of_mem g hk)
    unfold firstTouchFrom
    by_cases hb : g.kind.isBarrier = true
    · rw [if_pos hb]
      exact ih (index + 1) hrest
    · rw [if_neg hb]
      obtain ⟨first₁, hg, hsize⟩ := noteTouched_total index (h g List.mem_cons_self).range
      have hrest₁ : ∀ k ∈ gates, k.Fits first₁.size := hsize ▸ hrest
      obtain ⟨first', hlater⟩ := ih (index + 1) hrest₁
      exact ⟨first', Outcome.bind_eq_ok.2 ⟨first₁, hg, hlater⟩⟩

/-- The first touches of a circuit whose gates fit its register can be noted. -/
theorem Circuit.firstTouch_total {c : Circuit} (hfit : ∀ g ∈ c.gates, g.Fits c.numQubits) : ∃ first, c.firstTouch = .ok first :=
  firstTouchFrom_total 0 (by rwa [Array.size_replicate])

namespace Optimizer

variable {o : Optimizer} {c c' : Circuit} {s : Section} {symbols : List Symbol}
  {sections : List Section}

/-! ## Replacements -/

/-- What is put in the place of a section is over its symbols and of gates of the NOT family. -/
def Suits (s : Section) (r : Option Circuit) : Prop :=
  ∀ d, r = some d → d.labels = s.symbolNames ∧ ∀ g ∈ d.gates, g.Flips d.numQubits

/-- A replacement is looked for without failure: a candidate has gates that fit it, so it can be read. -/
theorem replacement?_total (hs : s.Faithful symbols)
    (hsimp : ∀ e, e.isBoolean = true → (o.simplifier.simplify e).isBoolean = true) (first : Array (Option Nat))
    (preserve : Option (List Qubit)) :
    ∃ r, o.replacement? first preserve s = .ok r ∧ Suits s r := by
  have hfound : ∃ r, o.replacement? first preserve s = .ok r := by
    unfold replacement?
    dsimp only
    split
    · exact ⟨none, rfl⟩
    · next candidate hcompile =>
      obtain ⟨-, hgates⟩ := compileInPlace_spec (isBoolean_assignments hs hsimp) hcompile
      split
      · exact ⟨none, rfl⟩
      · obtain ⟨read, hread⟩ := Circuit.decompile_total (fun g hg => (hgates g hg).fits) none
        exact ⟨_, Outcome.bind_eq_ok.2 ⟨_, Outcome.bind_eq_ok.2 ⟨read, hread, rfl⟩, rfl⟩⟩
  obtain ⟨r, hr⟩ := hfound
  refine ⟨r, hr, ?_⟩
  rintro d rfl
  obtain ⟨hlabels, hgates, -⟩ := replacement?_eq_ok hs hsimp hr
  exact ⟨hlabels, hgates⟩

/-- Every section gets its replacement or none, without an error. -/
theorem replaceAll_total (hsimp : ∀ e, e.isBoolean = true → (o.simplifier.simplify e).isBoolean = true)
    (hs : ∀ s ∈ sections, s.Faithful symbols) (first : Array (Option Nat)) (preserve : Option (List Qubit)) :
    ∃ replacements, o.replaceAll first preserve sections = .ok replacements ∧ List.Forall₂ Suits sections replacements := by
  induction sections with
  | nil => exact ⟨[], rfl, .nil⟩
  | cons s sections ih =>
    obtain ⟨later, hlater, hsuit⟩ := ih fun s' hs' => hs s' (List.mem_cons_of_mem s hs')
    obtain ⟨r, hr, hsuit'⟩ := replacement?_total (hs s List.mem_cons_self) hsimp first preserve
    exact ⟨r :: later, Outcome.bind_eq_ok.2 ⟨later, hlater, Outcome.bind_eq_ok.2 ⟨r, hr, rfl⟩⟩, .cons hsuit' hsuit⟩

/-! ## Putting the circuit together -/

/-- `c'` is `c` with gates appended, each of them one of `gates` or of the NOT family. -/
def Extends (gates : List Gate) (c c' : Circuit) : Prop :=
  ∃ new, c.Appended new c' ∧ ∀ g ∈ new, g ∈ gates ∨ g.kind.isClassical = true

theorem Extends.numQubits (h : Extends gates c c') : c'.numQubits = c.numQubits := by
  obtain ⟨new, happ, -⟩ := h
  exact happ.numQubits

theorem Extends.trans {c'' : Circuit} (h₁ : Extends gates c c') (h₂ : Extends gates c' c'') : Extends gates c c'' := by
  obtain ⟨new₁, happ₁, hnew₁⟩ := h₁
  obtain ⟨new₂, happ₂, hnew₂⟩ := h₂
  exact ⟨new₁ ++ new₂, happ₁.trans happ₂, fun g hg => (List.mem_append.1 hg).elim (hnew₁ g) (hnew₂ g)⟩

/-- Gates of the circuit are accepted. -/
theorem appendGates_total {gs : List Gate} (hgs : ∀ g ∈ gs, g ∈ gates) (hfit : ∀ g ∈ gates, g.Fits c.numQubits) :
    ∃ c', appendGates c gs = .ok c' ∧ Extends gates c c' := by
  obtain ⟨c', hc'⟩ := Circuit.appendAll_total fun g hg => hfit g (hgs g hg)
  exact ⟨c', Outcome.mapError_eq_ok.2 hc', gs, Circuit.appended_appendAll hc', fun g hg => Or.inl (hgs g hg)⟩

/-- A section's own gates are accepted, and so is what takes their place. -/
theorem appendSection_total {r : Option Circuit} (hs : s.Faithful symbols) (hgs : ∀ g ∈ s.gates, g ∈ gates)
    (hfit : ∀ g ∈ gates, g.Fits symbols.length) (hc : c.numQubits = symbols.length) (hr : Suits s r) :
    ∃ c', appendSection c s r = .ok c' ∧ Extends gates c c' := by
  cases r with
  | none => exact appendGates_total hgs (hc ▸ hfit)
  | some d =>
    obtain ⟨hlabels, hgates⟩ := hr d rfl
    have hnum : d.numQubits = s.qubits.length := by
      rw [Circuit.numQubits, hlabels, hs.names, List.length_map]
    obtain ⟨c', hc'⟩ := Circuit.appendCircuit_total (c := c) (Nat.le_of_eq hnum)
      (fun p q hp hq => place_inj hs.qubits.1 (hnum ▸ hp) (hnum ▸ hq))
      (fun q hq => hc ▸ hs.range (place_mem (hnum ▸ hq))) fun g hg => (hgates g hg).fits
    refine ⟨c', by rw [appendSection, hc'], _, Circuit.appended_appendCircuit hc', fun g hg => Or.inr ?_⟩
    obtain ⟨k, hk, rfl⟩ := List.mem_map.1 hg
    exact (hgates k hk).classical

/-- Along the sections everything that is appended is accepted. The induction is on the sections. -/
theorem splice_total {cursor : Nat} (hlaid : Laid symbols gates cursor sections) (hfit : ∀ g ∈ gates, g.Fits symbols.length) :
    ∀ {replacements : List (Option Circuit)} {c : Circuit}, List.Forall₂ Suits sections replacements →
      c.numQubits = symbols.length → ∃ c', splice gates cursor c (sections.zip replacements) = .ok c' ∧ Extends gates c c' := by
  induction hlaid with
  | nil cursor =>
    intro replacements c hr hc
    cases hr
    exact appendGates_total (fun g hg => List.mem_of_mem_drop hg) (hc ▸ hfit)
  | @cons cursor s sections hstart hstop hgates hs _ ih =>
    intro replacements c hr hc
    cases hr with
    | @cons _ r _ replacements hr hrs =>
      have hgs : ∀ g ∈ s.gates, g ∈ gates := fun g hg => List.mem_of_mem_take (List.mem_of_mem_drop (hgates ▸ hg))
      have hbetween : ∀ g ∈ (gates.take s.start).drop cursor, g ∈ gates := fun g hg =>
        List.mem_of_mem_take (List.mem_of_mem_drop hg)
      obtain ⟨c₁, hbefore, h₁⟩ := appendGates_total (c := c) hbetween (hc ▸ hfit)
      obtain ⟨c₂, hsection, h₂⟩ := appendSection_total hs hgs hfit (h₁.numQubits.trans hc) hr
      obtain ⟨c₃, hafter, h₃⟩ := ih hrs (h₂.numQubits.trans (h₁.numQubits.trans hc))
      exact ⟨c₃, Outcome.bind_eq_ok.2 ⟨c₁, hbefore, Outcome.bind_eq_ok.2 ⟨c₂, hsection, hafter⟩⟩, h₁.trans (h₂.trans h₃)⟩

/-- A circuit whose gates fit its register can be optimized. The result has the names of the circuit, and each of its gates is a
gate of the circuit or of the NOT family. -/
theorem optimize_total (hfit : ∀ g ∈ c.gates, g.Fits c.numQubits)
    (hsimp : ∀ e, e.isBoolean = true → (o.simplifier.simplify e).isBoolean = true) (preserve : Option (List Qubit)) :
    ∃ d, o.optimize c preserve = .ok d ∧ d.names = c.names ∧ ∀ g ∈ d.gates, g ∈ c.gates ∨ g.kind.isClassical = true := by
  obtain ⟨sections, hsections⟩ := Circuit.decompile_total hfit (some o.options.maxExpressionSize)
  obtain ⟨first, hfirst⟩ := Circuit.firstTouch_total hfit
  have hlaid := laid_decompile hfit hsections
  obtain ⟨replacements, hreplace, hsuits⟩ := replaceAll_total hsimp hlaid.faithful first preserve
  have hnum : c.numQubits = (uniqueSymbols c.labels).length := (length_uniqueSymbols c.labels).symm
  obtain ⟨out, hsplice, new, happ, hnew⟩ := splice_total hlaid (hnum ▸ hfit) (c := c.emptyLike) hsuits hnum
  refine ⟨out.removeIdentities.1, ?_, happ.names, fun g hg => hnew g ?_⟩
  · exact Outcome.bind_eq_ok.2 ⟨sections, hsections, Outcome.bind_eq_ok.2 ⟨first, Outcome.mapError_eq_ok.2 hfirst,
      Outcome.bind_eq_ok.2 ⟨replacements, hreplace, Outcome.bind_eq_ok.2 ⟨out, hsplice, rfl⟩⟩⟩⟩
  · have hgates : out.gates = new := happ.gates
    exact hgates ▸ mem_cancelPairs hg

end Optimizer

end ReversibleLogic
