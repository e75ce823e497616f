import ReversibleLogic.Proofs.Cancel
import ReversibleLogic.Proofs.Compile.InPlace
import ReversibleLogic.Proofs.Optimize.Compare

/-!
# An optimized circuit does what the circuit does

The gates of the optimized circuit are put together along the sections. At each section the values are those that the circuit
itself has there, so a replacement has to be right for these only: where a qubit is taken to hold 0 it has not been touched since
the start (`firstTouch_spec`), and what passes the comparison does what the section does (`replaces_replacement?`). Nothing is
asked of the simplifier but that it puts in no black box.
-/

namespace ReversibleLogic

variable {box : Reading} {q : Qubit} {gates : List Gate} {index : Nat} {first first' : Array (Option Nat)}

/-! ## Qubits that have not been touched -/

/-- What is known of a qubit after more qubits have been touched. -/
theorem noteTouched_eq_ok {qs : List Qubit} : ∀ {first : Array (Option Nat)}, noteTouched index first qs = .ok first' →
    first'[q]? = if q ∈ qs then first[q]?.map fun t => some (t.getD index) else first[q]? := by
  induction qs with
  | nil =>
    intro first h
    rw [← Except.ok.inj h, if_neg List.not_mem_nil]
  | cons p qs ih =>
    intro first h
    unfold noteTouched at h
    split at h
    · rw [ih h, Array.getElem?_modify]
      by_cases hp : p = q
      · subst hp
        simp only [if_true, List.mem_cons_self]
        cases first[p]? <;> simp
      · simp only [if_neg hp, List.mem_cons, Ne.symm hp, false_or]
    · cases h

/-- What is known of a qubit after one more gate has been looked at. -/
theorem firstTouchFrom_cons {g : Gate} (h : firstTouchFrom index first (g :: gates) = .ok first') :
    ∃ first₁ : Array (Option Nat), firstTouchFrom (index + 1) first₁ gates = .ok first' ∧
      first₁[q]? = if g.kind.isBarrier = true ∨ q ∉ g.qubits then first[q]? else
        first[q]?.map fun t => some (t.getD index) := by
  unfold firstTouchFrom at h
  by_cases hb : g.kind.isBarrier = true
  · rw [if_pos hb] at h
    exact ⟨first, h, by simp [hb]⟩
  · rw [if_neg hb] at h
    obtain ⟨first₁, hg, hrest⟩ := Outcome.bind_eq_ok.1 h
    refine ⟨first₁, hrest, ?_⟩
    rw [noteTouched_eq_ok hg]
    by_cases hq : q ∈ g.qubits
    · simp [hb, hq]
    · simp [hq]

/-- A qubit whose first touch is noted at position `i` had it noted before, or no gate before that position touches it. -/
theorem firstTouchFrom_eq_ok : ∀ {index : Nat} {first : Array (Option Nat)}, firstTouchFrom index first gates = .ok first' →
    ∀ {i : Nat}, first'[q]? = some (some i) → first[q]? = some (some i) ∨
      first[q]? = some none ∧ index ≤ i ∧ ∀ g ∈ gates.take (i - index), g.kind.isBarrier = true ∨ q ∉ g.qubits := by
  induction gates with
  | nil =>
    intro index first h i hi
    obtain rfl := Except.ok.inj h
    exact Or.inl hi
  | cons g gates ih =>
    intro index first h i hi
    obtain ⟨first₁, hrest, hnoted⟩ := firstTouchFrom_cons (q := q) h
    by_cases hfree : g.kind.isBarrier = true ∨ q ∉ g.qubits
    · rw [if_pos hfree] at hnoted
      rcases ih hrest hi with hi | ⟨hnone, hle, htake⟩
      · exact Or.inl (hnoted ▸ hi)
      · refine Or.inr ⟨hnoted ▸ hnone, Nat.le_of_succ_le hle, ?_⟩
        have hsplit : i - index = i - (index + 1) + 1 := by omega
        rw [hsplit, List.take_succ_cons]
        intro k hk
        rcases List.mem_cons.1 hk with rfl | hk
        · exact hfree
        · exact htake k hk
    · rw [if_neg hfree] at hnoted
      have hnow : first₁[q]? = some (some i) := by
        rcases ih hrest hi with hi | ⟨hnone, -⟩
        · exact hi
        · rw [hnone] at hnoted
          cases hfirst : first[q]? with
          | none => simp [hfirst] at hnoted
          | some t => simp [hfirst] at hnoted
      rw [hnow] at hnoted
      cases hfirst : first[q]? with
      | none => simp [hfirst] at hnoted
      | some t =>
        cases t with
        | none =>
          obtain rfl : i = index := by simpa [hfirst] using hnoted
          exact Or.inr ⟨rfl, Nat.le_refl i, by simp⟩
        | some j =>
          obtain rfl : i = j := by simpa [hfirst] using hnoted
          exact Or.inl rfl

/-- No gate before the noted position touches the qubit. -/
theorem firstTouch_spec {c : Circuit} {i : Nat} (h : c.firstTouch = .ok first) (hi : first[q]? = some (some i)) :
    ∀ g ∈ c.gates.take i, g.kind.isBarrier = true ∨ q ∉ g.qubits := by
  rcases firstTouchFrom_eq_ok h hi with hsome | ⟨-, -, htake⟩
  · rw [Array.getElem?_replicate] at hsome
    split at hsome <;> cases hsome
  · exact htake

/-- A qubit that no gate but barriers touches keeps its value. -/
theorem actGates_of_untouched {gs : List Gate} (h : ∀ g ∈ gs, g.kind.isBarrier = true ∨ q ∉ g.qubits) (b : Bits) :
    actGates box gs b q = b q := by
  induction gs generalizing b with
  | nil => rfl
  | cons g gs ih =>
    rw [actGates_cons, ih (fun k hk => h k (List.mem_cons_of_mem g hk))]
    rcases h g List.mem_cons_self with hb | hq
    · rw [Gate.act_of_isBarrier hb]
    · exact Gate.act_of_not_mem hq b

/-! ## Replacements -/

namespace Optimizer

variable {o : Optimizer} {c d : Circuit} {s : Section} {symbols : List Symbol} {preserve : Option (List Qubit)} {b : Bits}
  {sections : List Section}

/-- A symbol is taken to hold 0 if its qubit starts at 0 and is not touched before the section. -/
theorem mem_zeroed {name : Symbol} (hs : s.Faithful symbols) (h : name ∈ s.zeroed first preserve) :
    ∃ l, preserve = some l ∧ ∃ q ∈ s.qubits, name = Run.symbolOf symbols q ∧ q ∉ l ∧
      ∃ i, first[q]? = some (some i) ∧ s.start ≤ i := by
  cases preserve with
  | none => cases h
  | some l =>
    obtain ⟨⟨r, q⟩, hmem, rfl⟩ := List.mem_map.1 h
    obtain ⟨hin, hcond⟩ := List.mem_filter.1 hmem
    have hname : r = Run.symbolOf symbols q := by
      have hnames := hs.names
      rw [Section.symbolNames, Section.qubits, List.map_map, List.map_inj_left] at hnames
      exact hnames (r, q) hin
    refine ⟨l, rfl, q, List.mem_map_of_mem hin, hname, ?_⟩
    rw [Bool.and_eq_true] at hcond
    refine ⟨by simpa using hcond.1, ?_⟩
    cases hf : first[q]? with
    | none => simp [hf] at hcond
    | some t =>
      cases t with
      | none => simp [hf] at hcond
      | some i => exact ⟨i, rfl, by simpa [hf] using hcond.2⟩

/-- The assignments that a section is simplified to have no black boxes. -/
theorem isBoolean_assignments {zeroed : List Symbol} (hs : s.Faithful symbols)
    (hsimp : ∀ e, e.isBoolean = true → (o.simplifier.simplify e).isBoolean = true) :
    ∀ a ∈ o.assignments s zeroed, a.expr.isBoolean = true := by
  intro a ha
  obtain ⟨⟨name, e⟩, hmem, ha⟩ := List.mem_filterMap.1 ha
  have hvalue : (o.simplifier.simplify (e.substitute (zeros zeroed))).isBoolean = true := by
    refine hsimp _ (Expression.isBoolean_substitute (fun r d hd => ?_) (hs.boolean (name, e) hmem))
    unfold zeros at hd
    split at hd <;> cases hd
    rfl
  obtain ⟨-, ha⟩ := Option.ite_none_left_eq_some.1 ha
  rw [← Option.some.inj ha]
  exact hvalue

/-- What is put in the place of a section has the section's symbols on its qubits, gates of the NOT family, and has passed the
comparison. -/
theorem replacement?_eq_ok (hs : s.Faithful symbols)
    (hsimp : ∀ e, e.isBoolean = true → (o.simplifier.simplify e).isBoolean = true)
    (h : o.replacement? first preserve s = .ok (some d)) :
    d.labels = s.symbolNames ∧ (∀ g ∈ d.gates, g.Flips d.numQubits) ∧
      o.equivalent s d (s.zeroed first preserve) = .ok true := by
  unfold replacement? at h
  dsimp only at h
  split at h
  · cases Outcome.pure_eq_ok.1 h
  · next candidate hcompile =>
    obtain ⟨hlabels, hgates⟩ := compileInPlace_spec (isBoolean_assignments hs hsimp) hcompile
    split at h
    · cases Outcome.pure_eq_ok.1 h
    · next hsize =>
      obtain ⟨same, hsame, hret⟩ := Outcome.bind_eq_ok.1 h
      cases same with
      | false => cases Outcome.pure_eq_ok.1 hret
      | true =>
        obtain rfl := Option.some.inj (Outcome.pure_eq_ok.1 hret)
        rw [not_or, not_not] at hsize
        refine ⟨(hlabels.eq_of_length ?_).symm, hgates, hsame⟩
        rw [Section.symbolNames, List.length_map]
        exact hsize.1.symm

/-- From the values that the gates lead to at the start of the section, what is put in its place does what the section does. -/
def Replaces (box : Reading) (gates : List Gate) (b : Bits) (s : Section) (r : Option Circuit) : Prop :=
  ∀ d, r = some d → actGates box (d.gates.map (Gate.mapQubits (place s.qubits))) (actGates box (gates.take s.start) b) =
    actGates box s.gates (actGates box (gates.take s.start) b)

/-- The replacement of a section does what the section does. What is taken to hold 0 is at 0 when the section starts. -/
theorem replaces_replacement? {r : Option Circuit} (hsym : symbols.Nodup) (hs : s.Faithful symbols)
    (hsimp : ∀ e, e.isBoolean = true → (o.simplifier.simplify e).isBoolean = true) (hfirst : c.firstTouch = .ok first)
    (hzero : ∀ l, preserve = some l → ∀ q, q ∉ l → b q = false) (h : o.replacement? first preserve s = .ok r) :
    Replaces box c.gates b s r := by
  rintro d rfl
  obtain ⟨hlabels, hgates, hsame⟩ := replacement?_eq_ok hs hsimp h
  refine act_eq_of_equivalent hsym hs hlabels hgates hsame fun name hname => ?_
  obtain ⟨l, hl, q, hq, hsymbol, hnot, i, hi, hle⟩ := mem_zeroed hs hname
  refine ⟨q, hq, hsymbol, ?_⟩
  have huntouched : ∀ g ∈ c.gates.take s.start, g.kind.isBarrier = true ∨ q ∉ g.qubits := fun g hg =>
    firstTouch_spec hfirst hi g ((List.take_subset_take_left c.gates hle) hg)
  rw [actGates_of_untouched huntouched, hzero l hl q hnot]

/-- What holds of every section and its replacement holds of the sections and the replacements that are found. -/
theorem replaceAll_eq_ok {P : Section → Option Circuit → Prop} : ∀ {replacements : List (Option Circuit)},
    (∀ s ∈ sections, ∀ r, o.replacement? first preserve s = .ok r → P s r) →
    o.replaceAll first preserve sections = .ok replacements → List.Forall₂ P sections replacements := by
  induction sections with
  | nil =>
    intro replacements _ h
    obtain rfl := Except.ok.inj h
    exact .nil
  | cons s sections ih =>
    intro replacements hP h
    obtain ⟨later, hlater, hrest⟩ := Outcome.bind_eq_ok.1 h
    obtain ⟨r, hr, hret⟩ := Outcome.bind_eq_ok.1 hrest
    obtain rfl := Outcome.pure_eq_ok.1 hret
    exact .cons (hP s List.mem_cons_self r hr) (ih (fun s' hs' => hP s' (List.mem_cons_of_mem s hs')) hlater)

/-! ## Putting the circuit together -/

/-- `c'` is `c` with gates appended that do, from the values `b`, what the gates `gs` do. -/
def Continues (box : Reading) (c c' : Circuit) (gs : List Gate) (b : Bits) : Prop :=
  ∃ new, c.Appended new c' ∧ actGates box new b = actGates box gs b

theorem Continues.trans {c c₁ c₂ : Circuit} {gs hs : List Gate} (h₁ : Continues box c c₁ gs b)
    (h₂ : Continues box c₁ c₂ hs (actGates box gs b)) : Continues box c c₂ (gs ++ hs) b := by
  obtain ⟨new₁, happ₁, hact₁⟩ := h₁
  obtain ⟨new₂, happ₂, hact₂⟩ := h₂
  exact ⟨new₁ ++ new₂, happ₁.trans happ₂, by rw [actGates_append, actGates_append, hact₁, hact₂]⟩

/-- Gates that are appended as they are act as they do. -/
theorem continues_appendGates {c c' : Circuit} {gs : List Gate} (h : appendGates c gs = .ok c') : Continues box c c' gs b :=
  ⟨gs, Circuit.appended_appendAll (Outcome.mapError_eq_ok.1 h), rfl⟩

/-- A section is followed by its own gates, or by a replacement that does the same. -/
theorem continues_appendSection {c c' : Circuit} {r : Option Circuit}
    (hr : Replaces box gates b s r) (h : appendSection c s r = .ok c') :
    Continues box c c' s.gates (actGates box (gates.take s.start) b) := by
  cases r with
  | none => exact continues_appendGates h
  | some d =>
    unfold appendSection at h
    dsimp only at h
    split at h
    · next c₁ happ =>
      obtain rfl := Except.ok.inj h
      exact ⟨_, Circuit.appended_appendCircuit happ, hr d rfl⟩
    · cases h

/-- The gates from one position to another and those after them. -/
theorem drop_eq_stretch {i j : Nat} (h : i ≤ j) (gates : List Gate) :
    gates.drop i = (gates.take j).drop i ++ gates.drop j := by
  have hdrop : gates.drop j = (gates.drop i).drop (j - i) := by
    rw [List.drop_drop, Nat.add_sub_cancel' h]
  rw [List.drop_take, hdrop, List.take_append_drop]

/-- What the gates up to one position and those from there to another do is what those up to the other do. -/
theorem act_stretch {i j : Nat} (h : i ≤ j) (gates : List Gate) (b : Bits) :
    actGates box ((gates.take j).drop i) (actGates box (gates.take i) b) = actGates box (gates.take j) b := by
  have htake : gates.take i = (gates.take j).take i := by rw [List.take_take, Nat.min_eq_left h]
  rw [← actGates_append, htake, List.take_append_drop]

/-- Along the sections, gates are put together that do what the gates of the circuit do. The induction is on the sections; between
two of them the values are those that the circuit has there. -/
theorem continues_splice {cursor : Nat} (hlaid : Laid symbols gates cursor sections) :
    ∀ {replacements : List (Option Circuit)} {c c' : Circuit}, List.Forall₂ (Replaces box gates b) sections replacements →
      splice gates cursor c (sections.zip replacements) = .ok c' →
      Continues box c c' (gates.drop cursor) (actGates box (gates.take cursor) b) := by
  induction hlaid with
  | nil cursor =>
    intro replacements c c' hr h
    cases hr
    exact continues_appendGates h
  | @cons cursor s sections hstart hstop hgates hs _ ih =>
    intro replacements c c' hr h
    cases hr with
    | @cons _ r _ replacements hr hrs =>
      obtain ⟨c₁, hbefore, hrest⟩ := Outcome.bind_eq_ok.1 h
      obtain ⟨c₂, hsection, hafter⟩ := Outcome.bind_eq_ok.1 hrest
      have hfirst : Continues box c c₁ _ (actGates box (gates.take cursor) b) := continues_appendGates hbefore
      have hmiddle := continues_appendSection hr hsection
      have hlast := ih hrs hafter
      rw [← act_stretch hstart] at hmiddle
      rw [← act_stretch hstop, ← act_stretch hstart, ← hgates] at hlast
      rw [drop_eq_stretch hstart, drop_eq_stretch hstop, ← hgates]
      exact hfirst.trans (hmiddle.trans hlast)

/-- The optimized circuit is on the same register, and from the values that are allowed for its gates do what the circuit's do. -/
theorem act_optimize (box : Reading) (hfit : ∀ g ∈ c.gates, g.Fits c.numQubits)
    (hsimp : ∀ e, e.isBoolean = true → (o.simplifier.simplify e).isBoolean = true)
    (h : o.optimize c preserve = .ok d) (hzero : ∀ l, preserve = some l → ∀ q, q ∉ l → b q = false) :
    d.labels = c.labels ∧ (∀ g ∈ d.gates, g.Fits c.numQubits) ∧ actGates box d.gates b = actGates box c.gates b := by
  obtain ⟨sections, hsections, hrest⟩ := Outcome.bind_eq_ok.1 h
  obtain ⟨first, hfirst, hrest⟩ := Outcome.bind_eq_ok.1 hrest
  obtain ⟨replacements, hreplace, hrest⟩ := Outcome.bind_eq_ok.1 hrest
  obtain ⟨out, hsplice, hret⟩ := Outcome.bind_eq_ok.1 hrest
  obtain rfl := Outcome.pure_eq_ok.1 hret
  have hlaid := laid_decompile hfit hsections
  have hright : List.Forall₂ (Replaces box c.gates b) sections replacements := by
    refine replaceAll_eq_ok (fun s hs r hr => ?_) hreplace
    exact replaces_replacement? (nodup_uniqueSymbols c.labels) (hlaid.faithful s hs) hsimp (Outcome.mapError_eq_ok.1 hfirst)
      hzero hr
  obtain ⟨new, happ, hact⟩ := continues_splice hlaid hright hsplice
  have hgates : out.gates = new := happ.gates
  have hnew : ∀ g ∈ out.gates, g.Fits c.numQubits := hgates ▸ happ.fits
  refine ⟨happ.labels, fun g hg => hnew g (mem_cancelPairs hg), ?_⟩
  refine (actGates_cancelPairs hnew b).trans ?_
  rw [hgates]
  exact hact

/-- An optimized circuit is on the register of the circuit and leaves the same value on every qubit, under every reading of black
boxes and from every start, or, if the qubits that carry a value are given, from every start with all others at 0. Of the
simplifier it is asked only that it puts in no black box. -/
theorem optimize_preserves (hvalid : ∀ g ∈ c.gates, c.validate g = .ok ())
    (hsimp : ∀ e, e.isBoolean = true → (o.simplifier.simplify e).isBoolean = true) (h : o.optimize c preserve = .ok d)
    (box : Reading) (s : Register) (hsize : s.size = c.numQubits)
    (hzero : ∀ l, preserve = some l → ∀ q, q < s.size → q ∉ l → s[q]? = some false) :
    d.numQubits = c.numQubits ∧ ∃ t, runGatesWith box c.gates s = .ok t ∧ runGatesWith box d.gates s = .ok t := by
  have hfit : ∀ g ∈ c.gates, g.Fits c.numQubits := fun g hg => Circuit.validate_eq_ok_iff.1 (hvalid g hg)
  have hbits : ∀ l, preserve = some l → ∀ q, q ∉ l → s.bits q = false := by
    intro l hl q hq
    by_cases hlt : q < s.size
    · have hbit := hzero l hl q hlt hq
      rw [Register.getElem?_eq_some_bits hlt] at hbit
      exact Option.some.inj hbit
    · exact Register.bits_of_size_le (Nat.not_lt.1 hlt)
  obtain ⟨hlabels, hfit', hact⟩ := act_optimize box hfit hsimp h hbits
  obtain ⟨t, ht, htsize, htbits⟩ := runGatesWith_eq box (s := s) (hsize ▸ hfit)
  obtain ⟨u, hu, husize, hubits⟩ := runGatesWith_eq box (s := s) (hsize ▸ hfit')
  have hsame : u = t := Register.eq_of_bits (husize.trans htsize.symm) (by rw [hubits, htbits, hact])
  exact ⟨congrArg List.length hlabels, t, ht, hsame ▸ hu⟩

/-- Two qubits that start at 0. The first gate does nothing then; the last flips the second qubit. -/
def idleCopy : Circuit where
  name := "idle copy"
  labels := ["a", "b"]
  gates := [.cx 0 1, { kind := .blackBox "u", qubits := [0] }, { kind := .barrier, qubits := [0, 1] }, .x 1]

/-- With a simplifier that takes everything for 0, the first gate goes and the last stays, and with a black box that flips its
qubit both circuits end at two ones. -/
theorem optimize_preserves_idleCopy : ∃ d : Circuit,
    optimize { simplifier := ⟨"zero", fun _ => .const false⟩ } idleCopy (some []) = .ok d ∧ d.gates = idleCopy.gates.drop 1 ∧
      ∃ t, runGatesWith (fun _ _ bits => bits.map not) idleCopy.gates #[false, false] = .ok t ∧ t = #[true, true] ∧
        runGatesWith (fun _ _ bits => bits.map not) d.gates #[false, false] = .ok t := by
  obtain ⟨d, hd⟩ := Outcome.exists_of_isOk
    (x := optimize { simplifier := ⟨"zero", fun _ => .const false⟩ } idleCopy (some [])) (by decide +kernel)
  have hgates : (optimize { simplifier := ⟨"zero", fun _ => .const false⟩ } idleCopy (some [])).toOption.map Circuit.gates =
      some (idleCopy.gates.drop 1) := by decide +kernel
  have hrun : (runGatesWith (fun _ _ bits => bits.map not) idleCopy.gates #[false, false]).toOption = some #[true, true] := by
    decide +kernel
  obtain ⟨-, t, ht, ht'⟩ := optimize_preserves (by decide) (fun _ _ => rfl) hd (fun _ _ bits => bits.map not) #[false, false] rfl
    (by decide)
  rw [hd] at hgates
  rw [ht] at hrun
  exact ⟨d, hd, Option.some.inj hgates, t, ht, Option.some.inj hrun, ht'⟩

end Optimizer

end ReversibleLogic
