import ReversibleLogic.Proofs.Section.Faithful

/-!
# Sections tile the gates

What the positions of the sections have to satisfy follows by induction along the tiles: they ascend and do not overlap, and a
position lies in one section or in none, by the kind of its gate. What a section lists is what its run has noted (`Run.Notes`).
Both together are `decompile_tiles`.
-/

namespace ReversibleLogic

variable {symbols : List Symbol} {all gates : List Gate} {index : Nat} {limit : Option Nat} {g : Gate} {r r' : Run}
  {sections : List Section} {q : Qubit}

/-! ## Positions -/

/-- Whether the position lies in the section. -/
def Section.covers (s : Section) (position : Nat) : Bool := decide (s.start ≤ position) && decide (position < s.stop)

namespace Tiles

/-- Sections do not overlap. -/
theorem ordered (h : Tiles limit index gates sections) : sections.Pairwise fun s t => s.stop ≤ t.start := by
  induction h with
  | nil index => exact List.Pairwise.nil
  | skip _ _ ih => exact ih
  | read _ _ _ _ hrest ih => exact List.pairwise_cons.2 ⟨hrest.le_start, ih⟩

/-- A section has the gates between its positions. -/
theorem slices (h : Tiles limit index gates sections) (hall : all.drop index = gates) :
    ∀ s ∈ sections, s.gates ≠ [] ∧ s.start < s.stop ∧ s.stop ≤ all.length ∧ s.gates = (all.take s.stop).drop s.start := by
  induction h with
  | nil index => exact List.forall_mem_nil _
  | @skip index g gates _ _ _ ih =>
    refine ih ?_
    rw [List.drop_add_one_eq_tail_drop, hall]
    rfl
  | @read s gates _ hne _ hstop _ _ ih =>
    have hlen := List.length_pos_of_ne_nil hne
    have hsum : all.length - s.start = s.gates.length + gates.length := by
      rw [← List.length_drop, hall, List.length_append]
    obtain ⟨hslice, hrest⟩ := Section.slice hstop hall
    exact List.forall_mem_cons.2 ⟨⟨hne, by omega, by omega, hslice⟩, ih hrest⟩

/-- No section covers a position before the first gate. -/
theorem countP_covers_of_lt (h : Tiles limit index gates sections) {position : Nat} (hlt : position < index) :
    sections.countP (·.covers position) = 0 := by
  refine List.countP_eq_zero.2 fun s hs hcovers => ?_
  have hle := h.le_start s hs
  rw [Section.covers, Bool.and_eq_true, decide_eq_true_iff] at hcovers
  omega

/-- The position of a gate of the NOT family lies in one section, and that of any other gate in none. -/
theorem countP_covers (h : Tiles limit index gates sections) : ∀ {i : Nat} {g : Gate}, gates[i]? = some g →
    sections.countP (·.covers (index + i)) = if g.kind.isClassical then 1 else 0 := by
  induction h with
  | nil index => simp
  | @skip index g gates sections hg hrest ih =>
    intro i k hk
    cases i with
    | zero =>
      obtain rfl := Option.some.inj hk
      rw [hg, if_neg Bool.false_ne_true]
      exact hrest.countP_covers_of_lt (Nat.lt_succ_self index)
    | succ i =>
      rw [← ih (i := i) hk, Nat.add_right_comm, Nat.add_assoc]
  | @read s gates sections hne hclassical hstop _ hrest ih =>
    intro i k hk
    rw [List.countP_cons]
    by_cases hi : i < s.gates.length
    · -- the gate is in the section, and the later sections start after it
      rw [List.getElem?_append_left hi] at hk
      have hcovers : s.covers (s.start + i) = true := by
        simp only [Section.covers, Bool.and_eq_true, decide_eq_true_iff]
        omega
      rw [hclassical k (List.mem_of_getElem? hk), hcovers, hrest.countP_covers_of_lt (by omega)]
      rfl
    · rw [List.getElem?_append_right (Nat.not_lt.1 hi)] at hk
      have hcovers : s.covers (s.start + i) = false := by
        simp only [Section.covers, Bool.and_eq_false_iff, decide_eq_false_iff_not]
        omega
      have hposition : s.start + i = s.stop + (i - s.gates.length) := by omega
      rw [hcovers, hposition, ih hk]
      rfl

/-- Without a limit a gate that is not of the NOT family stands between a section and the next. -/
theorem apart (h : Tiles none index gates sections) (hall : all.drop index = gates) : sections.IsChain fun s t =>
    ∃ position g, s.stop ≤ position ∧ position < t.start ∧ all[position]? = some g ∧ g.kind.isClassical = false := by
  induction h with
  | nil index => exact .nil
  | @skip index g gates sections _ _ ih =>
    refine ih ?_
    rw [List.drop_add_one_eq_tail_drop, hall]
    rfl
  | @read s gates sections _ _ hstop hnext hrest ih =>
    have hdrop : all.drop s.stop = gates := (Section.slice hstop hall).2
    refine List.isChain_cons.2 ⟨fun t ht => ?_, ih hdrop⟩
    obtain ⟨hlt, g, hg⟩ := hrest.lt_start (hnext rfl) t (List.mem_of_head? ht)
    refine ⟨s.stop, g, Nat.le_refl _, hlt, ?_, hnext rfl g hg⟩
    rw [← List.head?_drop, hdrop, hg]

end Tiles

/-! ## What a section lists -/

/-- The qubits noted one after another are those of the list, each where it first occurs. -/
theorem Run.reverse_foldl_note (qs : List Qubit) : (qs.foldl note []).reverse = qs.eraseDups := by
  induction qs using List.reverseRecOn with
  | nil => rfl
  | append_singleton qs q ih =>
    rw [List.foldl_append, List.foldl_cons, List.foldl_nil, List.eraseDups_append, ← ih, note]
    by_cases hq : q ∈ qs
    · rw [if_pos (mem_foldl_note.2 (Or.inr hq))]
      simp [List.removeAll, hq]
    · rw [if_neg fun hmem => hq ((mem_foldl_note.1 hmem).resolve_left List.not_mem_nil)]
      simp [List.removeAll, hq, List.eraseDups_cons]

/-- A run has noted the qubits of its gates and their targets, and has for each target a value that is not a symbol. -/
structure Run.Notes (r : Run) : Prop where
  touched : r.touched = (r.gates.reverse.flatMap Gate.qubits).foldl note []
  written : r.written = (r.gates.reverse.filterMap Gate.target?).foldl note []
  value : ∀ q ∈ r.written, ∃ e n, r.values.lookup q = some (e, n) ∧ e.ref? = none

/-- No gate leaves a symbol on its target. -/
theorem Run.ref?_newValue {controls : List Expression} {old e : Expression} (h : newValue g controls old = .ok e) :
    e.ref? = none := by
  unfold newValue at h
  split at h <;> cases h <;> rfl

namespace Run.Notes

theorem empty (start : Nat) : Run.Notes { start } := ⟨rfl, rfl, by simp⟩

/-- A gate that is added is noted. -/
theorem push (h : r.Notes) (hg : g.Flips symbols.length) (hpush : r.push symbols g = .ok r') : r'.Notes := by
  obtain ⟨t, ht⟩ := hg.toggles
  obtain ⟨e, he, rfl⟩ := push_eq_ok ht.target hpush
  refine ⟨?_, ?_, fun q hq => ?_⟩
  · rw [List.reverse_cons, List.flatMap_append, List.foldl_append, ← h.touched, List.flatMap_singleton]
  · rw [List.reverse_cons, List.filterMap_append, List.foldl_append, ← h.written, List.filterMap_cons, ht.target]
    rfl
  · rw [lookup_replace]
    by_cases hqt : q = t
    · exact ⟨e, r.sizeAfter g, if_pos hqt, ref?_newValue he⟩
    · rw [if_neg hqt]
      exact h.value q ((mem_note.1 hq).resolve_right hqt)

variable (symbols)

/-- The section lists the qubits of its gates. -/
theorem qubits_toSection (h : r.Notes) :
    (r.toSection symbols).qubits = ((r.toSection symbols).gates.flatMap Gate.qubits).eraseDups := by
  rw [← reverse_foldl_note]
  change (r.touched.reverse.map _).map Prod.snd = ((r.gates.reverse.flatMap Gate.qubits).foldl note []).reverse
  rw [← h.touched, List.map_map]
  exact List.map_id _

/-- The section has expressions for the targets of its gates. -/
theorem expressions_toSection (h : r.Notes) : (r.toSection symbols).expressions.map Prod.fst =
    ((r.toSection symbols).gates.filterMap Gate.target?).eraseDups.map (symbolOf symbols) := by
  rw [← reverse_foldl_note]
  change (r.written.reverse.filterMap _).map Prod.fst =
    ((r.gates.reverse.filterMap Gate.target?).foldl note []).reverse.map (symbolOf symbols)
  rw [← h.written, List.map_filterMap, ← List.filterMap_eq_map]
  refine List.filterMap_congr fun q hq => ?_
  obtain ⟨e, n, hv, href⟩ := h.value q (List.mem_reverse.1 hq)
  simp [hv, href]

end Run.Notes

/-- The targets of gates that fit the register are in the register. -/
theorem Gate.lt_of_mem_targets {n : Nat} (h : ∀ g ∈ gates, g.Fits n) (hq : q ∈ gates.filterMap Gate.target?) : q < n := by
  obtain ⟨g, hg, ht⟩ := List.mem_filterMap.1 hq
  exact (h g hg).range q (List.mem_of_getLast? ht)

/-- A circuit whose gates are valid is cut into sections, whatever the limit on the size of expressions. Each has gates, and these
are the gates of the circuit between its positions; the sections ascend without overlapping; the position of a gate lies in one
section if the gate is of the NOT family and in none if it is not. A section lists the qubits of its gates with their symbols,
each where it is first touched, and has expressions for the targets, each where it is first written. Without a limit a gate that
is not of the NOT family stands between a section and the next. -/
theorem decompile_tiles {c : Circuit} (hvalid : ∀ g ∈ c.gates, c.validate g = .ok ()) (limit : Option Nat) :
    ∃ sections, c.decompile limit = .ok sections ∧
      (∀ s ∈ sections, s.gates ≠ [] ∧ s.start < s.stop ∧ s.stop ≤ c.gates.length ∧
        s.gates = (c.gates.take s.stop).drop s.start) ∧
      (sections.Pairwise fun s t => s.stop ≤ t.start) ∧
      (∀ i g, c.gates[i]? = some g → sections.countP (·.covers i) = if g.kind.isClassical then 1 else 0) ∧
      (∀ s ∈ sections, s.qubits = (s.gates.flatMap Gate.qubits).eraseDups ∧
        s.symbolNames.map some = s.qubits.map (fun q => (uniqueSymbols c.labels)[q]?) ∧
        s.expressions.map (some ·.1) =
          (s.gates.filterMap Gate.target?).eraseDups.map (fun q => (uniqueSymbols c.labels)[q]?)) ∧
      (limit = none → sections.IsChain fun s t => ∃ position g, s.stop ≤ position ∧ position < t.start ∧
        c.gates[position]? = some g ∧ g.kind.isClassical = false) := by
  have hfit : ∀ g ∈ c.gates, g.Fits c.numQubits := fun g hg => Circuit.validate_eq_ok_iff.1 (hvalid g hg)
  obtain ⟨sections, hsections⟩ := c.decompile_total hfit limit
  have htiles : Tiles limit 0 c.gates sections := tiles_sectionsFrom.1 hsections
  refine ⟨sections, hsections, htiles.slices rfl, htiles.ordered, fun i g hg => ?_, fun s hs => ?_, ?_⟩
  · rw [← htiles.countP_covers hg, Nat.zero_add]
  · have hfaithful := (laid_decompile hfit hsections).faithful s hs
    obtain ⟨r, hr, rfl⟩ := exists_run_of_mem_decompile hfit Run.Notes.empty (fun h hg _ => h.push hg) hsections s hs
    refine ⟨hr.qubits_toSection _, ?_, ?_⟩
    · rw [hfaithful.names, List.map_map]
      exact List.map_congr_left fun q hq => (getElem?_symbolOf (hfaithful.range hq)).symm
    · have htargets := congrArg (List.map some) (hr.expressions_toSection (uniqueSymbols c.labels))
      rw [List.map_map, List.map_map] at htargets
      refine htargets.trans (List.map_congr_left fun q hq => (getElem?_symbolOf ?_).symm)
      exact Gate.lt_of_mem_targets (fun g hg => (hfaithful.flips g hg).fits) (List.mem_eraseDups.1 hq)
  · rintro rfl
    exact htiles.apart rfl

/-- Two qubits that are written in turn, a barrier and a black box among gates on three qubits, two of which have one label. -/
def Circuit.swings : Circuit where
  name := "swings"
  labels := ["t", "u", "t"]
  gates := [.cx 0 1, .cx 1 0, .cx 0 1, { kind := .barrier, qubits := [] }, { kind := .blackBox "h", qubits := [0] },
    .ccx 2 0 1, .x 2, { kind := .barrier, qubits := [1] }, .x 0]

/-- With a limit the first run of the swings is cut after two gates, and the third gate lies in the second section alone. Without a
limit the barriers and the black box make three sections. -/
theorem decompile_tiles_swings : (∀ g ∈ Circuit.swings.gates, Circuit.swings.validate g = .ok ()) ∧
    (∃ sections, Circuit.swings.decompile (some 5) = .ok sections ∧
      sections.map (fun s => (s.start, s.stop)) = [(0, 2), (2, 3), (5, 7), (8, 9)] ∧
      sections.countP (·.covers 2) = 1 ∧ sections.countP (·.covers 4) = 0) ∧
    ∃ sections, Circuit.swings.decompile none = .ok sections ∧
      sections.map (fun s => (s.start, s.stop, s.qubits, s.expressions.map Prod.fst)) =
        [(0, 3, [0, 1], ["u", "t@0"]), (5, 7, [2, 0, 1], ["u", "t@2"]), (8, 9, [0], ["t@0"])] ∧
      sections.IsChain fun s t => ∃ position g, s.stop ≤ position ∧ position < t.start ∧
        Circuit.swings.gates[position]? = some g ∧ g.kind.isClassical = false := by
  have hvalid : ∀ g ∈ Circuit.swings.gates, Circuit.swings.validate g = .ok () := by decide +kernel
  have hcut : (Circuit.swings.decompile (some 5)).toOption.map (fun l => l.map fun s => (s.start, s.stop)) =
      some [(0, 2), (2, 3), (5, 7), (8, 9)] := by decide +kernel
  have hwhole : (Circuit.swings.decompile none).toOption.map
      (fun l => l.map fun s => (s.start, s.stop, s.qubits, s.expressions.map Prod.fst)) =
      some [(0, 3, [0, 1], ["u", "t@0"]), (5, 7, [2, 0, 1], ["u", "t@2"]), (8, 9, [0], ["t@0"])] := by decide +kernel
  obtain ⟨sections, hsections, -, -, hcount, -⟩ := decompile_tiles hvalid (some 5)
  obtain ⟨whole, hread, -, -, -, -, hapart⟩ := decompile_tiles hvalid none
  rw [hsections] at hcut
  rw [hread] at hwhole
  exact ⟨hvalid, ⟨sections, hsections, Option.some.inj hcut, hcount 2 _ rfl, hcount 4 _ rfl⟩,
    whole, hread, Option.some.inj hwhole, hapart rfl⟩

end ReversibleLogic
