import ReversibleLogic.Proofs.Rewind

/-!
# What calls do to a circuit

For each call on a circuit that is being built, one statement says what it changes: taking, adding and marking qubits change the
register, appended gates become operations of both logs (`Circuit.append_eq_ok`, `Circuit.appendConjugated_eq_ok`), and
uncomputing makes the operations on the marked qubits once more (`Circuit.uncompute_eq`).
-/

namespace ReversibleLogic

/-- The least member of a set is a member, and the rest are the others. -/
theorem QubitSet.popMin?_eq_some {s rest : QubitSet} {q : Qubit} (h : s.popMin? = some (q, rest)) :
    q ∈ s ∧ ∀ p, p ∈ rest ↔ p ∈ s ∧ p ≠ q := by
  obtain ⟨l, hl⟩ := s
  cases l with
  | nil => simp [popMin?] at h
  | cons r l =>
    simp only [popMin?, Option.some.injEq, Prod.mk.injEq] at h
    obtain ⟨rfl, rfl⟩ := h
    refine ⟨List.mem_cons_self, fun p => ?_⟩
    change p ∈ l ↔ p ∈ r :: l ∧ p ≠ r
    constructor
    · intro hp
      exact ⟨List.mem_cons_of_mem r hp, fun he => hl.not_mem_tail (he ▸ hp)⟩
    · rintro ⟨hp, hne⟩
      exact (List.mem_cons.1 hp).resolve_left hne

namespace Circuit

variable {c c' : Circuit}

/-! ## The register -/

/-- `c'` is `c` with the scratch qubit `q` taken, which was free or is new. -/
structure Taken (c c' : Circuit) (q : Qubit) : Prop where
  /-- Gates, logs, names and marks stay. -/
  same : c'.gates = c.gates ∧ c'.history = c.history ∧ c'.computed = c.computed ∧ c'.names = c.names ∧
    c'.bound = c.bound ∧ c'.marked = c.marked
  /-- Labels are added at the end. -/
  labels : ∃ L, c'.labels = c.labels ++ L
  /-- The qubit was free or is new. -/
  source : q ∈ c.free ∨ c.numQubits ≤ q
  /-- The register has the qubit. -/
  lt : q < c'.numQubits
  /-- The qubit is no longer free. -/
  free : ∀ p, p ∈ c'.free ↔ p ∈ c.free ∧ p ≠ q
  /-- The qubit is a scratch qubit. -/
  ancillas : ∀ p, p ∈ c'.ancillas ↔ p ∈ c.ancillas ∨ p = q

/-- Taking a scratch qubit takes one. -/
theorem taken_takeAncilla (hlt : ∀ q ∈ c.ancillas, q < c.numQubits) (hfree : ∀ q ∈ c.free, q ∈ c.ancillas) :
    Taken c c.takeAncilla.1 c.takeAncilla.2 := by
  unfold takeAncilla
  cases hp : c.free.popMin? with
  | some r =>
    obtain ⟨q, rest⟩ := r
    obtain ⟨hq, hrest⟩ := QubitSet.popMin?_eq_some hp
    refine ⟨⟨rfl, rfl, rfl, rfl, rfl, rfl⟩, ⟨[], by simp⟩, Or.inl hq, hlt q (hfree q hq), hrest, fun p => ?_⟩
    constructor
    · exact Or.inl
    · rintro (hp | rfl)
      · exact hp
      · exact hfree p hq
  | none =>
    refine ⟨⟨rfl, rfl, rfl, rfl, rfl, rfl⟩, ⟨_, rfl⟩, Or.inr (Nat.le_refl _), by simp [addAncilla, numQubits], fun p => ?_,
      fun p => ?_⟩
    · have hne : p ∈ c.free → p ≠ c.numQubits := fun hp => Nat.ne_of_lt (hlt p (hfree p hp))
      exact ⟨fun hp => ⟨hp, hne hp⟩, And.left⟩
    · change p ∈ c.ancillas.insert c.numQubits ↔ p ∈ c.ancillas ∨ p = c.numQubits
      rw [QubitSet.mem_insert, or_comm]

theorem numQubits_addQubit (c : Circuit) (name : Option Symbol) : (c.addQubit name).1.numQubits = c.numQubits + 1 := by
  cases name <;> simp [addQubit, numQubits]

/-- At most the new qubit has got a name. -/
theorem mem_bound_addQubit {name : Option Symbol} {q : Qubit} (h : q ∈ (c.addQubit name).1.bound) :
    q ∈ c.bound ∨ q = c.numQubits := by
  cases name with
  | none => exact Or.inl h
  | some name => exact (QubitSet.mem_insert.1 h).symm

/-- The others keep theirs. -/
theorem bound_subset_addQubit {name : Option Symbol} {q : Qubit} (h : q ∈ c.bound) :
    q ∈ (c.addQubit name).1.bound := by
  cases name with
  | none => exact h
  | some name => exact QubitSet.mem_insert.2 (Or.inr h)

/-- Marking a qubit changes the marks only, and does so for a scratch qubit. -/
theorem markAncilla_eq (c : Circuit) (q : Qubit) : ∃ m : QubitSet, (c.markAncilla q).1 = { c with marked := m } ∧
    ∀ p, p ∈ m ↔ p ∈ c.marked ∨ p = q ∧ p ∈ c.ancillas := by
  unfold markAncilla
  split
  · next hnew =>
    have ha : q ∈ c.ancillas := by simpa [isAncilla] using (Bool.and_eq_true_iff.1 hnew).1
    refine ⟨c.marked.insert q, rfl, fun p => ?_⟩
    rw [QubitSet.mem_insert, or_comm]
    refine or_congr_right ⟨?_, And.left⟩
    rintro rfl
    exact ⟨rfl, ha⟩
  · next hold =>
    refine ⟨c.marked, rfl, fun p => ⟨Or.inl, ?_⟩⟩
    rintro (hp | ⟨rfl, ha⟩)
    · exact hp
    · simpa [isAncilla, ha] using hold

/-- Naming a qubit changes no gates and no logs. A scratch qubit that becomes permanent is none any more; otherwise the scratch
qubits, the free ones and the marks stay as they are. -/
theorem mapQubit_eq_ok {name : Symbol} {q : Qubit} {promote : Bool} (h : c.mapQubit name q promote = (c', .ok ())) :
    (c'.gates = c.gates ∧ c'.history = c.history ∧ c'.computed = c.computed ∧ c'.numQubits = c.numQubits) ∧
      ((c'.ancillas = c.ancillas ∧ c'.free = c.free ∧ c'.marked = c.marked) ∨
        c'.ancillas = c.ancillas.erase q ∧ c'.free = c.free.erase q ∧ c'.marked = c.marked.erase q) := by
  unfold mapQubit at h
  split at h
  · cases (Prod.mk.inj h).2
  · dsimp only at h
    split at h
    · obtain rfl := (Prod.mk.inj h).1
      exact ⟨⟨rfl, rfl, rfl, by simp [numQubits]⟩, Or.inr ⟨rfl, rfl, rfl⟩⟩
    · obtain rfl := (Prod.mk.inj h).1
      exact ⟨⟨rfl, rfl, rfl, by simp [numQubits]⟩, Or.inl ⟨rfl, rfl, rfl⟩⟩

/-- A qubit that is given a name is in the register, and has that name from then on. -/
theorem mapQubit_names {name : Symbol} {q : Qubit} {promote : Bool} (h : c.mapQubit name q promote = (c', .ok ())) :
    q < c.numQubits ∧ c'.names = c.names.insert name q ∧ c'.bound = c.bound.insert q := by
  unfold mapQubit at h
  split at h
  · cases (Prod.mk.inj h).2
  · next hrange =>
    refine ⟨checkRange_eq_ok_iff.1 hrange, ?_⟩
    dsimp only at h
    split at h
    · obtain rfl := (Prod.mk.inj h).1
      exact ⟨rfl, rfl⟩
    · obtain rfl := (Prod.mk.inj h).1
      exact ⟨rfl, rfl⟩

/-- A name that is refused changes nothing. -/
theorem mapQubit_eq_error {name : Symbol} {q : Qubit} {promote : Bool} {e : CircuitError}
    (h : c.mapQubit name q promote = (c', .error e)) : c' = c := by
  unfold mapQubit at h
  split at h
  · exact (Prod.mk.inj h).1.symm
  · dsimp only at h
    split at h <;> cases (Prod.mk.inj h).2

/-- A qubit of the register can be given a name. -/
theorem mapQubit_total {q : Qubit} (hq : q < c.numQubits) (name : Symbol) (promote : Bool) :
    ∃ c', c.mapQubit name q promote = (c', .ok ()) := by
  unfold mapQubit
  rw [(checkRange_eq_ok_iff (u := ())).2 hq]
  dsimp only
  split
  · exact ⟨_, rfl⟩
  · exact ⟨_, rfl⟩

/-! ## Operations -/

/-- An accepted gate fits the register. A barrier becomes a gate, and any other gate an operation on its last qubit. -/
theorem append_cases {g : Gate} (h : c.append g = (c', .ok ())) :
    g.Fits c.numQubits ∧ (g.kind.isBarrier = true ∧ c' = { c with gates := c.gates ++ [g] } ∨
      g.kind.isBarrier = false ∧ ∃ t, g.target? = some t ∧ c' = c.record ⟨[g], t⟩) := by
  unfold append at h
  split at h
  · cases (Prod.mk.inj h).2
  · next hv =>
    have hfit := validate_eq_ok_iff.1 hv
    refine ⟨hfit, ?_⟩
    cases hb : g.kind.isBarrier with
    | true =>
      refine Or.inl ⟨rfl, ?_⟩
      cases ht : g.target? <;> simp [hb, ht] at h <;> exact h.symm
    | false =>
      refine Or.inr ⟨rfl, ?_⟩
      obtain ⟨t, ht⟩ := hfit.target hb
      simp only [ht, hb] at h
      exact ⟨t, ht, (Prod.mk.inj h).1.symm⟩

/-- A refused gate changes nothing, and what is said against it is what the check says. -/
theorem append_eq_error {g : Gate} {e : CircuitError} (h : c.append g = (c', .error e)) : c' = c ∧ c.validate g = .error e := by
  unfold append at h
  split at h
  · next hv =>
    obtain ⟨rfl, he⟩ := Prod.mk.inj h
    exact ⟨rfl, Except.error.inj he ▸ hv⟩
  · split at h <;> cases (Prod.mk.inj h).2

/-- An accepted gate of the NOT family becomes an operation. -/
theorem append_eq_ok {g : Gate} (hc : g.kind.isClassical = true) (h : c.append g = (c', .ok ())) :
    g.Fits c.numQubits ∧ ∃ t, g.Toggles t ∧ c' = c.record ⟨[g], t⟩ := by
  obtain ⟨hfit, ⟨hb, -⟩ | ⟨-, t, ht, hc'⟩⟩ := append_cases h
  · rw [GateKind.isBarrier_of_isClassical hc] at hb
    cases hb
  · obtain ⟨t', ht'⟩ := hfit.toggles hc
    obtain rfl : t' = t := Option.some.inj (ht'.target.symm.trans ht)
    exact ⟨hfit, t', ht', hc'⟩

/-- A gate may stand between two flips exactly if all three fit the register, and it is of the NOT family with another target. -/
theorem conjugable_eq_ok_iff {flip t : Qubit} {g : Gate} : c.conjugable flip g = .ok t ↔
    g.Fits c.numQubits ∧ (Gate.x flip).Fits c.numQubits ∧ g.Toggles t ∧ flip ≠ t := by
  constructor
  · intro h
    obtain ⟨_, hv, h⟩ := Outcome.bind_eq_ok.1 h
    obtain ⟨_, hx, h⟩ := Outcome.bind_eq_ok.1 h
    have hfit := validate_eq_ok_iff.1 hv
    refine ⟨hfit, validate_eq_ok_iff.1 hx, ?_⟩
    cases hc : g.kind.isClassical with
    | false => simp [hc, Outcome.throw_eq_ok] at h
    | true =>
      obtain ⟨t', ht⟩ := hfit.toggles hc
      simp only [ht.target, hc] at h
      by_cases he : t' = flip
      · rw [if_pos he, Outcome.bind_eq_ok] at h
        obtain ⟨_, h, _⟩ := h
        exact absurd h Outcome.throw_eq_ok.1
      · rw [if_neg he] at h
        obtain rfl := Outcome.pure_eq_ok.1 h
        exact ⟨ht, Ne.symm he⟩
  · rintro ⟨hfit, hx, ht, hne⟩
    unfold conjugable
    rw [validate_eq_ok_iff.2 hfit, validate_eq_ok_iff.2 hx, ht.target, ht.classical]
    exact if_neg (Ne.symm hne)

/-- An accepted gate between two flips becomes an operation. -/
theorem appendConjugated_eq_ok {flip : Qubit} {g : Gate} (h : c.appendConjugated flip g = (c', .ok ())) :
    g.Fits c.numQubits ∧ (Gate.x flip).Fits c.numQubits ∧
      ∃ t, g.Toggles t ∧ flip ≠ t ∧ c' = c.record ⟨[.x flip, g, .x flip], t⟩ := by
  unfold appendConjugated at h
  split at h
  · cases (Prod.mk.inj h).2
  · next t ht =>
    obtain ⟨hfit, hx, htog, hne⟩ := conjugable_eq_ok_iff.1 ht
    exact ⟨hfit, hx, t, htog, hne, (Prod.mk.inj h).1.symm⟩

/-- A gate between two flips that is refused changes nothing. -/
theorem appendConjugated_eq_error {flip : Qubit} {g : Gate} {e : CircuitError}
    (h : c.appendConjugated flip g = (c', .error e)) : c' = c ∧ c.conjugable flip g = .error e := by
  unfold appendConjugated at h
  split at h
  · next hv =>
    obtain ⟨rfl, he⟩ := Prod.mk.inj h
    exact ⟨rfl, Except.error.inj he ▸ hv⟩
  · cases (Prod.mk.inj h).2

/-- A gate of the NOT family between two flips is accepted if all of them fit and the target is not flipped. -/
theorem appendConjugated_total {flip t : Qubit} {g : Gate} (hg : g.Fits c.numQubits) (hx : (Gate.x flip).Fits c.numQubits)
    (ht : g.Toggles t) (hne : flip ≠ t) : ∃ c', c.appendConjugated flip g = (c', .ok ()) := by
  unfold appendConjugated
  rw [conjugable_eq_ok_iff.2 ⟨hg, hx, ht, hne⟩]
  exact ⟨_, rfl⟩

/-- What the circuit leads to after one more operation. -/
theorem final_record {e : LogEntry} (he : e.Reversible) (s : Bits) :
    (c.record e).final s = Function.update (c.final s) e.target (c.final s e.target ^^ e.fires (c.final s)) := by
  change actGates .idle (c.gates ++ e.gates) s = _
  rw [actGates_append, he.act_eq]
  rfl

/-! ## Uncomputing -/

/-- Undoing appends the operations, the last of the list first, if they are the same backwards. -/
theorem replayAll_eq : ∀ {l : List LogEntry} (c : Circuit), (∀ e ∈ l, e.reverse = e) →
    c.replayAll l =
      { c with gates := c.gates ++ l.reverse.flatMap LogEntry.gates, history := c.history ++ l.reverse } := by
  intro l
  induction l with
  | nil =>
    intro c _
    simp [replayAll]
  | cons e l ih =>
    intro c h
    have he := h e List.mem_cons_self
    have hg : e.gates.reverse = e.gates := congrArg LogEntry.gates he
    have hsplit : c.replayAll (e :: l) = (c.replayAll l).replay e := by
      simp [replayAll, List.foldl_append]
    rw [hsplit, ih c fun f hf => h f (List.mem_cons_of_mem e hf)]
    simp [replay, he, hg]

/-- The operations that drive the marked qubits back. -/
def undone (c : Circuit) : List LogEntry := (c.computed.filter fun e => decide (e.target ∈ c.marked)).reverse

/-- The circuit when the marked qubits have been driven back. -/
def reclaimed (c : Circuit) : Circuit :=
  { c with
    gates := c.gates ++ c.undone.flatMap LogEntry.gates
    history := c.history ++ c.undone
    computed := c.computed.filter fun e => !decide (e.target ∈ c.marked)
    free := c.free.union c.marked
    marked := .empty }

/-- Uncomputing makes the operations on the marked qubits backwards. Nothing has to be done when none is marked. -/
theorem uncompute_nil_eq (h : ∀ e ∈ c.computed, e.reverse = e) : c.uncompute [] = (c.reclaimed, c.marked) := by
  have hundo : ∀ e ∈ c.computed.filter (fun e => decide (e.target ∈ c.marked)), e.reverse = e := fun e he =>
    h e (List.mem_filter.1 he).1
  unfold uncompute
  dsimp only [List.foldl_nil]
  by_cases hempty : c.marked.isEmpty = true
  · rw [if_pos hempty]
    obtain ⟨name, labels, names, bound, gates, history, computed, ancillas, free, marked⟩ := c
    have hm : marked = .empty := QubitSet.ext fun q => by
      have hnil : marked.toList = [] := by simpa [QubitSet.isEmpty] using hempty
      change q ∈ marked.toList ↔ q ∈ ([] : List Qubit)
      rw [hnil]
    have hf : free.union .empty = free := QubitSet.ext fun q => by simp
    have hkept : computed.filter (fun e => !decide (e.target ∈ QubitSet.empty)) = computed :=
      List.filter_eq_self.2 (by simp)
    simp only [reclaimed, undone, hm, hf, hkept]
    simp
  · rw [if_neg hempty, replayAll_eq _ hundo]
    rfl

/-- Uncomputing with further qubits to mark is uncomputing after they have been marked. -/
theorem uncompute_eq (h : ∀ e ∈ c.computed, e.reverse = e) (extra : List Qubit) :
    ∃ m : QubitSet, c.uncompute extra = ({ c with marked := m }.reclaimed, m) ∧
      ∀ q, q ∈ m ↔ q ∈ c.marked ∨ q ∈ extra ∧ q ∈ c.ancillas := by
  have hmarks : ∃ m : QubitSet, extra.foldl (fun c q => (c.markAncilla q).1) c = { c with marked := m } ∧
      ∀ q, q ∈ m ↔ q ∈ c.marked ∨ q ∈ extra ∧ q ∈ c.ancillas := by
    clear h
    induction extra generalizing c with
    | nil => exact ⟨c.marked, rfl, by simp⟩
    | cons p extra ih =>
      obtain ⟨m₁, h₁, hm₁⟩ := c.markAncilla_eq p
      obtain ⟨m, h₂, hm⟩ := ih (c := { c with marked := m₁ })
      refine ⟨m, by rw [List.foldl_cons, h₁, h₂], fun q => (hm q).trans ?_⟩
      change q ∈ m₁ ∨ q ∈ extra ∧ q ∈ c.ancillas ↔ _
      rw [hm₁, List.mem_cons, or_and_right, or_assoc]
  obtain ⟨m, hfold, hm⟩ := hmarks
  have hsplit : c.uncompute extra = (extra.foldl (fun c q => (c.markAncilla q).1) c).uncompute [] := rfl
  refine ⟨m, ?_, hm⟩
  rw [hsplit, hfold]
  exact uncompute_nil_eq (c := { c with marked := m }) h

/-- The operations that rewind all qubits but those to keep. -/
def rewinding (c : Circuit) (keep : List Qubit) : List LogEntry :=
  (c.history.filter fun e => !keep.contains e.target).reverse

/-- The circuit when all qubits but those to keep have been rewound. -/
def rewound (c : Circuit) (keep : List Qubit) : Circuit :=
  { c with
    gates := c.gates ++ (c.rewinding keep).flatMap LogEntry.gates
    history := c.history ++ c.rewinding keep
    computed := c.computed.filter fun e => keep.contains e.target
    marked := .empty
    free := c.free.union (c.ancillas.filter fun q => !keep.contains q) }

/-- Uncomputing everything makes the operations on all qubits but those to keep backwards. -/
theorem uncomputeAll_eq (h : ∀ e ∈ c.history, e.reverse = e) (keep : List Qubit) : (c.uncomputeAll keep).1 = c.rewound keep := by
  dsimp only [uncomputeAll]
  rw [replayAll_eq c fun e he => h e (List.mem_filter.1 he).1]
  rfl

/-- Rewinding puts the qubits that are not kept back to where they started, if the kept ones are not changed once an operation on
another qubit has read them. -/
theorem final_uncomputeAll {keep : List Qubit} {s : Bits} (hrev : ∀ e ∈ c.history, e.Reversible)
    (hlog : c.final s = actLog c.history s)
    (hkeep : c.history.Pairwise fun e f => e.target ∉ keep → f.target ∈ keep → f.target ∉ e.controls) (q : Qubit) :
    (c.uncomputeAll keep).1.final s q = if q ∈ keep then c.final s q else s q := by
  have hact : (c.uncomputeAll keep).1.final s = actLog (c.rewinding keep) (actLog c.history s) := by
    rw [← hlog, uncomputeAll_eq fun e he => (hrev e he).reverse_eq]
    exact actGates_append _ _ s
  have hpair : c.history.Pairwise fun e f =>
      (!keep.contains e.target) = true → (!keep.contains f.target) = false → f.target ∉ e.controls :=
    hkeep.imp fun hef he hf => hef (by simpa using he) (by simpa using hf)
  rw [hact, rewinding, actLog_rewind_of_controls (M := fun p => !keep.contains p) hrev hpair, hlog]
  by_cases hq : q ∈ keep
  · simp [hq]
  · simp [hq]

theorem mem_rewinding {keep : List Qubit} {e : LogEntry} (h : e ∈ c.rewinding keep) : e ∈ c.history :=
  (List.mem_filter.1 (List.mem_reverse.1 h)).1

end Circuit

end ReversibleLogic
