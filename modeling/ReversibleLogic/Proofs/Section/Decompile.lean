import ReversibleLogic.Proofs.Section.Run

/-!
# The sections of a circuit

Read from the left, each gate of a circuit is left out, because it is not of the NOT family, or begins a section that takes this
gate and those after it up to where it ends (`Tiles`). What a section says comes from the run that it is made of
(`exists_run_of_mem_decompile`). So the sections of a circuit are stretches of its gates, one after another, and each of them says
what its gates do (`laid_decompile`). Without a limit, a circuit that has gates of the NOT family only is one run
(`decompile_unlimited`).
-/

namespace ReversibleLogic

variable {symbols : List Symbol} {all gates rest : List Gate} {index cursor : Nat} {limit : Option Nat} {current : Option Run}
  {g : Gate} {r r' : Run} {s : Section} {sections : List Section}

/-! ## One gate -/

/-- The next gate belongs to the run that has not ended, if the limit allows it, or to a new run after it. Only a limit ends a
run here. -/
theorem Run.admit_cases {done : List Section} (h : Run.admit symbols limit index current g = (done, r)) :
    (done = [] ∧ current = some r ∧ ∀ max, limit = some max → r.gates ≠ [] → r.sizeAfter g ≤ max) ∨
      (done = ReversibleLogic.closeRun symbols current ∧ r = { start := index } ∧ (limit = none → current = none)) := by
  unfold Run.admit at h
  split at h
  · next r₀ max =>
    split at h
    · exact Or.inr ⟨(Prod.mk.inj h).1.symm, (Prod.mk.inj h).2.symm, by simp⟩
    · next hfits =>
      obtain ⟨rfl, rfl⟩ := Prod.mk.inj h
      refine Or.inl ⟨rfl, rfl, ?_⟩
      rintro _ ⟨⟩ hne
      simpa [hne] using hfits
  · obtain ⟨rfl, rfl⟩ := Prod.mk.inj h
    exact Or.inl ⟨rfl, rfl, by simp⟩
  · obtain ⟨rfl, rfl⟩ := Prod.mk.inj h
    exact Or.inr ⟨rfl, rfl, fun _ => rfl⟩

/-- One gate is read: it joins a run, or it is not of the NOT family and the run ends before it. -/
theorem sectionsFrom_cons_eq_ok (h : sectionsFrom symbols limit index current (g :: rest) = .ok sections) :
    (g.kind.isClassical = true ∧ ∃ done r r' more, Run.admit symbols limit index current g = (done, r) ∧
        r.push symbols g = .ok r' ∧ sectionsFrom symbols limit (index + 1) (some r') rest = .ok more ∧
        sections = done ++ more) ∨
      (g.kind.isClassical = false ∧ ∃ more, sectionsFrom symbols limit (index + 1) none rest = .ok more ∧
        sections = closeRun symbols current ++ more) := by
  unfold sectionsFrom at h
  by_cases hc : g.kind.isClassical = true
  · rw [if_pos hc] at h
    obtain ⟨r', hpush, hmore⟩ := Outcome.bind_eq_ok.1 h
    obtain ⟨more, hsections, hret⟩ := Outcome.bind_eq_ok.1 hmore
    exact Or.inl ⟨hc, _, _, r', more, rfl, hpush, hsections, (Outcome.pure_eq_ok.1 hret).symm⟩
  · rw [if_neg hc] at h
    obtain ⟨more, hsections, hret⟩ := Outcome.bind_eq_ok.1 h
    exact Or.inr ⟨Bool.eq_false_iff.2 hc, more, hsections, (Outcome.pure_eq_ok.1 hret).symm⟩

/-! ## Tiles -/

/-- The sections tile the gates, the first of which has the position `index`. Without a limit a section ends only at a gate that
is not of the NOT family. -/
inductive Tiles (limit : Option Nat) : Nat → List Gate → List Section → Prop where
  | nil (index : Nat) : Tiles limit index [] []
  | skip {index : Nat} {g : Gate} {gates : List Gate} {sections : List Section} : g.kind.isClassical = false →
      Tiles limit (index + 1) gates sections → Tiles limit index (g :: gates) sections
  | read {s : Section} {gates : List Gate} {sections : List Section} : s.gates ≠ [] →
      (∀ g ∈ s.gates, g.kind.isClassical = true) → s.stop = s.start + s.gates.length →
      (limit = none → ∀ g ∈ gates.head?, g.kind.isClassical = false) →
      Tiles limit s.stop gates sections → Tiles limit s.start (s.gates ++ gates) (s :: sections)

/-- A run that has gates of the NOT family only, the first of them at its start and the last before `index`. -/
structure Run.Spans (index : Nat) (r : Run) : Prop where
  nonempty : r.gates ≠ []
  classical : ∀ g ∈ r.gates, g.kind.isClassical = true
  stop : r.start + r.gates.length = index

/-- One more gate, whether the run has others or not. -/
theorem Run.spans_push (hclassical : ∀ g ∈ r.gates, g.kind.isClassical = true) (hstop : r.start + r.gates.length = index)
    (hg : g.kind.isClassical = true) (h : r.push symbols g = .ok r') : r'.Spans (index + 1) := by
  obtain ⟨hgates, hstart⟩ := push_gates h
  refine ⟨by simp [hgates], ?_, ?_⟩
  · rw [hgates]
    exact List.forall_mem_cons.2 ⟨hg, hclassical⟩
  · rw [hgates, hstart, List.length_cons, ← Nat.add_assoc, hstop]

/-- The section of a run is the next tile. -/
theorem Tiles.toSection (h : r.Spans index) (hnext : limit = none → ∀ g ∈ gates.head?, g.kind.isClassical = false)
    (hrest : Tiles limit index gates sections) :
    Tiles limit r.start (r.gates.reverse ++ gates) (r.toSection symbols :: sections) := by
  have hstop : (r.toSection symbols).stop = index := h.stop
  refine .read (s := r.toSection symbols) ?_ ?_ ?_ hnext (hstop.symm ▸ hrest)
  · exact fun hnil => h.nonempty (List.reverse_eq_nil_iff.1 hnil)
  · exact fun g hg => h.classical g (List.mem_reverse.1 hg)
  · exact congrArg (r.start + ·) List.length_reverse.symm

/-- The sections that are found tile the gates that are left, together with those of the run that has not ended. The induction is
on the gates that are left, for both states of the reader at once: a gate of the NOT family begins a run, and any other ends it. -/
theorem tiles_sectionsFrom :
    (∀ {index : Nat} {sections : List Section}, sectionsFrom symbols limit index none rest = .ok sections →
      Tiles limit index rest sections) ∧
    ∀ {index : Nat} {r : Run} {sections : List Section}, r.Spans index →
      sectionsFrom symbols limit index (some r) rest = .ok sections → Tiles limit r.start (r.gates.reverse ++ rest) sections := by
  induction rest with
  | nil =>
    constructor
    · intro index sections h
      obtain rfl := Except.ok.inj h
      exact .nil index
    · intro index r sections hr h
      obtain rfl := Except.ok.inj h
      exact .toSection hr (by simp) (.nil index)
  | cons g rest ih =>
    -- a run that the gate begins tiles from the gate on
    have hbegin : ∀ {index : Nat} {r' : Run} {more : List Section}, g.kind.isClassical = true →
        Run.push symbols { start := index } g = .ok r' → sectionsFrom symbols limit (index + 1) (some r') rest = .ok more →
        Tiles limit index (g :: rest) more := by
      intro index r' more hc hpush hmore
      have htiles := ih.2 (Run.spans_push (by simp) rfl hc hpush) hmore
      rwa [(Run.push_gates hpush).1, (Run.push_gates hpush).2] at htiles
    constructor
    · intro index sections h
      rcases sectionsFrom_cons_eq_ok h with ⟨hc, done, r, r', more, hopen, hpush, hmore, rfl⟩ | ⟨hc, more, hmore, rfl⟩
      · obtain ⟨rfl, rfl⟩ := Prod.mk.inj hopen
        exact hbegin hc hpush hmore
      · exact .skip hc (ih.1 hmore)
    · intro index r sections hr h
      rcases sectionsFrom_cons_eq_ok h with ⟨hc, done, r₁, r', more, hopen, hpush, hmore, rfl⟩ | ⟨hc, more, hmore, rfl⟩
      · rcases Run.admit_cases hopen with ⟨rfl, hsome, -⟩ | ⟨rfl, rfl, hlimit⟩
        · obtain rfl := Option.some.inj hsome
          have htiles := ih.2 (Run.spans_push hr.classical hr.stop hc hpush) hmore
          rwa [(Run.push_gates hpush).1, (Run.push_gates hpush).2, List.reverse_cons, List.append_assoc] at htiles
        · exact .toSection hr (fun hnone => nomatch hlimit hnone) (hbegin hc hpush hmore)
      · exact .toSection hr (fun _ => by simpa using hc) (.skip hc (ih.1 hmore))

namespace Tiles

/-- No section starts before the tiles do. -/
theorem le_start (h : Tiles limit index gates sections) : ∀ s ∈ sections, index ≤ s.start := by
  induction h with
  | nil index => exact List.forall_mem_nil _
  | skip _ _ ih => exact fun s hs => Nat.le_of_succ_le (ih s hs)
  | @read s _ _ _ _ hstop _ _ ih =>
    refine List.forall_mem_cons.2 ⟨Nat.le_refl _, fun t ht => ?_⟩
    have := ih t ht
    omega

/-- Where the next gate begins no section, the sections start after it. -/
theorem lt_start (h : Tiles limit index gates sections) (hnext : ∀ g ∈ gates.head?, g.kind.isClassical = false) :
    ∀ s ∈ sections, index < s.start ∧ ∃ g, gates.head? = some g := by
  cases h with
  | nil _ => exact List.forall_mem_nil _
  | @skip _ g _ _ _ hrest => exact fun s hs => ⟨hrest.le_start s hs, g, rfl⟩
  | read hne hclassical =>
    obtain ⟨g, more, hg⟩ := List.exists_cons_of_ne_nil hne
    have hfalse := hnext g (by rw [hg]; rfl)
    rw [hclassical g (by rw [hg]; exact List.mem_cons_self)] at hfalse
    cases hfalse

end Tiles

/-- A section at the start of the gates that are left has the gates between its positions. -/
theorem Section.slice (hstop : s.stop = s.start + s.gates.length) (hall : all.drop s.start = s.gates ++ gates) :
    s.gates = (all.take s.stop).drop s.start ∧ all.drop s.stop = gates := by
  constructor
  · rw [List.drop_take, hall, hstop, Nat.add_sub_cancel_left, List.take_left]
  · rw [hstop, ← List.drop_drop, hall, List.drop_left]

/-! ## Runs -/

/-- Every section is that of a run with any property that runs have at their start and keep with each gate that joins them. -/
theorem exists_run_of_mem_sectionsFrom {P : Run → Prop} (hstart : ∀ index, P { start := index })
    (hpush : ∀ {r r' : Run} {g : Gate}, P r → g.Flips symbols.length →
      (∀ max, limit = some max → r.gates ≠ [] → r.sizeAfter g ≤ max) → r.push symbols g = .ok r' → P r') :
    ∀ {index : Nat} {current : Option Run} {sections : List Section}, (∀ g ∈ rest, g.Fits symbols.length) →
    (∀ r, current = some r → P r) → sectionsFrom symbols limit index current rest = .ok sections →
    ∀ s ∈ sections, ∃ r, P r ∧ s = r.toSection symbols := by
  have hclose : ∀ {current : Option Run}, (∀ r, current = some r → P r) → ∀ s ∈ closeRun symbols current,
      ∃ r, P r ∧ s = r.toSection symbols := by
    intro current hcurrent s hs
    cases current with
    | none => cases hs
    | some r => exact ⟨r, hcurrent r rfl, List.mem_singleton.1 hs⟩
  induction rest with
  | nil =>
    intro index current sections _ hcurrent h
    obtain rfl := Except.ok.inj h
    exact hclose hcurrent
  | cons g rest ih =>
    intro index current sections hfit hcurrent h
    have hfit' : ∀ g ∈ rest, g.Fits symbols.length := fun k hk => hfit k (List.mem_cons_of_mem g hk)
    rcases sectionsFrom_cons_eq_ok h with ⟨hc, done, r, r', more, hopen, hread, hsections, rfl⟩ | ⟨-, more, hsections, rfl⟩
    · have hg : g.Flips symbols.length := ⟨hc, hfit g List.mem_cons_self⟩
      obtain ⟨hdone, hr'⟩ : (∀ s ∈ done, ∃ r, P r ∧ s = r.toSection symbols) ∧ P r' := by
        rcases Run.admit_cases hopen with ⟨rfl, rfl, hlimit⟩ | ⟨rfl, rfl, -⟩
        · exact ⟨List.forall_mem_nil _, hpush (hcurrent r rfl) hg hlimit hread⟩
        · exact ⟨hclose hcurrent, hpush (hstart index) hg (by simp) hread⟩
      refine List.forall_mem_append.2 ⟨hdone, ih hfit' ?_ hsections⟩
      rintro _ ⟨⟩
      exact hr'
    · exact List.forall_mem_append.2 ⟨hclose hcurrent, ih hfit' (by simp) hsections⟩

/-- The same for the sections of a circuit. -/
theorem exists_run_of_mem_decompile {P : Run → Prop} {c : Circuit} (hfit : ∀ g ∈ c.gates, g.Fits c.numQubits)
    (hstart : ∀ index, P { start := index })
    (hpush : ∀ {r r' : Run} {g : Gate}, P r → g.Flips (uniqueSymbols c.labels).length →
      (∀ max, limit = some max → r.gates ≠ [] → r.sizeAfter g ≤ max) → r.push (uniqueSymbols c.labels) g = .ok r' → P r')
    (h : c.decompile limit = .ok sections) : ∀ s ∈ sections, ∃ r, P r ∧ s = r.toSection (uniqueSymbols c.labels) := by
  rw [Circuit.numQubits, ← length_uniqueSymbols] at hfit
  exact exists_run_of_mem_sectionsFrom hstart hpush hfit (by simp) h

/-- Every section is that of a run. -/
theorem exists_reads_of_mem_decompile {c : Circuit} (hfit : ∀ g ∈ c.gates, g.Fits c.numQubits)
    (h : c.decompile limit = .ok sections) :
    ∀ s ∈ sections, ∃ r : Run, r.Reads (uniqueSymbols c.labels) ∧ s = r.toSection (uniqueSymbols c.labels) :=
  exists_run_of_mem_decompile hfit (Run.Reads.empty (nodup_uniqueSymbols c.labels)) (fun h hg _ => h.push hg) h

/-! ## Sections that lie in the gates -/

/-- The sections lie one after another in the gates, the first not before position `cursor`, and each says what its gates do. -/
inductive Laid (symbols : List Symbol) (gates : List Gate) : Nat → List Section → Prop where
  | nil (cursor : Nat) : Laid symbols gates cursor []
  | cons {cursor : Nat} {s : Section} {sections : List Section} : cursor ≤ s.start → s.start ≤ s.stop →
      s.gates = (gates.take s.stop).drop s.start → s.Faithful symbols → Laid symbols gates s.stop sections →
      Laid symbols gates cursor (s :: sections)

/-- Sections laid side by side are faithful. -/
theorem Laid.faithful (h : Laid symbols gates cursor sections) : ∀ s ∈ sections, s.Faithful symbols := by
  induction h with
  | nil cursor => simp
  | cons _ _ _ hs _ ih =>
    intro s hmem
    rcases List.mem_cons.1 hmem with rfl | hmem
    · exact hs
    · exact ih s hmem

/-- Tiles that say what their gates do lie one after another. -/
theorem Tiles.laid (h : Tiles limit index gates sections) (hall : all.drop index = gates)
    (hfaithful : ∀ s ∈ sections, s.Faithful symbols) : ∀ {cursor : Nat}, cursor ≤ index → Laid symbols all cursor sections := by
  induction h with
  | nil index => exact fun _ => .nil _
  | skip _ _ ih =>
    intro cursor hcursor
    refine ih ?_ hfaithful (Nat.le_succ_of_le hcursor)
    rw [List.drop_add_one_eq_tail_drop, hall]
    rfl
  | read _ _ hstop _ _ ih =>
    intro cursor hcursor
    obtain ⟨hslice, hrest⟩ := Section.slice hstop hall
    obtain ⟨hs, hlater⟩ := List.forall_mem_cons.1 hfaithful
    exact .cons hcursor (hstop ▸ Nat.le_add_right _ _) hslice hs (ih hrest hlater (Nat.le_refl _))

/-- The sections of a circuit lie one after another in its gates, and each says what its gates do. -/
theorem laid_decompile {c : Circuit} (hfit : ∀ g ∈ c.gates, g.Fits c.numQubits) (h : c.decompile limit = .ok sections) :
    Laid (uniqueSymbols c.labels) c.gates 0 sections := by
  refine (tiles_sectionsFrom.1 h).laid rfl (fun s hs => ?_) (Nat.le_refl 0)
  obtain ⟨r, hr, rfl⟩ := exists_reads_of_mem_decompile hfit h s hs
  exact hr.toSection (nodup_uniqueSymbols c.labels)

/-! ## Without a limit -/

/-- Gates of the NOT family are one section, if there are any. -/
theorem Tiles.whole (h : Tiles none index gates sections) (hall : ∀ g ∈ gates, g.kind.isClassical = true) :
    (sections = [] ∧ gates = []) ∨ ∃ s, sections = [s] ∧ s.gates = gates := by
  cases h with
  | nil index => exact Or.inl ⟨rfl, rfl⟩
  | @skip _ g _ _ hg _ =>
    rw [hall g List.mem_cons_self] at hg
    cases hg
  | @read s gates sections _ _ _ hnext hrest =>
    have hhead : gates.head? = none := by
      refine Option.eq_none_iff_forall_ne_some.2 fun g hg => ?_
      have hclassical := hall g (List.mem_append_right _ (List.mem_of_head? hg))
      rw [hnext rfl g hg] at hclassical
      cases hclassical
    have hnil : sections = [] := by
      refine List.eq_nil_iff_forall_not_mem.2 fun t ht => ?_
      obtain ⟨-, g, hg⟩ := hrest.lt_start (hnext rfl) t ht
      rw [hhead] at hg
      cases hg
    exact Or.inr ⟨s, by rw [hnil], by rw [List.head?_eq_none_iff.1 hhead, List.append_nil]⟩

/-- Without a limit, a circuit of gates of the NOT family is read as one run. -/
theorem decompile_unlimited {c : Circuit} (hgates : ∀ g ∈ c.gates, g.Flips c.numQubits)
    (h : c.decompile none = .ok sections) :
    (sections = [] ∧ c.gates = []) ∨ ∃ r : Run, sections = [r.toSection (uniqueSymbols c.labels)] ∧
      r.Reads (uniqueSymbols c.labels) ∧ r.gates.reverse = c.gates := by
  have htiles : Tiles none 0 c.gates sections := tiles_sectionsFrom.1 h
  rcases htiles.whole fun g hg => (hgates g hg).classical with hnil | ⟨s, rfl, hs⟩
  · exact Or.inl hnil
  · obtain ⟨r, hr, rfl⟩ := exists_reads_of_mem_decompile (fun g hg => (hgates g hg).fits) h s (List.mem_singleton_self s)
    exact Or.inr ⟨r, rfl, hr, hs⟩

end ReversibleLogic
