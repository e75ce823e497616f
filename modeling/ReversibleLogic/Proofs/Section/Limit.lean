import ReversibleLogic.Proofs.Section.Faithful

/-!
# The limit on the size of expressions

A run ends before a gate that would make an expression larger than the limit, so that only the first gate of a section can do so,
if no later gate writes the same qubit. The size that is compared with the limit is kept beside the expression. It counts every
node but one kind: a gate with a stated number of controls adds their conjunction, also where there is one control or none, and
a conjunction of fewer than two operands is not counted (`Run.Sized`). So an expression can exceed the limit by the number of such
conjunctions in it (`decompile_respects_limit`), and it does (`not_decompile_respects_limit`).
-/

namespace ReversibleLogic

variable {symbols : List Symbol} {g : Gate} {r r' : Run} {q t : Qubit} {gates : List Gate} {max : Nat}

/-! ## Conjunctions of fewer than two operands -/

namespace Expression

mutual

/-- The number of conjunctions in the tree that have fewer than two operands. -/
def thinConjunctions : Expression → Nat
  | .const _ | .ref _ => 0
  | .not e => e.thinConjunctions
  | .and es => (if es.length < 2 then 1 else 0) + allThinConjunctions es
  | .or es | .xor es | .blackBox _ es => allThinConjunctions es

/-- The number of conjunctions in the trees of the list that have fewer than two operands. -/
def allThinConjunctions : List Expression → Nat
  | [] => 0
  | e :: es => e.thinConjunctions + allThinConjunctions es

end

/-- No thin conjunction is in the list, if none is in its expressions. -/
theorem allThinConjunctions_eq_zero {es : List Expression} (h : ∀ e ∈ es, e.thinConjunctions = 0) :
    allThinConjunctions es = 0 := by
  induction es with
  | nil => rfl
  | cons e es ih => rw [allThinConjunctions, h e List.mem_cons_self, ih fun d hd => h d (List.mem_cons_of_mem e hd)]

end Expression

/-! ## The size that is kept -/

namespace Run

/-- The size kept for a value counts all its nodes but the conjunctions of fewer than two operands. -/
def Sized (symbols : List Symbol) (r : Run) : Prop :=
  ∀ q, (r.valueOf symbols q).size = r.sizeOf q + (r.valueOf symbols q).thinConjunctions

/-- So do the sizes kept for several values together. -/
theorem Sized.sizeAll_map (h : r.Sized symbols) (qs : List Qubit) :
    Expression.sizeAll (qs.map (r.valueOf symbols)) = (qs.map r.sizeOf).foldl (· + ·) 0 +
      Expression.allThinConjunctions (qs.map (r.valueOf symbols)) := by
  have hfold : ∀ total, total + Expression.sizeAll (qs.map (r.valueOf symbols)) =
      (qs.map r.sizeOf).foldl (· + ·) total + Expression.allThinConjunctions (qs.map (r.valueOf symbols)) := by
    induction qs with
    | nil => exact fun _ => rfl
    | cons q qs ih =>
      intro total
      have hq := h q
      have hrest := ih (total + r.sizeOf q)
      simp only [List.map_cons, List.foldl_cons, Expression.sizeAll, Expression.allThinConjunctions]
      omega
  rw [← hfold 0, Nat.zero_add]

/-- The node of the target's value is counted, and that of the conjunction if there are two controls or more. -/
theorem sizeAfter_eq (r : Run) (ht : g.target? = some t) : r.sizeAfter g =
    (if g.controls.length < 2 then 1 else 2) + (g.controls.map r.sizeOf).foldl (· + ·) 0 + r.sizeOf t := by
  unfold sizeAfter
  rw [ht]
  match g.controls with
  | [] => rfl
  | [_] => rfl
  | _ :: _ :: rest => rw [if_neg (by simp)]; rfl

/-- What is compared with the limit before a gate is the size of the target's value after it, but for the conjunctions that are
not counted. -/
theorem Sized.newValue {n : Nat} {e : Expression} (h : r.Sized symbols) (hfit : g.Fits n) (ht : g.target? = some t)
    (he : newValue g (g.controls.map (r.valueOf symbols)) (r.valueOf symbols t) = .ok e) :
    e.size = r.sizeAfter g + e.thinConjunctions := by
  have hold := h t
  have hcontrols := h.sizeAll_map g.controls
  rw [sizeAfter_eq r ht]
  unfold Run.newValue at he
  cases hk : g.kind with
  | barrier | blackBox name => simp [hk] at he
  | x =>
    simp only [hk, Except.ok.injEq] at he
    subst he
    have hnil : g.controls = [] := List.length_eq_zero_iff.1 (hfit.length_controls (k := 1) (by rw [hk]; rfl))
    rw [hnil, Expression.size, Expression.thinConjunctions, hold]
    exact (Nat.add_assoc ..).symm
  | cx =>
    simp only [hk, Except.ok.injEq] at he
    subst he
    obtain ⟨c, hc⟩ := List.length_eq_one_iff.1 (hfit.length_controls (k := 2) (by rw [hk]; rfl))
    rw [hc] at hcontrols ⊢
    rw [if_pos (by simp)]
    simp only [List.map_cons, List.map_nil, List.cons_append, List.nil_append, Expression.size,
      Expression.sizeAll, Expression.thinConjunctions, Expression.allThinConjunctions] at hcontrols ⊢
    omega
  | ccx | mcx m =>
    simp only [hk, Except.ok.injEq] at he
    subst he
    simp only [Expression.size, Expression.sizeAll, Expression.thinConjunctions, Expression.allThinConjunctions,
      List.length_map]
    split <;> omega

end Run

/-! ## Who writes a qubit -/

/-- Whether the first gate, and no other, has the target `q`. -/
def writtenOnlyFirst (q : Qubit) : List Gate → Bool
  | [] => false
  | g :: rest => g.target? == some q && rest.all fun k => k.target? != some q

/-- A gate with another target changes nothing in this. -/
theorem writtenOnlyFirst_append (h : writtenOnlyFirst q gates = true) (hg : g.target? ≠ some q) :
    writtenOnlyFirst q (gates ++ [g]) = true := by
  cases gates with
  | nil => cases h
  | cons k rest =>
    rw [writtenOnlyFirst, Bool.and_eq_true] at h
    rw [List.cons_append, writtenOnlyFirst, Bool.and_eq_true, List.all_append, h.2]
    exact ⟨h.1, by simpa using hg⟩

/-! ## Runs under a limit -/

/-- Whether the gate has a stated number of controls that is less than two. -/
def Gate.isThin (g : Gate) : Bool := g.kind == .mcx 0 || g.kind == .mcx 1

namespace Run

/-- A run that was read under a limit: the size kept for a qubit that has been written exceeds the limit only where the first gate
alone has written it, and conjunctions of fewer than two operands come from gates of that kind. -/
structure Limited (symbols : List Symbol) (max : Nat) (r : Run) : Prop where
  sized : r.Sized symbols
  small : ∀ q ∈ r.written, r.sizeOf q ≤ max ∨ writtenOnlyFirst q r.gates.reverse = true
  plain : (∀ g ∈ r.gates, g.isThin = false) → ∀ q, (r.valueOf symbols q).thinConjunctions = 0

/-- A run without gates is within the limit. -/
theorem Limited.empty (symbols : List Symbol) (max start : Nat) : Run.Limited symbols max { start } :=
  ⟨fun _ => rfl, by simp, fun _ _ => rfl⟩

/-- A gate that is not thin adds no thin conjunction. -/
theorem thinConjunctions_newValue {n : Nat} {controls : List Expression} {old e : Expression} (hfit : g.Fits n)
    (hg : g.isThin = false) (hlen : controls.length = g.controls.length) (hcontrols : ∀ d ∈ controls, d.thinConjunctions = 0)
    (hold : old.thinConjunctions = 0) (he : newValue g controls old = .ok e) : e.thinConjunctions = 0 := by
  have hall := Expression.allThinConjunctions_eq_zero hcontrols
  -- the conjunction of two controls or more is not thin
  have hand : 2 ≤ g.controls.length → (Expression.xor [.and controls, old]).thinConjunctions = 0 := by
    intro htwo
    simp only [Expression.thinConjunctions, Expression.allThinConjunctions, hall, hold]
    rw [if_neg (by omega)]
  unfold newValue at he
  cases hk : g.kind with
  | barrier | blackBox name => simp [hk] at he
  | x =>
    simp only [hk, Except.ok.injEq] at he
    exact he ▸ hold
  | cx =>
    simp only [hk, Except.ok.injEq] at he
    rw [← he]
    refine Expression.allThinConjunctions_eq_zero (List.forall_mem_append.2 ⟨hcontrols, ?_⟩)
    exact List.forall_mem_singleton.2 hold
  | ccx =>
    simp only [hk, Except.ok.injEq] at he
    exact he ▸ hand (Nat.le_of_eq (hfit.length_controls (k := 3) (by rw [hk]; rfl)).symm)
  | mcx m =>
    simp only [hk, Except.ok.injEq] at he
    have hm := hfit.length_controls (k := m + 1) (by rw [hk]; rfl)
    have hthin : m ≠ 0 ∧ m ≠ 1 := by simpa [Gate.isThin, hk] using hg
    exact he ▸ hand (by omega)

/-- The size kept for a qubit after a gate: only that of the target is new. -/
theorem sizeOf_push {e : Expression} {n start : Nat} {gates : List Gate} {touched written : List Qubit} :
    Run.sizeOf { start, gates, touched, written, values := (t, e, n) :: r.values.filter (·.1 ≠ t) } q =
      if q = t then n else r.sizeOf q := by
  unfold sizeOf
  rw [lookup_replace]
  by_cases hq : q = t
  · rw [if_pos hq, if_pos hq]
  · rw [if_neg hq, if_neg hq]

/-- One more gate that the limit allows. -/
theorem Limited.push (h : r.Limited symbols max) (hg : g.Flips symbols.length)
    (hlimit : r.gates ≠ [] → r.sizeAfter g ≤ max) (hpush : r.push symbols g = .ok r') : r'.Limited symbols max := by
  obtain ⟨t, ht⟩ := hg.toggles
  obtain ⟨e, he, rfl⟩ := push_eq_ok ht.target hpush
  refine ⟨fun q => ?_, fun q hq => ?_, fun hthin q => ?_⟩
  · rw [sizeOf_push, valueOf, lookup_replace]
    by_cases hqt : q = t
    · rw [if_pos hqt, if_pos hqt]
      exact h.sized.newValue hg.fits ht.target he
    · rw [if_neg hqt, if_neg hqt]
      exact h.sized q
  · rw [sizeOf_push, List.reverse_cons]
    by_cases hqt : q = t
    · -- the gate is the first of the run, or the limit has been checked
      rw [if_pos hqt]
      by_cases hfirst : r.gates = []
      · exact Or.inr (by simp [hfirst, writtenOnlyFirst, ht.target, hqt])
      · exact Or.inl (hlimit hfirst)
    · rw [if_neg hqt]
      have hne : g.target? ≠ some q := fun hq => hqt (Option.some.inj (hq.symm.trans ht.target))
      exact (h.small q ((mem_note.1 hq).resolve_right hqt)).imp_right fun hfirst => writtenOnlyFirst_append hfirst hne
  · obtain ⟨hgthin, hthin⟩ := List.forall_mem_cons.1 hthin
    rw [valueOf, lookup_replace]
    by_cases hqt : q = t
    · rw [if_pos hqt]
      refine thinConjunctions_newValue hg.fits hgthin (List.length_map ..) (fun d hd => ?_) (h.plain hthin t) he
      obtain ⟨c, -, rfl⟩ := List.mem_map.1 hd
      exact h.plain hthin c
    · rw [if_neg hqt]
      exact h.plain hthin q

end Run

/-- A circuit whose gates are valid is cut into sections under any limit. Where the size of an expression exceeds the limit by more
than the number of conjunctions in it that have fewer than two operands, it is the value that the first gate of the section writes,
and no other gate writes that qubit. In a section in which no gate has a stated number of controls that is less than two, this is
so wherever the size exceeds the limit. -/
theorem decompile_respects_limit {c : Circuit} (hvalid : ∀ g ∈ c.gates, c.validate g = .ok ()) (max : Nat) :
    ∃ sections, c.decompile (some max) = .ok sections ∧
      ∀ s ∈ sections, ∀ name e, (name, e) ∈ s.expressions → ∃ q, (uniqueSymbols c.labels)[q]? = some name ∧
        (max + e.thinConjunctions < e.size → writtenOnlyFirst q s.gates = true) ∧
        ((∀ g ∈ s.gates, g.isThin = false) → max < e.size → writtenOnlyFirst q s.gates = true) := by
  have hfit : ∀ g ∈ c.gates, g.Fits c.numQubits := fun g hg => Circuit.validate_eq_ok_iff.1 (hvalid g hg)
  obtain ⟨sections, hsections⟩ := c.decompile_total hfit (some max)
  refine ⟨sections, hsections, fun s hs name e he => ?_⟩
  obtain ⟨r, ⟨hreads, hr⟩, rfl⟩ := exists_run_of_mem_decompile (P := fun r => r.Reads _ ∧ r.Limited _ max) hfit
    (fun index => ⟨.empty (nodup_uniqueSymbols c.labels) index, .empty _ max index⟩)
    (fun h hg hlimit hpush => ⟨h.1.push hg hpush, h.2.push hg (hlimit max rfl) hpush⟩) hsections s hs
  obtain ⟨q, hq, ⟨n, hv⟩, rfl, -⟩ := Run.mem_expressions.1 he
  have hvalue : r.valueOf (uniqueSymbols c.labels) q = e := by rw [Run.valueOf, hv]
  have hsize := hr.sized q
  rw [hvalue] at hsize
  have hfirst : max + e.thinConjunctions < e.size → writtenOnlyFirst q r.gates.reverse = true := fun hlarge =>
    (hr.small q hq).resolve_left (by omega)
  refine ⟨q, getElem?_symbolOf (hreads.range (hreads.written.2.2 q hq)), hfirst, fun hthin hlarge => hfirst ?_⟩
  have hplain := hr.plain (fun g hg => hthin g (List.mem_reverse.2 hg)) q
  rw [hvalue] at hplain
  omega

/-- A flip, and then a gate with a stated number of controls, which is one, on the flipped qubit. -/
def Circuit.oneControl : Circuit where
  name := "one control"
  labels := ["a", "b"]
  gates := [.x 0, { kind := .mcx 1, qubits := [0, 1] }]

/-- Under a limit of 1 the flip is a section of its own, and its expression is of size 2. -/
theorem decompile_respects_limit_oneControl :
    (∀ g ∈ Circuit.oneControl.gates, Circuit.oneControl.validate g = .ok ()) ∧
    ∃ part rest q, Circuit.oneControl.decompile (some 1) = .ok (part :: rest) ∧ part.gates = [.x 0] ∧
      part.expressions = [("a", .not (.ref "a"))] ∧ 1 < (Expression.not (.ref "a")).size ∧
      (uniqueSymbols Circuit.oneControl.labels)[q]? = some "a" ∧ writtenOnlyFirst q part.gates = true := by
  have hvalid : ∀ g ∈ Circuit.oneControl.gates, Circuit.oneControl.validate g = .ok () := by decide +kernel
  have hread : (Circuit.oneControl.decompile (some 1)).toOption.map (fun l => l.map fun s => (s.gates, s.expressions)) =
      some [([.x 0], [("a", .not (.ref "a"))]),
        ([{ kind := .mcx 1, qubits := [0, 1] }], [("b", .xor [.and [.ref "a"], .ref "b"])])] := by decide +kernel
  obtain ⟨sections, hsections, hall⟩ := decompile_respects_limit hvalid 1
  rw [hsections] at hread
  obtain _ | ⟨part, rest⟩ := sections
  · cases hread
  obtain ⟨hgates, hexpressions⟩ := Prod.mk.inj (List.cons.inj (Option.some.inj hread)).1
  obtain ⟨q, hq, -, hfirst⟩ := hall part List.mem_cons_self "a" (.not (.ref "a"))
    (by rw [hexpressions]; exact List.mem_singleton_self _)
  exact ⟨hvalid, part, rest, q, hsections, hgates, hexpressions, by decide, hq,
    hfirst (by rw [hgates]; decide) (by decide)⟩

/-- The limit is not always respected. Under a limit of 4 the two gates are one section: the size that is compared for the second
gate is 4, and the expression that it writes has the size 5. -/
theorem not_decompile_respects_limit :
    ¬ ∀ (c : Circuit) (max : Nat) (sections : List Section), (∀ g ∈ c.gates, c.validate g = .ok ()) →
      c.decompile (some max) = .ok sections → ∀ s ∈ sections, ∀ name e q, (name, e) ∈ s.expressions →
        (uniqueSymbols c.labels)[q]? = some name → max < e.size → writtenOnlyFirst q s.gates = true := by
  intro h
  have hread : (Circuit.oneControl.decompile (some 4)).toOption.map (fun l => l.map fun s => (s.gates, s.expressions)) =
      some [(Circuit.oneControl.gates, [("a", .not (.ref "a")), ("b", .xor [.and [.not (.ref "a")], .ref "b"])])] := by
    decide +kernel
  obtain ⟨sections, hsections, hmap⟩ := Option.map_eq_some_iff.1 hread
  obtain _ | ⟨part, rest⟩ := sections
  · cases hmap
  obtain ⟨hgates, hexpressions⟩ := Prod.mk.inj (List.cons.inj hmap).1
  have hfirst := h Circuit.oneControl 4 (part :: rest) (by decide +kernel) (Outcome.toOption_eq_some.1 hsections) part
    List.mem_cons_self "b" (.xor [.and [.not (.ref "a")], .ref "b"]) 1 (by rw [hexpressions]; decide +kernel) (by decide +kernel)
    (by decide)
  rw [hgates] at hfirst
  exact absurd hfirst (by decide +kernel)

end ReversibleLogic
