import ReversibleLogic.Proofs.Section.Decompile

/-!
# Reading a circuit back

A circuit whose gates fit its register can always be read (`Circuit.decompile_total`), whatever the limit on the size of
expressions. Each section that is read says what its gates do: run from any register, they leave on every qubit of the section
the value of its expression at the values that the register starts with, and every other qubit as it was
(`decompile_faithful`).
-/

namespace ReversibleLogic

variable {symbols : List Symbol} {rest : List Gate} {index : Nat} {limit : Option Nat} {g : Gate} {q : Qubit}

/-! ## Reading never fails -/

namespace Run

/-- A qubit of the register can be touched. -/
theorem touch_total (hq : q < symbols.length) (r : Run) : ∃ p, r.touch symbols q = .ok p := by
  unfold touch
  rw [getElem?_symbolOf hq]
  dsimp only
  split
  · exact ⟨_, rfl⟩
  · exact ⟨_, rfl⟩

/-- So can several. -/
theorem touchAll_total {qs : List Qubit} (hqs : ∀ q ∈ qs, q < symbols.length) :
    ∀ r : Run, ∃ p, r.touchAll symbols qs = .ok p := by
  induction qs with
  | nil => exact fun r => ⟨([], r), rfl⟩
  | cons q qs ih =>
    intro r
    obtain ⟨⟨e, r₁⟩, hq⟩ := touch_total (hqs q List.mem_cons_self) r
    obtain ⟨⟨es, r₂⟩, hes⟩ := ih (fun p hp => hqs p (List.mem_cons_of_mem q hp)) r₁
    refine ⟨(e :: es, r₂), ?_⟩
    unfold touchAll
    exact Outcome.bind_eq_ok.2 ⟨(e, r₁), hq, Outcome.bind_eq_ok.2 ⟨(es, r₂), hes, rfl⟩⟩

/-- A gate of the NOT family gives its target a new value. -/
theorem newValue_total (hg : g.kind.isClassical = true) (controls : List Expression) (old : Expression) :
    ∃ e, newValue g controls old = .ok e := by
  unfold newValue
  cases hk : g.kind with
  | x | cx | ccx | mcx n => exact ⟨_, rfl⟩
  | barrier | blackBox name =>
    rw [hk] at hg
    cases hg

/-- A gate of the NOT family whose qubits have symbols can be read. -/
theorem push_total (hg : g.Flips symbols.length) (r : Run) : ∃ r', r.push symbols g = .ok r' := by
  obtain ⟨t, ht⟩ := hg.toggles
  obtain ⟨⟨controls, r₁⟩, hcontrols⟩ := touchAll_total (fun q hq => hg.fits.range q (ht.control_mem hq)) r
  obtain ⟨⟨old, r₂⟩, hold⟩ := touch_total (hg.fits.range t ht.target_mem) r₁
  obtain ⟨e, he⟩ := newValue_total hg.classical controls old
  unfold push
  rw [ht.target]
  exact ⟨_, Outcome.bind_eq_ok.2 ⟨_, hcontrols, Outcome.bind_eq_ok.2 ⟨_, hold, Outcome.bind_eq_ok.2 ⟨e, he, rfl⟩⟩⟩⟩

end Run

/-- Gates that fit the register can be read, wherever the last run began. -/
theorem sectionsFrom_total : ∀ {index : Nat} {current : Option Run}, (∀ g ∈ rest, g.Fits symbols.length) →
    ∃ sections, sectionsFrom symbols limit index current rest = .ok sections := by
  induction rest with
  | nil => exact fun _ => ⟨_, rfl⟩
  | cons g rest ih =>
    intro index current hfit
    have hfit' : ∀ g ∈ rest, g.Fits symbols.length := fun k hk => hfit k (List.mem_cons_of_mem g hk)
    unfold sectionsFrom
    by_cases hc : g.kind.isClassical = true
    · rw [if_pos hc]
      obtain ⟨done, r, hopen⟩ : ∃ done r, Run.admit symbols limit index current g = (done, r) := ⟨_, _, rfl⟩
      rw [hopen]
      obtain ⟨r', hpush⟩ := Run.push_total ⟨hc, hfit g List.mem_cons_self⟩ r
      obtain ⟨more, hmore⟩ := @ih (index + 1) (some r') hfit'
      exact ⟨_, Outcome.bind_eq_ok.2 ⟨r', hpush, Outcome.bind_eq_ok.2 ⟨more, hmore, rfl⟩⟩⟩
    · rw [if_neg hc]
      obtain ⟨more, hmore⟩ := @ih (index + 1) none hfit'
      exact ⟨_, Outcome.bind_eq_ok.2 ⟨more, hmore, rfl⟩⟩

/-- A circuit whose gates fit its register can be read. -/
theorem Circuit.decompile_total {c : Circuit} (hfit : ∀ g ∈ c.gates, g.Fits c.numQubits) (limit : Option Nat) :
    ∃ sections, c.decompile limit = .ok sections := by
  rw [Circuit.numQubits, ← length_uniqueSymbols] at hfit
  exact sectionsFrom_total hfit

/-! ## What is read is what the gates do -/

namespace Section.Faithful

variable {s : Section}

/-- On a register of the circuit's size the gates of the section run, and do what they do to the values of all qubits. -/
theorem run_eq (h : s.Faithful symbols) {v : Register} (hv : v.size = symbols.length) :
    ∃ t, runGates s.gates v = .ok t ∧ t.size = v.size ∧ t.bits = actGates .idle s.gates v.bits := by
  rw [← runGatesWith_of_no_blackBox .idle fun g hg => GateKind.isBlackBox_of_isClassical (h.flips g hg).classical]
  exact runGatesWith_eq .idle fun g hg => hv ▸ (h.flips g hg).fits

/-- The symbol that a section lists for a qubit is the symbol of the qubit. -/
theorem symbol_eq (h : s.Faithful symbols) {name : Symbol} (hq : (name, q) ∈ s.symbols) : name = Run.symbolOf symbols q := by
  have hnames := h.names
  rw [Section.symbolNames, Section.qubits, List.map_map] at hnames
  exact List.map_inj_left.1 hnames (name, q) hq

end Section.Faithful

/-! ## Which gates are read -/

/-- The sections have the gates of the NOT family, in order. -/
theorem sectionsFrom_gates {sections : List Section} (h : sectionsFrom symbols limit index none rest = .ok sections) :
    sections.flatMap Section.gates = rest.filter fun g => g.kind.isClassical := by
  have htiles := tiles_sectionsFrom.1 h
  clear h
  induction htiles with
  | nil index => rfl
  | skip hg _ ih => rw [ih, List.filter_cons, if_neg (Bool.eq_false_iff.1 hg)]
  | read _ hclassical _ _ _ ih => rw [List.flatMap_cons, ih, List.filter_append, List.filter_eq_self.2 hclassical]

/-- A circuit whose gates are valid can be read back, whatever the limit on the size of expressions, and all its gates of the NOT
family are read, in order. Run from any register, the gates of a section leave on each qubit that it lists the value of the
expression of the qubit's symbol, where every symbol has the bit of its qubit at the start; all other qubits keep their bits. -/
theorem decompile_faithful {c : Circuit} (hvalid : ∀ g ∈ c.gates, c.validate g = .ok ()) (limit : Option Nat) :
    ∃ sections, c.decompile limit = .ok sections ∧
      sections.flatMap Section.gates = c.gates.filter (fun g => g.kind.isClassical) ∧
      ∀ part ∈ sections, ∀ s : Register, s.size = c.numQubits →
        ∃ t, runGates part.gates s = .ok t ∧
          (∀ name q, (name, q) ∈ part.symbols → (uniqueSymbols c.labels)[q]? = some name ∧
            ∃ b, (part.expressionOf name).eval (.ofPairs ((uniqueSymbols c.labels).zip s.toList)) = .ok b ∧ t[q]? = some b) ∧
          ∀ q, q ∉ part.qubits → t[q]? = s[q]? := by
  have hfit : ∀ g ∈ c.gates, g.Fits c.numQubits := fun g hg => Circuit.validate_eq_ok_iff.1 (hvalid g hg)
  obtain ⟨sections, hsections⟩ := c.decompile_total hfit limit
  refine ⟨sections, hsections, sectionsFrom_gates hsections, fun part hpart s hsize => ?_⟩
  have hfaithful := (laid_decompile hfit hsections).faithful part hpart
  have hlen : s.size = (uniqueSymbols c.labels).length := by rw [length_uniqueSymbols, hsize, Circuit.numQubits]
  obtain ⟨t, ht, htsize, htbits⟩ := hfaithful.run_eq hlen
  refine ⟨t, ht, fun name q hname => ?_, fun q hq => ?_⟩
  · have hq := hfaithful.range (List.mem_map_of_mem (f := Prod.snd) hname)
    obtain rfl := hfaithful.symbol_eq hname
    refine ⟨getElem?_symbolOf hq, t.bits q, ?_, Register.getElem?_eq_some_bits (htsize ▸ hlen ▸ hq)⟩
    have hrow : Bits.ofRow s.toList = s.bits := (Register.bits_toArray s.toList).symm
    rw [Valuation.ofPairs_zip (nodup_uniqueSymbols c.labels) (Nat.le_of_eq hlen.symm), hrow, htbits]
    exact hfaithful.value q hq .idle s.bits
  · refine Register.getElem?_congr htsize ?_
    rw [htbits]
    exact actGates_of_not_mem (fun g hg hqg => hq ((hfaithful.qubits.2 q).2 ⟨g, hg, hqg⟩)) _

/-- Three qubits, two of them with one label. The gates before the barrier have one control, none and two. -/
def Circuit.twins : Circuit where
  name := "twins"
  labels := ["t", "t", "u"]
  gates := [{ kind := .mcx 1, qubits := [0, 1] }, { kind := .mcx 0, qubits := [1] }, .ccx 0 1 2,
    { kind := .barrier, qubits := [] }, .x 0]

/-- The first section of the twins, run with the first qubit set, leaves 0 on the second, and its expression says so. -/
theorem decompile_faithful_twins : (∀ g ∈ Circuit.twins.gates, Circuit.twins.validate g = .ok ()) ∧
    ∃ part rest t, Circuit.twins.decompile none = .ok (part :: rest) ∧ part.gates = Circuit.twins.gates.take 3 ∧
      runGates part.gates #[true, false, false] = .ok t ∧ t[1]? = some false ∧
      (part.expressionOf "t@1").eval (.ofPairs [("t@0", true), ("t@1", false), ("u", false)]) = .ok false := by
  have hvalid : ∀ g ∈ Circuit.twins.gates, Circuit.twins.validate g = .ok () := by decide +kernel
  have hnames : uniqueSymbols Circuit.twins.labels = ["t@0", "t@1", "u"] := by decide +kernel
  have hread : (Circuit.twins.decompile none).toOption.map (fun l => l.map fun part => (part.symbols, part.gates)) =
      some [([("t@0", 0), ("t@1", 1), ("u", 2)], Circuit.twins.gates.take 3), ([("t@0", 0)], [.x 0])] := by decide +kernel
  obtain ⟨sections, hsections, -, hall⟩ := decompile_faithful hvalid none
  rw [hsections] at hread
  obtain _ | ⟨part, rest⟩ := sections
  · cases hread
  have hpart := (List.cons.inj (Option.some.inj hread)).1
  obtain ⟨t, ht, hvalue, -⟩ := hall part List.mem_cons_self #[true, false, false] rfl
  obtain ⟨-, b, hb, hbit⟩ := hvalue "t@1" 1 (by rw [(Prod.mk.inj hpart).1]; decide)
  rw [hnames] at hb
  have hrun : (runGates part.gates #[true, false, false]).toOption.bind (fun t => t[1]?) = some false := by
    rw [(Prod.mk.inj hpart).2]
    decide +kernel
  rw [ht] at hrun
  obtain rfl : b = false := Option.some.inj (hbit.symm.trans hrun)
  exact ⟨hvalid, part, rest, t, hsections, (Prod.mk.inj hpart).2, ht, hbit, hb⟩

end ReversibleLogic
