import Mathlib.Data.List.Nodup
import ReversibleLogic.Proofs.Action

/-!
# Gates on other qubits

A circuit may be appended to another one, with its qubits placed elsewhere. `Circuit.Appended` says what appending does,
`appendAll_total` and `appendCircuit_total` that it succeeds on gates that fit, and `actGates_mapQubits` that gates do on their
new places what they do on the old ones, as long as no two qubits are placed on one.
-/

namespace ReversibleLogic

variable {c c' c₁ c₂ : Circuit} {g : Gate} {gs hs : List Gate} {mapping : List Qubit} {box : Reading}

/-! ## What is appended -/

/-- `c'` is `c` with the gates `gs`, which it accepted, on the same register. -/
structure Circuit.Appended (c : Circuit) (gs : List Gate) (c' : Circuit) : Prop where
  labels : c'.labels = c.labels
  names : c'.names = c.names
  ancillas : c'.ancillas = c.ancillas
  gates : c'.gates = c.gates ++ gs
  fits : ∀ g ∈ gs, g.Fits c.numQubits

namespace Circuit

/-- Nothing is appended. -/
theorem Appended.refl (c : Circuit) : c.Appended [] c := ⟨rfl, rfl, rfl, (List.append_nil _).symm, by simp⟩

/-- The register stays as large as it is. -/
theorem Appended.numQubits (h : c.Appended gs c') : c'.numQubits = c.numQubits := congrArg List.length h.labels

/-- What is appended in two steps is appended. -/
theorem Appended.trans (h₁ : c.Appended gs c₁) (h₂ : c₁.Appended hs c₂) : c.Appended (gs ++ hs) c₂ := by
  refine ⟨h₂.labels.trans h₁.labels, h₂.names.trans h₁.names, h₂.ancillas.trans h₁.ancillas,
    by rw [h₂.gates, h₁.gates, List.append_assoc], fun g hg => ?_⟩
  rcases List.mem_append.1 hg with hg | hg
  · exact h₁.fits g hg
  · exact h₁.numQubits ▸ h₂.fits g hg

/-- An accepted gate is appended. -/
theorem appended_append (h : c.append g = (c', .ok ())) : c.Appended [g] c' := by
  unfold append at h
  split at h
  · cases (Prod.mk.inj h).2
  · next hv =>
    have hfit : ∀ k ∈ [g], k.Fits c.numQubits := fun k hk => List.mem_singleton.1 hk ▸ validate_eq_ok_iff.1 hv
    split at h
    · obtain rfl := (Prod.mk.inj h).1
      exact ⟨rfl, rfl, rfl, rfl, hfit⟩
    · obtain rfl := (Prod.mk.inj h).1
      exact ⟨rfl, rfl, rfl, rfl, hfit⟩

/-- A sequence of gates is appended when its first gate is, and the others are to what that leaves. -/
theorem appendAll_cons_eq_ok : c.appendAll (g :: gs) = .ok c' ↔ ∃ c₁, c.append g = (c₁, .ok ()) ∧ c₁.appendAll gs = .ok c' := by
  rw [appendAll]
  obtain ⟨c₁, answer⟩ := c.append g
  cases answer with
  | ok _ => simp
  | error e => simp

/-- Accepted gates are appended in order. -/
theorem appended_appendAll : ∀ {c : Circuit}, c.appendAll gs = .ok c' → c.Appended gs c' := by
  induction gs with
  | nil =>
    intro c h
    obtain rfl := Except.ok.inj h
    exact .refl c
  | cons g gs ih =>
    intro c h
    obtain ⟨c₁, hg, hgs⟩ := appendAll_cons_eq_ok.1 h
    exact (appended_append hg).trans (ih hgs)

/-- A gate that fits is accepted. -/
theorem append_total (h : g.Fits c.numQubits) : ∃ c', c.append g = (c', .ok ()) := by
  unfold append
  rw [validate_eq_ok_iff.2 h]
  dsimp only
  split
  · exact ⟨_, rfl⟩
  · exact ⟨_, rfl⟩

/-- Gates that fit are all accepted. -/
theorem appendAll_total : ∀ {c : Circuit}, (∀ g ∈ gs, g.Fits c.numQubits) → ∃ c', c.appendAll gs = .ok c' := by
  induction gs with
  | nil => exact fun {c} _ => ⟨c, rfl⟩
  | cons g gs ih =>
    intro c h
    obtain ⟨c₁, hg⟩ := append_total (h g List.mem_cons_self)
    obtain ⟨c₂, hgs⟩ := ih (c := c₁) fun k hk => (appended_append hg).numQubits ▸ h k (List.mem_cons_of_mem g hk)
    exact ⟨c₂, appendAll_cons_eq_ok.2 ⟨c₁, hg, hgs⟩⟩

end Circuit

/-! ## Placing qubits elsewhere -/

/-- The gate with its qubits placed elsewhere. -/
def Gate.mapQubits (f : Qubit → Qubit) (g : Gate) : Gate := { g with qubits := g.qubits.map f }

/-- Where a mapping places a qubit. A qubit beyond it stays where it is. -/
def place (mapping : List Qubit) (q : Qubit) : Qubit := mapping[q]?.getD q

/-- The place of a qubit that the mapping has is one of its qubits. -/
theorem place_mem {q : Qubit} (h : q < mapping.length) : place mapping q ∈ mapping := by
  rw [place, List.getElem?_eq_getElem h]
  exact List.getElem_mem h

/-- Every qubit of a mapping is the place of some qubit. -/
theorem exists_place {p : Qubit} (h : p ∈ mapping) : ∃ q, q < mapping.length ∧ place mapping q = p := by
  obtain ⟨q, hq, rfl⟩ := List.mem_iff_getElem.1 h
  exact ⟨q, hq, by rw [place, List.getElem?_eq_getElem hq]; rfl⟩

/-- A mapping without repetition places no two qubits on one. -/
theorem place_inj (hmap : mapping.Nodup) {p q : Qubit} (hp : p < mapping.length) (hq : q < mapping.length)
    (h : place mapping p = place mapping q) : p = q := by
  rw [place, place, List.getElem?_eq_getElem hp, List.getElem?_eq_getElem hq] at h
  exact hmap.getElem_inj_iff.1 h

namespace Circuit

/-- Qubits that a mapping has are replaced by their places. -/
theorem relabel_eq_ok {qs : List Qubit} : ∀ {rs : List Qubit}, relabel mapping qs = .ok rs → rs = qs.map (place mapping) := by
  induction qs with
  | nil =>
    intro rs h
    exact (Except.ok.inj h).symm
  | cons q qs ih =>
    intro rs h
    unfold relabel at h
    cases hq : mapping[q]? with
    | none =>
      rw [hq] at h
      exact absurd h Outcome.throw_eq_ok.1
    | some r =>
      rw [hq] at h
      obtain ⟨rest, hrest, hret⟩ := Outcome.bind_eq_ok.1 h
      obtain rfl := Outcome.pure_eq_ok.1 hret
      rw [ih hrest, List.map_cons, place, hq]
      rfl

/-- Gates are appended with their qubits placed where the mapping says. -/
theorem appended_appendMapped : ∀ {c : Circuit}, c.appendMapped mapping gs = (c', .ok ()) →
    c.Appended (gs.map (Gate.mapQubits (place mapping))) c' := by
  induction gs with
  | nil =>
    intro c h
    obtain rfl := (Prod.mk.inj h).1
    exact .refl c
  | cons g gs ih =>
    intro c h
    unfold appendMapped at h
    cases hq : relabel mapping g.qubits with
    | error e => simp [hq] at h
    | ok qubits =>
      rcases hg : c.append { g with qubits } with ⟨c₁, answer⟩
      cases answer with
      | error e => simp [hq, hg] at h
      | ok _ =>
        simp only [hq, hg] at h
        obtain rfl := relabel_eq_ok hq
        exact (appended_append hg).trans (ih h)

/-- Another circuit is appended with its qubits placed where the mapping says. -/
theorem appended_appendCircuit {other : Circuit} (h : c.appendCircuit other mapping = (c', .ok ())) :
    c.Appended (other.gates.map (Gate.mapQubits (place mapping))) c' := by
  unfold appendCircuit at h
  split at h
  · cases (Prod.mk.inj h).2
  · exact appended_appendMapped h

end Circuit

/-- A gate that is placed elsewhere fits there, if no two qubits are placed on one. -/
theorem Gate.Fits.mapQubits {n m : Nat} {f : Qubit → Qubit} (h : g.Fits n) (hf : ∀ p q, p < n → q < n → f p = f q → p = q)
    (hrange : ∀ q, q < n → f q < m) : (g.mapQubits f).Fits m := by
  refine ⟨fun k hk => ⟨(h.arity k hk).1, (List.length_map ..).trans (h.arity k hk).2⟩, fun hb he => ?_, fun q hq => ?_, ?_⟩
  · exact h.nonempty hb (List.map_eq_nil_iff.1 he)
  · obtain ⟨p, hp, rfl⟩ := List.mem_map.1 hq
    exact hrange p (h.range p hp)
  · exact h.nodup.map_on fun p hp q hq => hf p q (h.range p hp) (h.range q hq)

namespace Circuit

/-- The qubits that a mapping has are found. -/
theorem relabel_total {qs : List Qubit} (h : ∀ q ∈ qs, q < mapping.length) :
    relabel mapping qs = .ok (qs.map (place mapping)) := by
  induction qs with
  | nil => rfl
  | cons q qs ih =>
    unfold relabel
    rw [ih fun p hp => h p (List.mem_cons_of_mem q hp), List.map_cons, place,
      List.getElem?_eq_getElem (h q List.mem_cons_self)]
    rfl

/-- Gates whose qubits are placed on distinct qubits of the register are accepted. -/
theorem appendMapped_total {n : Nat} (hlen : n ≤ mapping.length)
    (hmap : ∀ p q, p < n → q < n → place mapping p = place mapping q → p = q) :
    ∀ {c : Circuit}, (∀ q, q < n → place mapping q < c.numQubits) → (∀ g ∈ gs, g.Fits n) →
      ∃ c', c.appendMapped mapping gs = (c', .ok ()) := by
  induction gs with
  | nil => exact fun {c} _ _ => ⟨c, rfl⟩
  | cons g gs ih =>
    intro c hrange hgs
    have hg := hgs g List.mem_cons_self
    obtain ⟨c₁, happ⟩ := append_total (hg.mapQubits hmap hrange)
    obtain ⟨c₂, hrest⟩ := ih (c := c₁) ((appended_append happ).numQubits ▸ hrange) fun k hk => hgs k (List.mem_cons_of_mem g hk)
    have hqubits := relabel_total fun q hq => Nat.lt_of_lt_of_le (hg.range q hq) hlen
    rw [Gate.mapQubits] at happ
    exact ⟨c₂, by simp only [appendMapped, hqubits, happ, hrest]⟩

/-- A circuit whose gates fit its register can be appended on distinct qubits. -/
theorem appendCircuit_total {other : Circuit} (hlen : other.numQubits ≤ mapping.length)
    (hmap : ∀ p q, p < other.numQubits → q < other.numQubits → place mapping p = place mapping q → p = q)
    (hrange : ∀ q, q < other.numQubits → place mapping q < c.numQubits) (hgates : ∀ g ∈ other.gates, g.Fits other.numQubits) :
    ∃ c', c.appendCircuit other mapping = (c', .ok ()) := by
  unfold appendCircuit
  rw [if_neg (Nat.not_lt.2 hlen)]
  exact appendMapped_total hlen hmap hrange hgates

end Circuit

/-! ## The action elsewhere -/

section Action

variable {n : Nat} {f : Qubit → Qubit} {s b : Bits}

theorem Gate.mapQubits_target (g : Gate) (f : Qubit → Qubit) : (g.mapQubits f).target? = g.target?.map f :=
  List.getLast?_map

theorem Gate.mapQubits_controls (g : Gate) (f : Qubit → Qubit) : (g.mapQubits f).controls = g.controls.map f :=
  List.map_dropLast.symm

/-- A gate of the NOT family flips its target wherever its qubits are placed. -/
theorem Gate.Toggles.mapQubits {t : Qubit} (ht : g.Toggles t) (hf : ∀ q ∈ g.controls, f q ≠ f t) :
    (g.mapQubits f).Toggles (f t) := by
  refine ⟨ht.classical, by rw [Gate.mapQubits_target, ht.target, Option.map_some], fun hmem => ?_⟩
  rw [Gate.mapQubits_controls] at hmem
  obtain ⟨q, hq, he⟩ := List.mem_map.1 hmem
  exact hf q hq he

/-- Bits that are written elsewhere are written as they are here, if no two qubits are placed on one. -/
theorem Bits.write_map (hf : ∀ p q, p < n → q < n → f p = f q → p = q) {qs : List Qubit} :
    ∀ {s b : Bits} (bs : List Bool), (∀ q ∈ qs, q < n) → (∀ q, q < n → b q = s (f q)) →
      ∀ q, q < n → b.write qs bs q = s.write (qs.map f) bs (f q) := by
  induction qs with
  | nil => exact fun _ _ hb => hb
  | cons r qs ih =>
    intro s b bs hqs hb
    obtain ⟨hr, hqs⟩ := List.forall_mem_cons.1 hqs
    cases bs with
    | nil => exact hb
    | cons v bs =>
      refine ih bs hqs fun q hq => ?_
      by_cases hqr : q = r
      · rw [hqr, Function.update_self, Function.update_self]
      · rw [Function.update_of_ne hqr, Function.update_of_ne fun he => hqr (hf q r hq hr he), hb q hq]

/-- A gate does elsewhere what it does here, if no two qubits are placed on one. -/
theorem Gate.Fits.act_mapQubits (hg : g.Fits n) (hf : ∀ p q, p < n → q < n → f p = f q → p = q)
    (hb : ∀ q, q < n → b q = s (f q)) {q : Qubit} (hq : q < n) : g.act box b q = (g.mapQubits f).act box s (f q) := by
  by_cases hc : g.kind.isClassical = true
  · obtain ⟨t, ht⟩ := hg.toggles hc
    have htn := hg.range t ht.target_mem
    have hcontrols : ∀ q ∈ g.controls, q < n := fun q hq => hg.range q (ht.control_mem hq)
    have hmap : (g.mapQubits f).Toggles (f t) :=
      ht.mapQubits fun q hq he => ht.control_ne hq (hf q t (hcontrols q hq) htn he)
    have hall : g.controls.all b = (g.controls.map f).all s := by
      rw [List.all_map]
      exact Bits.all_congr fun q hq => hb q (hcontrols q hq)
    rw [ht.act_eq, hmap.act_eq, Gate.mapQubits_controls, ← hall]
    by_cases hqt : q = t
    · subst hqt
      rw [Function.update_self, Function.update_self, hb q hq]
    · rw [Function.update_of_ne hqt, Function.update_of_ne fun he => hqt (hf q t hq htn he), hb q hq]
  · unfold Gate.act Gate.mapQubits
    cases hk : g.kind with
    | x | cx | ccx | mcx k => simp [hk, GateKind.isClassical] at hc
    | barrier => exact hb q hq
    | blackBox name =>
      have hread : g.qubits.map b = (g.qubits.map f).map s := by
        rw [List.map_map]
        exact List.map_congr_left fun p hp => hb p (hg.range p hp)
      rw [hread]
      exact Bits.write_map hf _ hg.range hb q hq

/-- Gates do elsewhere what they do here, if no two qubits are placed on one. -/
theorem actGates_mapQubits (hf : ∀ p q, p < n → q < n → f p = f q → p = q) :
    ∀ {s b : Bits}, (∀ g ∈ gs, g.Fits n) → (∀ q, q < n → b q = s (f q)) →
      ∀ q, q < n → actGates box gs b q = actGates box (gs.map (Gate.mapQubits f)) s (f q) := by
  induction gs with
  | nil => exact fun _ hb => hb
  | cons g gs ih =>
    intro s b hgs hb
    obtain ⟨hg, hgs⟩ := List.forall_mem_cons.1 hgs
    rw [List.map_cons, actGates_cons, actGates_cons]
    exact ih hgs fun q hq => hg.act_mapQubits hf hb hq

/-- Gates leave alone what none of their qubits is placed on. -/
theorem actGates_mapQubits_of_forall_ne (hgs : ∀ g ∈ gs, g.Fits n) {q : Qubit} (hq : ∀ p, p < n → f p ≠ q) (s : Bits) :
    actGates box (gs.map (Gate.mapQubits f)) s q = s q := by
  refine actGates_of_not_mem (fun k hk hqk => ?_) s
  obtain ⟨g, hg, rfl⟩ := List.mem_map.1 hk
  obtain ⟨p, hp, he⟩ := List.mem_map.1 hqk
  exact hq p ((hgs g hg).range p hp) he

end Action

end ReversibleLogic
