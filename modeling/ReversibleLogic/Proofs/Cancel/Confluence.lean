import Mathlib.Logic.Relation
import ReversibleLogic.Proofs.Cancel

/-!
# Cancelling in any order

What the pass leaves holds no two gates that it would cancel: no two neighbours of the NOT family that are the same, and no two
with a single barrier between them. Without barriers and parameters more is true. To take a gate twice onto gates in which nothing
cancels changes nothing (`cancelStep_cancelStep`), so the pass does not see whether a pair of equal neighbours has been deleted
before (`cancelPairs_of_deletes`). Hence all ways to delete such pairs, one after another until none is left, end with the same
gates, and these are what the pass leaves (`Circuit.removeIdentities_confluent`).
-/

namespace ReversibleLogic

open Relation (ReflTransGen)

variable {g h k b : Gate} {gs hs seen rest : List Gate}

/-! ## Neighbours -/

/-- Where nothing cancels, the latest gate has not been cancelled. -/
theorem Irreducible.not_cancels (hirr : Irreducible (g :: seen)) : ¬ (cancelStep seen g).length ≤ seen.length := by
  rw [hirr.1, List.length_cons]
  omega

/-- The latest gate and the one before it are not the same, unless they are outside the NOT family. -/
theorem Irreducible.not_same (hirr : Irreducible (g :: k :: rest)) (hc : k.kind.isClassical = true) : k.same g = false := by
  rw [Bool.eq_false_iff]
  intro hsame
  refine hirr.not_cancels ?_
  rw [cancelStep_of_same (Gate.kind_eq_of_same hsame ▸ hc) hsame, List.length_cons]
  omega

/-- Nor are the latest gate and one with a single barrier between them. -/
theorem Irreducible.not_same_of_barrier (hirr : Irreducible (g :: b :: k :: rest)) (hc : k.kind.isClassical = true)
    (hb : b.kind.isBarrier = true) : k.same g = false := by
  rw [Bool.eq_false_iff]
  intro hsame
  refine hirr.not_cancels ?_
  rw [cancelStep_of_barrier (Gate.kind_eq_of_same hsame ▸ hc) hb hsame, List.length_cons, List.length_cons, List.length_cons]
  omega

/-- Nor has anything before it. -/
theorem Irreducible.of_append : ∀ l : List Gate, Irreducible (l ++ seen) → Irreducible seen
  | [], h => h
  | _ :: l, h => Irreducible.of_append l h.2

/-- Gates that stand together in what is left stand together, latest first, among gates in which nothing cancels. -/
theorem exists_irreducible_of_infix {part : List Gate} (h : part <:+: cancelPairs gs) :
    ∃ rest, Irreducible (part.reverse ++ rest) := by
  obtain ⟨before, after, heq⟩ := h
  have hirr : Irreducible (gs.foldl cancelStep []) := irreducible_foldl gs
  rw [← List.reverse_reverse (gs.foldl cancelStep []), ← cancelPairs, ← heq] at hirr
  refine ⟨before.reverse, Irreducible.of_append after.reverse ?_⟩
  simpa using hirr

/-- No two neighbours are left that would cancel. -/
theorem same_eq_false_of_neighbours (h : [k, g] <:+: cancelPairs gs) (hc : k.kind.isClassical = true) : k.same g = false := by
  obtain ⟨rest, hirr⟩ := exists_irreducible_of_infix h
  exact hirr.not_same hc

/-- Not even over a barrier. -/
theorem same_eq_false_of_barrier (h : [k, b, g] <:+: cancelPairs gs) (hc : k.kind.isClassical = true)
    (hb : b.kind.isBarrier = true) : k.same g = false := by
  obtain ⟨rest, hirr⟩ := exists_irreducible_of_infix h
  exact hirr.not_same_of_barrier hc hb

/-! ## Deleting pairs -/

/-- The second list of gates is the first without two neighbours of the NOT family that are the same. -/
inductive Deletes : List Gate → List Gate → Prop
  | pair (before after : List Gate) {g h : Gate} : g.kind.isClassical = true → g.same h = true →
      Deletes (before ++ g :: h :: after) (before ++ after)

/-- The gate is no barrier and has no parameter. -/
structure Gate.Plain (g : Gate) : Prop where
  barrier : g.kind.isBarrier = false
  param : g.param = none

/-- Without parameters, gates are the same only if they are equal. -/
theorem Gate.Plain.same_iff (hg : g.Plain) (hh : h.Plain) : g.same h = true ↔ g = h := by
  cases g
  cases h
  cases hg.param
  cases hh.param
  simp [Gate.same, Param.same?]

/-- A deletion leaves the other gates in order. -/
theorem Deletes.sublist (h : Deletes gs hs) : hs.Sublist gs := by
  cases h with
  | pair before after =>
    exact (List.Sublist.refl before).append (((List.Sublist.refl after).cons _).cons _)

/-- Deletions put in no other gates. -/
theorem plain_of_reflTransGen (h : ReflTransGen Deletes gs hs) (hgs : ∀ g ∈ gs, g.Plain) : ∀ g ∈ hs, g.Plain := by
  induction h with
  | refl => exact hgs
  | tail _ hstep ih => exact fun g hg => ih g (hstep.sublist.subset hg)

/-- A gate without a parameter that is taken twice onto gates in which nothing cancels leaves them as they were. -/
theorem cancelStep_cancelStep (hirr : Irreducible seen) (hseen : ∀ k ∈ seen, k.Plain) (hg : g.Plain)
    (hc : g.kind.isClassical = true) : cancelStep (cancelStep seen g) g = seen := by
  rcases cancelStep_cases seen g with hpush | ⟨k, rest, -, hsame, rfl | ⟨b, hb, rfl⟩⟩
  · rw [hpush, cancelStep_of_same hc ((hg.same_iff hg).2 rfl)]
  · obtain rfl := ((hseen k List.mem_cons_self).same_iff hg).1 hsame
    -- the first time it goes with its like, so the second time nothing is left for it to go with
    rw [cancelStep_of_same hc hsame]
    exact hirr.1
  · rw [(hseen b List.mem_cons_self).barrier] at hb
    cases hb

/-- The pass leaves the same whether or not a pair has been deleted before. -/
theorem cancelPairs_of_deletes (hgs : ∀ g ∈ gs, g.Plain) (h : Deletes gs hs) : cancelPairs gs = cancelPairs hs := by
  cases h with
  | @pair before after g h hc hsame =>
    have hg : g.Plain := hgs g (by simp)
    obtain rfl := (hg.same_iff (hgs h (by simp))).1 hsame
    have hseen : ∀ k ∈ before.foldl cancelStep [], k.Plain := fun k hk =>
      hgs k (List.mem_append_left _ (mem_cancelPairs (List.mem_reverse.2 hk)))
    unfold cancelPairs
    rw [List.foldl_append, List.foldl_append, List.foldl_cons, List.foldl_cons,
      cancelStep_cancelStep (irreducible_foldl before) hseen hg hc]

/-- Whatever has been deleted before, the scan gives the same. -/
theorem cancelPairs_of_reflTransGen (hgs : ∀ g ∈ gs, g.Plain) (h : ReflTransGen Deletes gs hs) :
    cancelPairs gs = cancelPairs hs := by
  induction h with
  | refl => rfl
  | tail hrun hstep ih => exact ih.trans (cancelPairs_of_deletes (plain_of_reflTransGen hrun hgs) hstep)

/-- Without barriers a step of the pass deletes two neighbours or nothing. -/
theorem reflTransGen_cancelStep (hseen : ∀ k ∈ seen, k.kind.isBarrier = false) (g : Gate) (l : List Gate) :
    ReflTransGen Deletes (seen.reverse ++ g :: l) ((cancelStep seen g).reverse ++ l) := by
  rcases cancelStep_cases seen g with hpush | ⟨k, rest, hc, hsame, rfl | ⟨b, hb, rfl⟩⟩
  · have hsame : (cancelStep seen g).reverse ++ l = seen.reverse ++ g :: l := by simp [hpush]
    exact hsame ▸ .refl
  · rw [cancelStep_of_same hc hsame, List.reverse_cons, List.append_assoc]
    exact .single (.pair rest.reverse l (Gate.kind_eq_of_same hsame ▸ hc) hsame)
  · rw [hseen b List.mem_cons_self] at hb
    cases hb

/-- Without barriers, what the scan does is a sequence of deletions. -/
theorem reflTransGen_cancelPairs (hgs : ∀ g ∈ gs, g.kind.isBarrier = false) : ReflTransGen Deletes gs (cancelPairs gs) :=
  cancelPairs_induction (fun _ => .refl) .trans (fun l hseen _ => reflTransGen_cancelStep hseen _ l) hgs

/-- Gates from which no pair can be deleted are what the pass leaves of them. -/
theorem cancelPairs_of_forall_not_deletes (hgs : ∀ g ∈ gs, g.kind.isBarrier = false) (h : ∀ ks, ¬ Deletes gs ks) :
    cancelPairs gs = gs := by
  rcases (reflTransGen_cancelPairs hgs).cases_head with heq | ⟨ks, hstep, -⟩
  · exact heq.symm
  · exact absurd hstep (h ks)

/-- After the scan there is nothing to delete. -/
theorem not_deletes_cancelPairs (gs ks : List Gate) : ¬ Deletes (cancelPairs gs) ks := by
  generalize hleft : cancelPairs gs = left
  intro h
  cases h with
  | @pair before after g h hc hsame =>
    have hinfix : [g, h] <:+: cancelPairs gs := ⟨before, after, by rw [hleft]; simp⟩
    rw [same_eq_false_of_neighbours hinfix hc] at hsame
    cases hsame

/-- What cancelling leaves holds no two gates of the NOT family that are the same and stand next to each other or have one barrier
between them, so a second pass changes nothing and takes nothing away. If there are neither barriers nor parameters, it can be
reached by deleting pairs of equal neighbours one after another, no other list can be reached from which no pair can be deleted,
and none can be reached that is shorter. -/
theorem Circuit.removeIdentities_confluent (c : Circuit) :
    (∀ g h, [g, h] <:+: c.removeIdentities.1.gates → g.kind.isClassical = true → g.same h = false) ∧
      (∀ g b h, [g, b, h] <:+: c.removeIdentities.1.gates → g.kind.isClassical = true → b.kind.isBarrier = true →
        g.same h = false) ∧
      c.removeIdentities.1.removeIdentities = (c.removeIdentities.1, 0) ∧
      ((∀ g ∈ c.gates, g.Plain) →
        ReflTransGen Deletes c.gates c.removeIdentities.1.gates ∧ (∀ ks, ¬ Deletes c.removeIdentities.1.gates ks) ∧
          ∀ gs, ReflTransGen Deletes c.gates gs → c.removeIdentities.1.gates.length ≤ gs.length ∧
            ((∀ ks, ¬ Deletes gs ks) → gs = c.removeIdentities.1.gates)) := by
  refine ⟨fun g h => same_eq_false_of_neighbours, fun g b h => same_eq_false_of_barrier, c.removeIdentities_removeIdentities,
    fun hplain => ⟨reflTransGen_cancelPairs fun g hg => (hplain g hg).barrier, not_deletes_cancelPairs c.gates, ?_⟩⟩
  intro gs hreach
  change (cancelPairs c.gates).length ≤ gs.length ∧ ((∀ ks, ¬ Deletes gs ks) → gs = cancelPairs c.gates)
  rw [cancelPairs_of_reflTransGen hplain hreach]
  refine ⟨(cancelPairs_sublist gs).length_le, fun hend => (cancelPairs_of_forall_not_deletes (fun g hg => ?_) hend).symm⟩
  exact (plain_of_reflTransGen hreach hplain g hg).barrier

/-- A gate that the pass knows nothing about. -/
def sealedGate : Gate := { kind := .blackBox "u", qubits := [0] }

/-- Three equal flips, of which two go in either of two ways, two black boxes, and a pair inside a pair. -/
def threeFlips : Circuit where
  name := "threeFlips"
  labels := ["q0", "q1"]
  gates := [.x 0, .x 0, .x 0, sealedGate, sealedGate, .cx 0 1, .x 1, .x 1, .cx 0 1]

/-- A flip whose parameter is a NaN, and which is not the same as itself. -/
def oddFlip : Gate := { kind := .x, qubits := [0], param := some ⟨0x7ff8000000000000⟩ }

/-- Such flips next to each other and around a barrier. -/
def oddFlips : Circuit where
  name := "oddFlips"
  labels := ["q0"]
  gates := [oddFlip, oddFlip, { kind := .barrier, qubits := [0] }, oddFlip]

/-- One flip and both black boxes are left of the first circuit in every order. In the second nothing cancels. -/
theorem Circuit.removeIdentities_confluent_threeFlips :
    threeFlips.removeIdentities.1.gates = [.x 0, sealedGate, sealedGate] ∧ (∀ g ∈ threeFlips.gates, g.Plain) ∧
      ReflTransGen Deletes threeFlips.gates [.x 0, sealedGate, sealedGate] ∧
      (∀ gs, ReflTransGen Deletes threeFlips.gates gs → 3 ≤ gs.length ∧
        ((∀ ks, ¬ Deletes gs ks) → gs = [.x 0, sealedGate, sealedGate])) ∧
      oddFlips.removeIdentities.1.gates = oddFlips.gates ∧ oddFlip.same oddFlip = false := by
  have hleft : threeFlips.removeIdentities.1.gates = [.x 0, sealedGate, sealedGate] := by decide +kernel
  have hplain : ∀ g ∈ threeFlips.gates, g.Plain := by
    have hall : ∀ g ∈ threeFlips.gates, g.kind.isBarrier = false ∧ g.param = none := by decide
    exact fun g hg => ⟨(hall g hg).1, (hall g hg).2⟩
  have hodd : oddFlips.removeIdentities.1.gates = oddFlips.gates := by decide +kernel
  obtain ⟨hreach, -, hunique⟩ := (removeIdentities_confluent threeFlips).2.2.2 hplain
  rw [hleft] at hreach hunique
  have hfenced : [oddFlip, { kind := .barrier, qubits := [0] }, oddFlip] <:+: oddFlips.removeIdentities.1.gates := by
    rw [hodd]
    exact ⟨[oddFlip], [], rfl⟩
  exact ⟨hleft, hplain, hreach, hunique, hodd, (removeIdentities_confluent oddFlips).2.1 _ _ _ hfenced rfl rfl⟩

end ReversibleLogic
