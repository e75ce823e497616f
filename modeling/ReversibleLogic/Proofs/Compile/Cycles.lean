import Mathlib.Data.List.Perm.Subperm
import Mathlib.Logic.Relation
import ReversibleLogic.Proofs.Compile.Schedule

/-!
# When there is no order

Simultaneous assignments can be made one after another unless those who read and those who overwrite go round in a circle
(`MustPrecede`). Why the search finds out: when a node is finished, all nodes that it leads to have been met. Those that are not
finished are open, that is on the way from the start to the node, so they lead back to it. Hence in the list of finished nodes
each node has behind it every node that it leads to directly, or lies on a circle with it (`Search.ranked_order`). A conflict is
a node with a reader behind it, and so on a circle with this reader.
-/

namespace ReversibleLogic

/-! ## Finished nodes -/

namespace Search

/-- There is a path from `a` to `b`. -/
abbrev Leads (next : Nat → List Nat) : Nat → Nat → Prop := Relation.ReflTransGen fun a b => b ∈ next a

/-- Each node of the list has behind it the nodes that it leads to directly, but for those that lead back to it. -/
def Ranked (next : Nat → List Nat) : List Nat → Prop
  | [] => True
  | x :: rest => (∀ y ∈ next x, y ∈ rest ∨ Leads next y x) ∧ Ranked next rest

variable {next : Nat → List Nat} {n : Nat} {s s' : Search} {L : List Nat}

/-- This is so for every node of the list. -/
theorem Ranked.of_append {l : List Nat} {x : Nat} {rest : List Nat} (h : Ranked next (l ++ x :: rest)) :
    ∀ y ∈ next x, y ∈ rest ∨ Leads next y x := by
  induction l with
  | nil => exact h.1
  | cons _ l ih => exact ih h.2

/-- A search among the nodes below `n` that is under way. -/
structure Underway (next : Nat → List Nat) (n : Nat) (s : Search) : Prop where
  nodup : s.seen.Nodup
  lt : ∀ x ∈ s.seen, x < n
  met : ∀ x ∈ s.finished, x ∈ s.seen
  ranked : Ranked next s.finished

/-- The node has been met and is not finished. -/
def Open (s : Search) (x : Nat) : Prop := x ∈ s.seen ∧ x ∉ s.finished

/-- Nodes that are met are finished, so no node is open that was not. -/
theorem Extends.open_of (h : Extends n s s' L) {x : Nat} (hx : s'.Open x) : s.Open x := by
  obtain ⟨hseen, hfinished⟩ := hx
  rw [h.finished, List.mem_append, not_or] at hfinished
  exact ⟨((h.seen x).1 hseen).resolve_left hfinished.1, hfinished.2⟩

/-- A visit only adds to what has been seen. -/
theorem Extends.length_le (h : Extends n s s' L) (hs : s.seen.Nodup) : s.seen.length ≤ s'.seen.length :=
  (hs.subperm fun x hx => (h.seen x).2 (Or.inr hx)).length_le

/-- When no depth is left, every node has been met. -/
theorem Underway.mem_seen (h : Underway next n s) (hn : n ≤ s.seen.length) {x : Nat} (hx : x < n) : x ∈ s.seen := by
  have hsub : s.seen.Subperm (List.range n) := h.nodup.subperm fun y hy => List.mem_range.2 (h.lt y hy)
  have hperm := hsub.perm_of_length_le (by rw [List.length_range]; exact hn)
  exact hperm.mem_iff.2 (List.mem_range.2 hx)

/-- A node is met for the first time. -/
theorem Underway.meet (h : Underway next n s) {node : Nat} (hnode : node < n) (hnew : node ∉ s.seen) :
    Underway next n { s with seen := node :: s.seen } := by
  refine ⟨List.nodup_cons.2 ⟨hnew, h.nodup⟩, fun x hx => ?_, fun x hx => List.mem_cons_of_mem node (h.met x hx), h.ranked⟩
  rcases List.mem_cons.1 hx with rfl | hx
  · exact hnode
  · exact h.lt x hx

/-- A node is finished when the nodes that it leads to directly have been met, and those of them that are open lead back to it. -/
theorem Underway.finish (h : Underway next n s) {node : Nat} (hseen : node ∈ s.seen) (hmet : ∀ y ∈ next node, y ∈ s.seen)
    (hopen : ∀ y, s.Open y → Leads next y node) : Underway next n { s with finished := node :: s.finished } := by
  refine ⟨h.nodup, h.lt, fun x hx => ?_, fun y hy => ?_, h.ranked⟩
  · rcases List.mem_cons.1 hx with rfl | hx
    · exact hseen
    · exact h.met x hx
  · by_cases hf : y ∈ s.finished
    · exact Or.inl hf
    · exact Or.inr (hopen y ⟨hmet y hy, hf⟩)

/-- Visits, one after another, keep the search under way and meet the nodes visited. -/
theorem underway_foldl {f : Search → Nat → Search} {l : List Nat} (depth : Nat)
    (hextends : ∀ s, ∀ x ∈ l, ∃ L, Extends n s (f s x) L)
    (hf : ∀ s, ∀ x ∈ l, Underway next n s → n ≤ depth + s.seen.length → (∀ y, s.Open y → Leads next y x) →
      Underway next n (f s x) ∧ x ∈ (f s x).seen) :
    ∀ s, Underway next n s → n ≤ depth + s.seen.length → (∀ y, s.Open y → ∀ x ∈ l, Leads next y x) →
      Underway next n (l.foldl f s) ∧ ∀ x ∈ l, x ∈ (l.foldl f s).seen := by
  induction l with
  | nil => exact fun s h _ _ => ⟨h, by simp⟩
  | cons x l ih =>
    intro s h hdepth hopen
    obtain ⟨L, hL⟩ := hextends s x List.mem_cons_self
    obtain ⟨hx, hmet⟩ := hf s x List.mem_cons_self h hdepth fun y hy => hopen y hy x List.mem_cons_self
    have hextends' : ∀ s, ∀ y ∈ l, ∃ L, Extends n s (f s y) L := fun s y hy => hextends s y (List.mem_cons_of_mem x hy)
    obtain ⟨hl, hmet'⟩ := ih hextends' (fun s y hy => hf s y (List.mem_cons_of_mem x hy)) (f s x) hx
      (Nat.le_trans hdepth (Nat.add_le_add_left (hL.length_le h.nodup) depth))
      (fun y hy z hz => hopen y (hL.open_of hy) z (List.mem_cons_of_mem x hz))
    obtain ⟨L', hL'⟩ := extends_foldl hextends' (f s x)
    refine ⟨hl, fun y hy => ?_⟩
    rcases List.mem_cons.1 hy with rfl | hy
    · exact (hL'.seen y).2 (Or.inr hmet)
    · exact hmet' y hy

/-- A visit keeps the search under way and meets the node, if the open nodes lead to it and the depth is enough for the nodes that
have not been met. The induction is on the depth. -/
theorem underway_visit (hnext : ∀ i, ∀ x ∈ next i, x < n) : ∀ (depth : Nat) (s : Search) {node : Nat}, node < n →
    Underway next n s → n ≤ depth + s.seen.length → (∀ y, s.Open y → Leads next y node) →
    Underway next n (visit next depth s node) ∧ node ∈ (visit next depth s node).seen := by
  intro depth
  induction depth with
  | zero => exact fun s node hnode h hdepth _ => ⟨h, h.mem_seen (by omega) hnode⟩
  | succ depth ih =>
    intro s node hnode h hdepth hopen
    unfold visit
    split
    · next hmet => exact ⟨h, hmet⟩
    · next hnew =>
      have hdepth' : n ≤ depth + (node :: s.seen).length := by rw [List.length_cons]; omega
      -- the node itself is open now, and leads to the nodes that are visited from it
      have hopen' : ∀ y, Open { s with seen := node :: s.seen } y → y = node ∨ s.Open y := fun y hy =>
        (List.mem_cons.1 hy.1).imp_right fun hs => ⟨hs, hy.2⟩
      have hpath : ∀ y, Open { s with seen := node :: s.seen } y → Leads next y node := fun y hy => by
        rcases hopen' y hy with rfl | hy
        · exact .refl
        · exact hopen y hy
      have hextends := fun s x hx => extends_visit hnext depth s (hnext node x hx)
      obtain ⟨hu, hmet⟩ := underway_foldl depth hextends (fun s x hx => ih s (hnext node x hx)) _ (h.meet hnode hnew) hdepth'
        fun y hy x hx => (hpath y hy).tail hx
      obtain ⟨L, hL⟩ := extends_foldl hextends { s with seen := node :: s.seen }
      have hseen := (hL.seen node).2 (Or.inr List.mem_cons_self)
      exact ⟨hu.finish hseen hmet fun y hy => hpath y (hL.open_of hy), hseen⟩

/-- In the order found, each node has behind it the nodes that it leads to directly, but for those that lead back to it. -/
theorem ranked_order (hnext : ∀ i, ∀ x ∈ next i, x < n) : Ranked next (order next n) := by
  have hempty : Underway next n {} := ⟨List.nodup_nil, by simp, by simp, trivial⟩
  refine (underway_foldl (n + 1) (fun s x hx => extends_visit hnext (n + 1) s (List.mem_range.1 hx))
    (fun s x hx => underway_visit hnext (n + 1) s (List.mem_range.1 hx)) {} hempty (by omega) ?_).1.ranked
  exact fun y hy => absurd hy.1 List.not_mem_nil

end Search

/-! ## Conflicts -/

/-- A conflict is a node with a node that should precede it, and that neither is done nor comes before it. -/
theorem firstConflict_eq_some {before : Nat → List Nat} {order : List Nat} {j : Nat} : ∀ {done : List Nat},
    firstConflict before order done = some j →
    ∃ l i rest, order = l ++ i :: rest ∧ j ∈ before i ∧ j ≠ i ∧ j ∉ done ∧ j ∉ l := by
  induction order with
  | nil => exact fun h => nomatch h
  | cons node order ih =>
    intro done h
    unfold firstConflict at h
    split at h
    · next k hfind =>
      obtain rfl := Option.some.inj h
      have hk := List.find?_some hfind
      simp only [ne_eq, decide_eq_true_eq] at hk
      exact ⟨[], node, order, rfl, List.mem_of_find?_eq_some hfind, hk.1, hk.2, List.not_mem_nil⟩
    · obtain ⟨l, i, rest, rfl, hbefore, hne, hdone, hl⟩ := ih h
      rw [List.mem_cons, not_or] at hdone
      exact ⟨node :: l, i, rest, rfl, hbefore, hne, hdone.2, by simp [hdone.1, hl]⟩

/-- A conflict in the order found lies on a circle: what should precede a node, and comes after it, is reached from it. -/
theorem leads_of_firstConflict {next before : Nat → List Nat} {n j : Nat} (hnext : ∀ i, ∀ x ∈ next i, x < n)
    (hbefore : ∀ i, ∀ j ∈ before i, j < n ∧ i ∈ next j) (h : firstConflict before (Search.order next n) [] = some j) :
    j < n ∧ ∃ i ∈ next j, Search.Leads next i j := by
  obtain ⟨hmem, hnodup⟩ := Search.order_spec hnext
  obtain ⟨l, i, rest, horder, hj, hne, -, hl⟩ := firstConflict_eq_some h
  obtain ⟨hlt, hi⟩ := hbefore i j hj
  refine ⟨hlt, i, hi, ?_⟩
  have hjrest : j ∈ rest := by
    have hj := (hmem j).2 hlt
    rw [horder, List.mem_append, List.mem_cons] at hj
    exact (hj.resolve_left hl).resolve_left hne
  obtain ⟨l', rest', rfl⟩ := List.append_of_mem hjrest
  -- behind `j` the node `i` does not come again
  have hlast : i ∉ rest' := by
    rw [horder] at hnodup
    have hi := (List.nodup_cons.1 (List.nodup_append.1 hnodup).2.1).1
    exact fun hmem => hi (List.mem_append_right l' (List.mem_cons_of_mem j hmem))
  have hranked := Search.ranked_order hnext
  rw [horder, ← List.cons_append, ← List.append_assoc] at hranked
  exact (hranked.of_append i hi).resolve_left hlast

/-! ## Circles -/

/-- Assignment `j` has to come before another assignment `i`, because it reads the symbol that `i` overwrites. -/
def MustPrecede (as : List Assignment) (j i : Nat) : Prop :=
  i ≠ j ∧ ∃ reader writer, as[j]? = some reader ∧ as[i]? = some writer ∧ reader.expr.mentions writer.target = true

variable {as : List Assignment} {order : List Nat} {i j : Nat}

/-- The test decides the order relation. -/
theorem readsTargetOf_eq_true_iff : readsTargetOf as j i = true ↔ MustPrecede as j i := by
  unfold readsTargetOf MustPrecede
  cases hj : as[j]? with
  | none => simp
  | some reader =>
    cases hi : as[i]? with
    | none => simp
    | some writer => simp

/-- Only assignments of the list are related. -/
theorem MustPrecede.lt (h : MustPrecede as j i) : j < as.length ∧ i < as.length := by
  obtain ⟨-, _, _, hj, hi, -⟩ := h
  exact ⟨(List.getElem?_eq_some_iff.1 hj).1, (List.getElem?_eq_some_iff.1 hi).1⟩

theorem mem_writersAfter : i ∈ writersAfter as j ↔ MustPrecede as j i := by
  rw [writersAfter, List.mem_filter, readsTargetOf_eq_true_iff, List.mem_range]
  exact and_iff_right_of_imp fun h => h.lt.2

theorem mem_readersBefore : j ∈ readersBefore as i ↔ MustPrecede as j i := by
  rw [readersBefore, List.mem_filter, readsTargetOf_eq_true_iff, List.mem_range]
  exact and_iff_right_of_imp fun h => h.lt.1

/-- In the order found, who has to come before another one does. -/
theorem idxOf_lt_of_mustPrecede (h : schedule as = .ok order) (hji : MustPrecede as j i) : order.idxOf j < order.idxOf i := by
  obtain ⟨hmem, -, hreads⟩ := schedule_eq_ok h
  have hj := List.idxOf_lt_length_iff.2 ((hmem j).2 hji.lt.1)
  have hi := List.idxOf_lt_length_iff.2 ((hmem i).2 hji.lt.2)
  have hne : order.idxOf j ≠ order.idxOf i := fun he => hji.1 ((List.idxOf_inj ((hmem j).2 hji.lt.1)).1 he).symm
  refine Nat.lt_of_le_of_ne (Nat.le_of_not_lt fun hlt => ?_) hne
  have hpair := List.pairwise_iff_getElem.1 hreads _ _ hi hj hlt
  rw [List.getElem_idxOf, List.getElem_idxOf, readsTargetOf_eq_true_iff.2 hji] at hpair
  cases hpair

/-- An order that is found has no circle to go round. -/
theorem not_transGen_of_schedule (h : schedule as = .ok order) : ¬Relation.TransGen (MustPrecede as) i i := by
  have hlt : ∀ {a b}, Relation.TransGen (MustPrecede as) a b → order.idxOf a < order.idxOf b := by
    intro a b hab
    induction hab with
    | single hstep => exact idxOf_lt_of_mustPrecede h hstep
    | tail _ hstep ih => exact Nat.lt_trans ih (idxOf_lt_of_mustPrecede h hstep)
  exact fun hcircle => Nat.lt_irrefl _ (hlt hcircle)

/-- What is reported lies on a circle. -/
theorem schedule_eq_error {e : CompileError} (h : schedule as = .error e) :
    ∃ j a, Relation.TransGen (MustPrecede as) j j ∧ as[j]? = some a ∧ e = .notInPlace a.target := by
  have hnext : ∀ i, ∀ x ∈ writersAfter as i, x < as.length := fun i x hx => (mem_writersAfter.1 hx).lt.2
  have hbefore : ∀ i, ∀ j ∈ readersBefore as i, j < as.length ∧ i ∈ writersAfter as j := fun i j hj =>
    ⟨(mem_readersBefore.1 hj).lt.1, mem_writersAfter.2 (mem_readersBefore.1 hj)⟩
  unfold schedule at h
  dsimp only at h
  split at h
  · cases h
  · next j hconflict =>
    obtain ⟨hlt, i, hi, hpath⟩ := leads_of_firstConflict hnext hbefore hconflict
    have hcircle : Relation.TransGen (MustPrecede as) j j :=
      .head' (mem_writersAfter.1 hi) (hpath.lift id fun _ _ hab => mem_writersAfter.1 hab)
    refine ⟨j, as[j], hcircle, List.getElem?_eq_getElem hlt, ?_⟩
    rw [List.getElem?_eq_getElem hlt] at h
    exact (Except.error.inj h).symm

/-- The order of simultaneous assignments. An order that is found has every position once, and each assignment comes in it before
those that overwrite what it reads. No order is found exactly when some assignments go round in a circle, each reading what the
next one overwrites; then the symbol reported is the target of an assignment on such a circle. -/
theorem schedule_correct (as : List Assignment) :
    (∀ order, schedule as = .ok order →
      order.Perm (List.range as.length) ∧ ∀ i j, MustPrecede as j i → order.idxOf j < order.idxOf i) ∧
    ((∃ s, schedule as = .error (.notInPlace s)) ↔ ∃ i, Relation.TransGen (MustPrecede as) i i) ∧
    ∀ e, schedule as = .error e →
      ∃ i a, Relation.TransGen (MustPrecede as) i i ∧ as[i]? = some a ∧ e = .notInPlace a.target := by
  refine ⟨fun order h => ?_, ⟨?_, ?_⟩, fun e h => schedule_eq_error h⟩
  · obtain ⟨hmem, hnodup, -⟩ := schedule_eq_ok h
    refine ⟨(List.perm_ext_iff_of_nodup hnodup List.nodup_range).2 fun i => ?_, fun i j => idxOf_lt_of_mustPrecede h⟩
    rw [hmem, List.mem_range]
  · rintro ⟨s, h⟩
    obtain ⟨i, -, hcircle, -⟩ := schedule_eq_error h
    exact ⟨i, hcircle⟩
  · rintro ⟨i, hcircle⟩
    cases h : schedule as with
    | ok order => exact absurd hcircle (not_transGen_of_schedule h)
    | error e =>
      obtain ⟨-, a, -, -, rfl⟩ := schedule_eq_error h
      exact ⟨a.target, rfl⟩

/-- `x` and `y` are exchanged, and added to `z`. -/
def exchange : List Assignment :=
  [⟨"x", .ref "y"⟩, ⟨"y", .ref "x"⟩, ⟨"z", .xor [.ref "z", .ref "x", .ref "y"]⟩]

/-- Of the two symbols that are exchanged, each has to be made before the other. Without the assignment to `x` there is an order,
with the reader of `y` first; that it reads `z` as well does not count. -/
theorem schedule_correct_exchange :
    schedule exchange = .error (.notInPlace "y") ∧
    (∃ i a, Relation.TransGen (MustPrecede exchange) i i ∧ exchange[i]? = some a ∧ a.target = "y") ∧
    schedule exchange.tail = .ok [1, 0] ∧ [1, 0].Perm (List.range 2) ∧ [1, 0].idxOf 1 < [1, 0].idxOf 0 := by
  obtain ⟨-, -, hreported⟩ := schedule_correct exchange
  obtain ⟨i, a, hcircle, ha, hname⟩ := hreported (.notInPlace "y") rfl
  obtain ⟨hfound, -, -⟩ := schedule_correct exchange.tail
  obtain ⟨hperm, hbefore⟩ := hfound [1, 0] rfl
  exact ⟨rfl, ⟨i, a, hcircle, ha, (CompileError.notInPlace.inj hname).symm⟩, rfl, hperm,
    hbefore 0 1 ⟨by decide, _, _, rfl, rfl, by decide⟩⟩

end ReversibleLogic
