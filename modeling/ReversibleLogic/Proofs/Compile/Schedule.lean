import Mathlib.Data.List.Nodup
import ReversibleLogic.Compile.Schedule
import ReversibleLogic.Proofs.Outcome

/-!
# The order of simultaneous assignments

A search meets each node once and finishes the nodes that it meets, so the order that it finds has every position once
(`Search.order_spec`). An order that passes the check for conflicts has every reader of a symbol before the assignment that
overwrites the symbol. Assignments with distinct targets, put in such an order, can be made one after another: none of them reads
a symbol that has been overwritten (`sequential_schedule`).
-/

namespace ReversibleLogic

/-! ## The search -/

namespace Search

variable {next : Nat → List Nat} {n : Nat} {s s' : Search} {L : List Nat}

/-- Between `s` and `s'` the nodes `L` have been met for the first time and finished. -/
structure Extends (n : Nat) (s s' : Search) (L : List Nat) : Prop where
  finished : s'.finished = L ++ s.finished
  seen : ∀ x, x ∈ s'.seen ↔ x ∈ L ∨ x ∈ s.seen
  nodup : L.Nodup
  fresh : ∀ x ∈ L, x ∉ s.seen ∧ x < n

theorem Extends.refl (n : Nat) (s : Search) : Extends n s s [] := ⟨rfl, by simp, List.nodup_nil, by simp⟩

theorem Extends.trans {s'' : Search} {L' : List Nat} (h : Extends n s s' L) (h' : Extends n s' s'' L') :
    Extends n s s'' (L' ++ L) := by
  refine ⟨by rw [h'.finished, h.finished, List.append_assoc], fun x => ?_, ?_, fun x hx => ?_⟩
  · rw [h'.seen, h.seen, List.mem_append, or_assoc]
  · refine List.nodup_append.2 ⟨h'.nodup, h.nodup, fun x hx y hy hxy => ?_⟩
    exact (h'.fresh x hx).1 ((h.seen x).2 (Or.inl (hxy ▸ hy)))
  · rcases List.mem_append.1 hx with hx | hx
    · exact ⟨fun hs => (h'.fresh x hx).1 ((h.seen x).2 (Or.inr hs)), (h'.fresh x hx).2⟩
    · exact h.fresh x hx

/-- Steps that extend the search, one after another, extend it. -/
theorem extends_foldl {f : Search → Nat → Search} {l : List Nat} (hf : ∀ s, ∀ x ∈ l, ∃ L, Extends n s (f s x) L) :
    ∀ s, ∃ L, Extends n s (l.foldl f s) L := by
  induction l with
  | nil => exact fun s => ⟨[], .refl n s⟩
  | cons x l ih =>
    intro s
    obtain ⟨L, h⟩ := hf s x List.mem_cons_self
    obtain ⟨L', h'⟩ := ih (fun s y hy => hf s y (List.mem_cons_of_mem x hy)) (f s x)
    exact ⟨L' ++ L, h.trans h'⟩

/-- A visit meets nodes and finishes them. The induction is on the depth that is left. -/
theorem extends_visit (hnext : ∀ i, ∀ x ∈ next i, x < n) : ∀ (depth : Nat) (s : Search) {node : Nat}, node < n →
    ∃ L, Extends n s (visit next depth s node) L := by
  intro depth
  induction depth with
  | zero => exact fun s _ _ => ⟨[], .refl n s⟩
  | succ depth ih =>
    intro s node hnode
    unfold visit
    split
    · exact ⟨[], .refl n s⟩
    · next hmet =>
      -- what is reached from the node is met after it and finished before it
      obtain ⟨L, h⟩ := extends_foldl (fun s x hx => ih s (hnext node x hx)) { s with seen := node :: s.seen }
      have hnot : node ∉ L := fun hL => (h.fresh node hL).1 List.mem_cons_self
      refine ⟨node :: L, congrArg (node :: ·) h.finished, fun x => ?_, List.nodup_cons.2 ⟨hnot, h.nodup⟩, fun x hx => ?_⟩
      · rw [h.seen, List.mem_cons, List.mem_cons, or_left_comm, or_assoc]
      · rcases List.mem_cons.1 hx with rfl | hx
        · exact ⟨hmet, hnode⟩
        · exact ⟨fun hs => (h.fresh x hx).1 (List.mem_cons_of_mem node hs), (h.fresh x hx).2⟩

/-- A node that is visited has been met. -/
theorem mem_seen_visit (hnext : ∀ i, ∀ x ∈ next i, x < n) (depth : Nat) (s : Search) (node : Nat) :
    node ∈ (visit next (depth + 1) s node).seen := by
  unfold visit
  split
  · next hmet => exact hmet
  · obtain ⟨L, h⟩ := extends_foldl (fun s x hx => extends_visit hnext depth s (hnext node x hx)) { s with seen := node :: s.seen }
    exact (h.seen node).2 (Or.inr List.mem_cons_self)

/-- Visits meet all the nodes that are visited. -/
theorem mem_seen_foldl (hnext : ∀ i, ∀ x ∈ next i, x < n) (depth : Nat) {l : List Nat} : ∀ {s : Search}, (∀ x ∈ l, x < n) →
    ∀ x, x ∈ l ∨ x ∈ s.seen → x ∈ (l.foldl (visit next (depth + 1)) s).seen := by
  induction l with
  | nil => exact fun _ x hx => hx.resolve_left List.not_mem_nil
  | cons y l ih =>
    intro s hl x hx
    obtain ⟨L, h⟩ := extends_visit hnext (depth + 1) s (hl y List.mem_cons_self)
    refine ih (fun x hx => hl x (List.mem_cons_of_mem y hx)) x ?_
    rcases hx with hx | hx
    · rcases List.mem_cons.1 hx with rfl | hx
      · exact Or.inr (mem_seen_visit hnext depth s x)
      · exact Or.inl hx
    · exact Or.inr ((h.seen x).2 (Or.inr hx))

/-- The order has all nodes below `n` and no others, and none of them twice. -/
theorem order_spec (hnext : ∀ i, ∀ x ∈ next i, x < n) : (∀ i, i ∈ order next n ↔ i < n) ∧ (order next n).Nodup := by
  obtain ⟨L, h⟩ := extends_foldl (fun s x hx => extends_visit hnext (n + 1) s (List.mem_range.1 hx)) {}
  have horder : order next n = L := h.finished.trans (List.append_nil L)
  rw [horder]
  refine ⟨fun i => ⟨fun hi => (h.fresh i hi).2, fun hi => ?_⟩, h.nodup⟩
  have hmet := mem_seen_foldl hnext n (s := {}) (fun x hx => List.mem_range.1 hx) i (Or.inl (List.mem_range.2 hi))
  exact ((h.seen i).1 hmet).resolve_right List.not_mem_nil

end Search

/-! ## The check -/

/-- Where no conflict is found, nothing that should precede a node comes after it. -/
theorem pairwise_of_firstConflict {before : Nat → List Nat} {order : List Nat} : ∀ {done : List Nat}, order.Nodup →
    (∀ i ∈ done, i ∉ order) → firstConflict before order done = none → order.Pairwise fun i j => j ∉ before i := by
  induction order with
  | nil => exact fun _ _ _ => List.Pairwise.nil
  | cons node rest ih =>
    intro done hnodup hdone h
    obtain ⟨hnode, hrest⟩ := List.nodup_cons.1 hnodup
    unfold firstConflict at h
    split at h
    · cases h
    · next hfind =>
      refine List.pairwise_cons.2 ⟨fun j hj hbefore => ?_, ih hrest (fun i hi => ?_) h⟩
      · have hfound := List.find?_eq_none.1 hfind j hbefore
        simp only [ne_eq, decide_eq_true_eq, not_and, Decidable.not_not] at hfound
        exact hdone j (hfound fun he => hnode (he ▸ hj)) (List.mem_cons_of_mem node hj)
      · rcases List.mem_cons.1 hi with rfl | hi
        · exact hnode
        · exact fun hmem => hdone i hi (List.mem_cons_of_mem node hmem)

/-- Assignments that can be made one after another in place of all at once: no two have the same target, and none reads the target
of an earlier one. -/
def Sequential (l : List Assignment) : Prop :=
  l.Pairwise fun a b => a.target ≠ b.target ∧ b.expr.mentions a.target = false

variable {as : List Assignment} {order : List Nat}

/-- The order that is found has every position once, and readers before the assignments that overwrite what they read. -/
theorem schedule_eq_ok (h : schedule as = .ok order) :
    (∀ i, i ∈ order ↔ i < as.length) ∧ order.Nodup ∧ order.Pairwise fun i j => readsTargetOf as j i = false := by
  have hnext : ∀ i, ∀ x ∈ writersAfter as i, x < as.length := fun i x hx => List.mem_range.1 (List.mem_filter.1 hx).1
  obtain ⟨hmem, hnodup⟩ := Search.order_spec hnext
  unfold schedule at h
  dsimp only at h
  split at h
  · next hconflict =>
    obtain rfl := Except.ok.inj h
    refine ⟨hmem, hnodup, ?_⟩
    refine (pairwise_of_firstConflict hnodup (by simp) hconflict).imp_of_mem fun {i j} hi hj hij => ?_
    by_contra hreads
    exact hij (List.mem_filter.2 ⟨List.mem_range.2 ((hmem j).1 hj), by simpa using hreads⟩)
  · cases h

/-- The assignments in the order that is found are the same assignments. -/
theorem mem_schedule (h : schedule as = .ok order) (a : Assignment) : a ∈ order.filterMap (as[·]?) ↔ a ∈ as := by
  obtain ⟨hmem, -, -⟩ := schedule_eq_ok h
  rw [List.mem_filterMap]
  constructor
  · rintro ⟨i, -, hi⟩
    exact List.mem_of_getElem? hi
  · intro ha
    obtain ⟨i, hi⟩ := List.mem_iff_getElem?.1 ha
    exact ⟨i, (hmem i).2 (List.getElem?_eq_some_iff.1 hi).1, hi⟩

/-- In the order that is found, assignments with distinct targets can be made one after another. -/
theorem sequential_schedule (htargets : (as.map Assignment.target).Nodup) (h : schedule as = .ok order) :
    Sequential (order.filterMap (as[·]?)) := by
  obtain ⟨-, hnodup, hreads⟩ := schedule_eq_ok h
  refine List.pairwise_filterMap.2 ((hnodup.and hreads).imp fun {i j} hij a ha b hb => ?_)
  obtain ⟨hne, hreads⟩ := hij
  constructor
  · intro htarget
    have hi : (as.map Assignment.target)[i]? = some a.target := by rw [List.getElem?_map, ha, Option.map_some]
    have hj : (as.map Assignment.target)[j]? = some a.target := by rw [List.getElem?_map, hb, Option.map_some, htarget]
    exact hne ((List.getElem?_inj (List.getElem?_eq_some_iff.1 hi).1 htargets).1 (hi.trans hj.symm))
  · simpa [readsTargetOf, ha, hb, hne] using hreads

end ReversibleLogic
