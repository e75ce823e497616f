import Mathlib.Data.List.Perm.Subperm
import Mathlib.Data.List.Nodup
import Mathlib.Data.List.Range
import ReversibleLogic.Section.Basic

/-!
# One symbol for each qubit

The symbols that `uniqueSymbols` makes are as many as the labels and no two of them are equal (`nodup_uniqueSymbols`), and labels
that are distinct already stay as they are (`uniqueSymbols_of_nodup`). A symbol that is made up avoids all names taken before it:
the variants of a name are distinct, so not all of them can be taken.

`Retries` is the search for a name that is not taken, one variant after another and without a bound. It comes to an end
(`retries_freshName`), so every label gets a symbol: its own, or the one with which the search ends (`uniqueSymbols_distinct`).
The numbers that are tried are below the number of labels (`getElem?_uniqueSymbols_eq_variant`).
-/

namespace ReversibleLogic

/-- No two variants of a name are equal: the first is shorter than all others, and these differ in the number. -/
theorem variant_injective (base : String) : Function.Injective (variant base) := by
  have hlonger : ∀ n, base.length < (variant base (n + 1)).length := by
    intro n
    change base.length < (base ++ "#" ++ (n + 1).repr).length
    have hhash : "#".length = 1 := rfl
    simp only [String.length_append, hhash]
    omega
  intro n m h
  cases n with
  | zero =>
    cases m with
    | zero => rfl
    | succ m => exact absurd (congrArg String.length h) (Nat.ne_of_lt (hlonger m))
  | succ n =>
    cases m with
    | zero => exact absurd (congrArg String.length h) (Nat.ne_of_gt (hlonger n))
    | succ m =>
      have hrepr : (n + 1).repr = (m + 1).repr := (String.append_right_inj (base ++ "#")).1 h
      rw [Nat.repr_eq_ofList_toDigits, Nat.repr_eq_ofList_toDigits, String.ofList_inj] at hrepr
      rw [← Nat.ofDigitChars_ten_toDigits (n := n + 1), hrepr, Nat.ofDigitChars_ten_toDigits]

/-- A fresh name is not taken. -/
theorem freshName_not_mem (taken : List String) (base : String) : freshName taken base ∉ taken := by
  unfold freshName
  cases hfind : (List.range (taken.length + 1)).find? fun n => decide (variant base n ∉ taken) with
  | some n =>
    have hfree := List.find?_some hfind
    exact of_decide_eq_true hfree
  | none =>
    -- one variant more than there are taken names, all distinct and all of them taken
    have hall : ∀ n ∈ List.range (taken.length + 1), variant base n ∈ taken := fun n hn => by
      simpa using List.find?_eq_none.1 hfind n hn
    have hsub : (List.range (taken.length + 1)).map (variant base) ⊆ taken := by
      intro s hs
      obtain ⟨n, hn, rfl⟩ := List.mem_map.1 hs
      exact hall n hn
    have hle := ((List.nodup_range.map (variant_injective base)).subperm hsub).length_le
    rw [List.length_map, List.length_range] at hle
    exact absurd hle (Nat.not_succ_le_self _)

/-- The search among the variants of `base`, from the variant with number `n` on, ends with a name: a variant that is taken is
passed over, and the first that is not taken is the name. -/
inductive Retries (taken : String → Prop) (base : String) : Nat → String → Prop where
  | found {n : Nat} (hfree : ¬taken (variant base n)) : Retries taken base n (variant base n)
  | next {n : Nat} {name : String} (htaken : taken (variant base n)) (hrest : Retries taken base (n + 1) name) :
    Retries taken base n name

/-- The search depends on which names are taken, not on how they are listed. -/
theorem Retries.congr {taken taken' : String → Prop} {base name : String} {n : Nat} (h : Retries taken base n name)
    (hsame : ∀ s, taken s ↔ taken' s) : Retries taken' base n name := by
  induction h with
  | found hfree => exact .found fun ht => hfree ((hsame _).2 ht)
  | next htaken _ ih => exact .next ((hsame _).1 htaken) ih

/-- The search passes over the variants that are taken. -/
theorem retries_of_forall_taken {taken : String → Prop} {base : String} {k : Nat} : ∀ {n : Nat},
    (∀ i, n ≤ i → i < n + k → taken (variant base i)) → ¬taken (variant base (n + k)) →
    Retries taken base n (variant base (n + k)) := by
  induction k with
  | zero => exact fun _ hfree => .found hfree
  | succ k ih =>
    intro n htaken hfree
    have hshift : n + (k + 1) = n + 1 + k := by omega
    rw [hshift] at htaken hfree ⊢
    exact .next (htaken n (Nat.le_refl n) (by omega)) (ih (fun i hi hlt => htaken i (by omega) hlt) hfree)

/-- The search ends with a variant, and those before it are taken. -/
theorem Retries.exists_variant {taken : String → Prop} {base name : String} {n : Nat} (h : Retries taken base n name) :
    ∃ k, name = variant base k ∧ ∀ i, n ≤ i → i < k → taken (variant base i) := by
  induction h with
  | @found n _ => exact ⟨n, rfl, fun i hle hlt => absurd hlt (Nat.not_lt.2 hle)⟩
  | next htaken _ ih =>
    obtain ⟨k, hname, hrest⟩ := ih
    refine ⟨k, hname, fun i hle hlt => ?_⟩
    rcases Nat.eq_or_lt_of_le hle with rfl | hle
    · exact htaken
    · exact hrest i hle hlt

/-- Whatever finitely many names are taken, the search ends, and it ends with the fresh name. -/
theorem retries_freshName (taken : List String) (base : String) : Retries (· ∈ taken) base 0 (freshName taken base) := by
  have hnew := freshName_not_mem taken base
  unfold freshName at hnew ⊢
  cases hfind : (List.range (taken.length + 1)).find? fun n => decide (variant base n ∉ taken) with
  | none =>
    rw [hfind] at hnew
    exact .found hnew
  | some n =>
    rw [hfind] at hnew
    obtain ⟨-, -, hbefore⟩ := List.find?_range_eq_some.1 hfind
    have htaken : ∀ i, 0 ≤ i → i < 0 + n → variant base i ∈ taken := fun i _ hi => by
      simpa using hbefore i (by omega)
    simpa using retries_of_forall_taken htaken (by simpa using hnew)

variable {labels rest : List Symbol} {s : Symbol}

/-- A symbol is a label that occurs once, or it is made up and was not taken. -/
theorem mem_uniqueFrom : ∀ {taken : List String} {index : Nat}, s ∈ uniqueFrom labels taken index rest →
    (s ∈ rest ∧ labels.count s ≤ 1) ∨ s ∉ taken := by
  induction rest with
  | nil => simp [uniqueFrom]
  | cons label rest ih =>
    intro taken index hs
    unfold uniqueFrom at hs
    split at hs
    · next hone =>
      rcases List.mem_cons.1 hs with rfl | hs
      · exact Or.inl ⟨List.mem_cons_self, hone⟩
      · exact (ih hs).imp_left fun h => ⟨List.mem_cons_of_mem label h.1, h.2⟩
    · rcases List.mem_cons.1 hs with rfl | hs
      · exact Or.inr (freshName_not_mem _ _)
      · rcases ih hs with h | h
        · exact Or.inl ⟨List.mem_cons_of_mem label h.1, h.2⟩
        · exact Or.inr fun ht => h (List.mem_cons_of_mem _ ht)

/-- No symbol is made twice, if the labels that stay are taken from the start and none of them comes twice. -/
theorem nodup_uniqueFrom : ∀ {taken : List String} {index : Nat}, (∀ s ∈ rest, labels.count s ≤ 1 → s ∈ taken) →
    (∀ s, labels.count s ≤ 1 → rest.count s ≤ 1) → (uniqueFrom labels taken index rest).Nodup := by
  induction rest with
  | nil => intro _ _ _ _; exact List.nodup_nil
  | cons label rest ih =>
    intro taken index htaken honce
    have htaken' : ∀ s ∈ rest, labels.count s ≤ 1 → s ∈ taken := fun s hs => htaken s (List.mem_cons_of_mem label hs)
    have honce' : ∀ s, labels.count s ≤ 1 → rest.count s ≤ 1 := fun s hs =>
      Nat.le_trans List.count_le_count_cons (honce s hs)
    unfold uniqueFrom
    split
    · next hone =>
      refine List.nodup_cons.2 ⟨fun hmem => ?_, ih htaken' honce'⟩
      rcases mem_uniqueFrom hmem with ⟨hrest, -⟩ | hfree
      · have hcount := honce label hone
        rw [List.count_cons_self] at hcount
        have hpos := List.count_pos_iff.2 hrest
        omega
      · exact hfree (htaken label List.mem_cons_self hone)
    · refine List.nodup_cons.2 ⟨fun hmem => ?_, ih (fun s hs hc => List.mem_cons_of_mem _ (htaken' s hs hc)) honce'⟩
      rcases mem_uniqueFrom hmem with ⟨hrest, hone⟩ | hfree
      · exact freshName_not_mem _ _ (htaken' _ hrest hone)
      · exact hfree List.mem_cons_self

/-- No two qubits have the same symbol. -/
theorem nodup_uniqueSymbols (labels : List Symbol) : (uniqueSymbols labels).Nodup := by
  refine nodup_uniqueFrom (fun s hs hone => List.mem_filter.2 ⟨hs, ?_⟩) fun s hone => hone
  have hpos := List.count_pos_iff.2 hs
  rw [beq_iff_eq]
  omega

/-- Labels that are distinct are the symbols. -/
theorem uniqueSymbols_of_nodup (h : labels.Nodup) : uniqueSymbols labels = labels := by
  have hkeep : ∀ (rest : List Symbol) (taken : List String) (index : Nat), uniqueFrom labels taken index rest = rest := by
    intro rest
    induction rest with
    | nil => intro _ _; rfl
    | cons label rest ih =>
      intro taken index
      rw [uniqueFrom, if_pos (List.nodup_iff_count_le_one.1 h label), ih]
  exact hkeep labels _ 0

/-- The symbol of the label at each position: the label itself if it occurs once, and otherwise the name that the search finds,
where the names taken are those taken at the start and the symbols before the position. -/
theorem getElem?_uniqueFrom {label : Symbol} : ∀ {taken : List String} (index : Nat) {i : Nat},
    (∀ s ∈ rest, labels.count s ≤ 1 → s ∈ taken) → rest[i]? = some label →
    ∃ s, (uniqueFrom labels taken index rest)[i]? = some s ∧ (labels.count label ≤ 1 → s = label) ∧
      (1 < labels.count label →
        Retries (fun name => name ∈ taken ∨ name ∈ (uniqueFrom labels taken index rest).take i)
          s!"{label}@{index + i}" 0 s) := by
  induction rest with
  | nil => intro _ _ i _ hi; simp at hi
  | cons first rest ih =>
    intro taken index i htaken hi
    have hrest : ∀ s ∈ rest, labels.count s ≤ 1 → s ∈ taken := fun s hs => htaken s (List.mem_cons_of_mem first hs)
    unfold uniqueFrom
    cases i with
    | zero =>
      obtain rfl : first = label := by simpa using hi
      split
      · next hone => exact ⟨first, rfl, fun _ => rfl, fun hmany => absurd hmany (Nat.not_lt.2 hone)⟩
      · next hmany =>
        refine ⟨_, rfl, fun hone => absurd hone hmany, fun _ => ?_⟩
        exact (retries_freshName taken s!"{first}@{index}").congr fun name => by simp
    | succ i =>
      have hi : rest[i]? = some label := hi
      have hindex : index + (i + 1) = index + 1 + i := by omega
      rw [hindex]
      split
      · next hone =>
        obtain ⟨s, hs, hkept, hmade⟩ := ih (index + 1) hrest hi
        refine ⟨s, hs, hkept, fun hmany => (hmade hmany).congr fun name => ?_⟩
        -- the label that stays is taken from the start
        have hfirst : first ∈ taken := htaken first List.mem_cons_self hone
        rw [List.take_succ_cons, List.mem_cons]
        constructor
        · exact Or.imp_right Or.inr
        · rintro (h | rfl | h)
          · exact Or.inl h
          · exact Or.inl hfirst
          · exact Or.inr h
      · obtain ⟨s, hs, hkept, hmade⟩ := ih (index + 1) (fun s hs hc => List.mem_cons_of_mem _ (hrest s hs hc)) hi
        refine ⟨s, hs, hkept, fun hmany => (hmade hmany).congr fun name => ?_⟩
        rw [List.take_succ_cons, List.mem_cons, List.mem_cons, or_left_comm, or_assoc]

/-- There is a symbol for each label. -/
theorem length_uniqueSymbols (labels : List Symbol) : (uniqueSymbols labels).length = labels.length := by
  have hlen : ∀ (rest : List Symbol) (taken : List String) (index : Nat),
      (uniqueFrom labels taken index rest).length = rest.length := by
    intro rest
    induction rest with
    | nil => intro _ _; rfl
    | cons label rest ih =>
      intro taken index
      unfold uniqueFrom
      split
      · rw [List.length_cons, ih, List.length_cons]
      · rw [List.length_cons, ih, List.length_cons]
  exact hlen labels _ 0

/-- The symbol of a label: itself if it occurs once, and otherwise the name that the search finds, where the names taken are the
labels that occur once and the symbols before it. -/
theorem getElem?_uniqueSymbols {i : Nat} {label : Symbol} (hi : labels[i]? = some label) :
    ∃ s, (uniqueSymbols labels)[i]? = some s ∧ (labels.count label = 1 → s = label) ∧
      (labels.count label ≠ 1 →
        Retries (fun name => labels.count name = 1 ∨ name ∈ (uniqueSymbols labels).take i) s!"{label}@{i}" 0 s) := by
  have hpos : ∀ s ∈ labels, 0 < labels.count s := fun s hs => List.count_pos_iff.2 hs
  have honce : ∀ s, s ∈ labels.filter (fun label => labels.count label == 1) ↔ labels.count s = 1 := fun s => by
    rw [List.mem_filter, beq_iff_eq]
    exact ⟨And.right, fun h => ⟨List.count_pos_iff.1 (by omega), h⟩⟩
  have htaken : ∀ s ∈ labels, labels.count s ≤ 1 → s ∈ labels.filter (fun label => labels.count label == 1) := by
    intro s hs hle
    have hs := hpos s hs
    exact (honce s).2 (by omega)
  obtain ⟨s, hs, hkept, hmade⟩ := getElem?_uniqueFrom 0 htaken hi
  refine ⟨s, hs, fun h => hkept (Nat.le_of_eq h), fun h => ?_⟩
  have hlabel := hpos label (List.mem_of_getElem? hi)
  have hsearch := hmade (by omega)
  rw [Nat.zero_add] at hsearch
  exact hsearch.congr fun name => or_congr_left (honce name)

/-- The numbers that are tried are below the number of labels: all variants up to the one that is found are symbols in the end. -/
theorem getElem?_uniqueSymbols_eq_variant {i : Nat} {label : Symbol} (hi : labels[i]? = some label)
    (hmany : labels.count label ≠ 1) :
    ∃ n, n < labels.length ∧ (uniqueSymbols labels)[i]? = some (variant s!"{label}@{i}" n) := by
  obtain ⟨s, hs, -, hsearch⟩ := getElem?_uniqueSymbols hi
  obtain ⟨n, rfl, htaken⟩ := (hsearch hmany).exists_variant
  refine ⟨n, ?_, hs⟩
  have hsub : (List.range (n + 1)).map (variant s!"{label}@{i}") ⊆ uniqueSymbols labels := by
    intro name hname
    obtain ⟨k, hk, rfl⟩ := List.mem_map.1 hname
    rcases Nat.lt_succ_iff_lt_or_eq.1 (List.mem_range.1 hk) with hk | rfl
    · rcases htaken k (Nat.zero_le k) hk with honce | hbefore
      · obtain ⟨j, hj⟩ := List.mem_iff_getElem?.1 (List.count_pos_iff.1 (Nat.lt_of_lt_of_eq Nat.one_pos honce.symm))
        obtain ⟨t, ht, hkept, -⟩ := getElem?_uniqueSymbols hj
        exact hkept honce ▸ List.mem_of_getElem? ht
      · exact List.mem_of_mem_take hbefore
    · exact List.mem_of_getElem? hs
  have hle := ((List.nodup_range.map (variant_injective _)).subperm hsub).length_le
  rw [List.length_map, List.length_range, length_uniqueSymbols] at hle
  exact hle

/-- One symbol for each qubit. Whatever the labels are, there are as many symbols as labels, no two of them are equal, and each
label has its symbol at the same position: a label that occurs once is its own symbol, and for any other label the search for a
name that is neither a label that occurs once nor a symbol before it comes to an end, and ends with the symbol. -/
theorem uniqueSymbols_distinct (labels : List Symbol) :
    (uniqueSymbols labels).length = labels.length ∧ (uniqueSymbols labels).Nodup ∧
    ∀ i label, labels[i]? = some label → ∃ s, (uniqueSymbols labels)[i]? = some s ∧ (labels.count label = 1 → s = label) ∧
      (labels.count label ≠ 1 →
        Retries (fun name => labels.count name = 1 ∨ name ∈ (uniqueSymbols labels).take i) s!"{label}@{i}" 0 s) :=
  ⟨length_uniqueSymbols labels, nodup_uniqueSymbols labels, fun _ _ hi => getElem?_uniqueSymbols hi⟩

/-- The second `t` cannot be called `t@1` nor `t@1#1`, which are labels of other qubits. -/
theorem uniqueSymbols_distinct_shadowed :
    uniqueSymbols ["t", "t", "t@1", "t@1#1"] = ["t@0", "t@1#2", "t@1", "t@1#1"] ∧
      Retries (fun name => ["t", "t", "t@1", "t@1#1"].count name = 1 ∨ name ∈ ["t@0"]) "t@1" 0 "t@1#2" := by
  have hsymbols : uniqueSymbols ["t", "t", "t@1", "t@1#1"] = ["t@0", "t@1#2", "t@1", "t@1#1"] := by decide +kernel
  obtain ⟨-, -, hat⟩ := uniqueSymbols_distinct ["t", "t", "t@1", "t@1#1"]
  obtain ⟨s, hs, -, hsearch⟩ := hat 1 "t" rfl
  rw [hsymbols] at hs hsearch
  obtain rfl : "t@1#2" = s := Option.some.inj hs
  exact ⟨hsymbols, hsearch (by decide)⟩

end ReversibleLogic
