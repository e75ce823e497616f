import ReversibleLogic.Symbol
import ReversibleLogic.Sorted

/-!
# Qubits, sets of qubits and names of qubits

A qubit is known by its position in the register. `QubitSet` is a finite set of qubits and `NameMap` a finite map from symbols
to qubits. Both keep their contents ascending as part of the type, so each set and each map has one representation: equality of
the values is equality of the contents.
-/

namespace ReversibleLogic

/-- A qubit, by its position in the register. -/
abbrev Qubit := Nat

/-- The number of qubits a register can have: positions are 32-bit numbers. -/
def Qubit.limit : Nat := Nat.pow 2 32

/-- The qubit as text. -/
def Qubit.render (q : Qubit) : String := s!"q{q}"

/-! ## Sets of qubits -/

/-- A finite set of qubits. -/
structure QubitSet where
  /-- The members, ascending. -/
  toList : List Qubit
  /-- Each member stands before all later ones. -/
  ascending : Sorted.Ascending compare toList
  deriving DecidableEq

namespace QubitSet

/-- The set without members. -/
def empty : QubitSet := ⟨[], Sorted.ascending_nil⟩

instance : Inhabited QubitSet := ⟨empty⟩

instance : EmptyCollection QubitSet := ⟨empty⟩

instance : Membership Qubit QubitSet := ⟨fun s q => q ∈ s.toList⟩

instance (q : Qubit) (s : QubitSet) : Decidable (q ∈ s) := inferInstanceAs (Decidable (q ∈ s.toList))

/-- The set with `q` added. -/
def insert (s : QubitSet) (q : Qubit) : QubitSet :=
  ⟨Sorted.insert compare q s.toList, Sorted.ascending_insert s.ascending⟩

/-- The members that pass the test. -/
def filter (s : QubitSet) (p : Qubit → Bool) : QubitSet :=
  ⟨s.toList.filter p, s.ascending.filter p⟩

/-- The set without `q`. -/
def erase (s : QubitSet) (q : Qubit) : QubitSet := s.filter (· != q)

/-- The qubits of a list, as a set. -/
def ofList (l : List Qubit) : QubitSet := ⟨Sorted.ofList compare l, Sorted.ascending_ofList l⟩

/-- The members of either set. -/
def union (s t : QubitSet) : QubitSet := t.toList.foldl insert s

/-- Whether there is no member. -/
def isEmpty (s : QubitSet) : Bool := s.toList.isEmpty

/-- The least member and the other ones, if there is any. -/
def popMin? (s : QubitSet) : Option (Qubit × QubitSet) :=
  match s with
  | ⟨[], _⟩ => none
  | ⟨q :: rest, h⟩ => some (q, ⟨rest, h.tail⟩)

/-- The members fix the set. -/
theorem ext {s t : QubitSet} (h : ∀ q, q ∈ s ↔ q ∈ t) : s = t := by
  cases s with | mk l hl =>
  cases t with | mk m hm =>
  have : l = m := Sorted.eq_of_mem_iff hl hm h
  subst this
  rfl

@[simp] theorem not_mem_empty (q : Qubit) : q ∉ empty := List.not_mem_nil

@[simp] theorem mem_insert {s : QubitSet} {q r : Qubit} : r ∈ s.insert q ↔ r = q ∨ r ∈ s := Sorted.mem_insert

@[simp] theorem mem_filter {s : QubitSet} {p : Qubit → Bool} {q : Qubit} : q ∈ s.filter p ↔ q ∈ s ∧ p q = true :=
  List.mem_filter

@[simp] theorem mem_erase {s : QubitSet} {q r : Qubit} : r ∈ s.erase q ↔ r ∈ s ∧ r ≠ q := by simp [erase]

@[simp] theorem mem_ofList {l : List Qubit} {q : Qubit} : q ∈ ofList l ↔ q ∈ l := Sorted.mem_ofList

@[simp] theorem mem_toList {s : QubitSet} {q : Qubit} : q ∈ s.toList ↔ q ∈ s := Iff.rfl

theorem mem_foldl_insert (l : List Qubit) {q : Qubit} : ∀ s : QubitSet, q ∈ l.foldl insert s ↔ q ∈ s ∨ q ∈ l := by
  induction l with
  | nil => simp
  | cons r rest ih =>
    intro s
    rw [List.foldl_cons, ih, mem_insert, List.mem_cons]
    constructor
    · rintro ((h | h) | h)
      · exact Or.inr (Or.inl h)
      · exact Or.inl h
      · exact Or.inr (Or.inr h)
    · rintro (h | h | h)
      · exact Or.inl (Or.inr h)
      · exact Or.inl (Or.inl h)
      · exact Or.inr h

@[simp] theorem mem_union {s t : QubitSet} {q : Qubit} : q ∈ s.union t ↔ q ∈ s ∨ q ∈ t := mem_foldl_insert t.toList s

end QubitSet

/-! ## Names of qubits -/

namespace NameMap

/-- Puts a binding into its place among bindings in ascending order of names, in place of an earlier binding of that name. -/
def insertEntry (name : Symbol) (q : Qubit) : List (Symbol × Qubit) → List (Symbol × Qubit)
  | [] => [(name, q)]
  | (other, r) :: rest =>
    match compare name other with
    | .lt => (name, q) :: (other, r) :: rest
    | .eq => (name, q) :: rest
    | .gt => (other, r) :: insertEntry name q rest

/-- The bindings stand in ascending order of their names. -/
def Ordered (entries : List (Symbol × Qubit)) : Prop := entries.Pairwise fun a b => compare a.1 b.1 = .lt

theorem ordered_nil : Ordered [] := List.Pairwise.nil

theorem mem_insertEntry {name : Symbol} {q : Qubit} {b : Symbol × Qubit} {l : List (Symbol × Qubit)}
    (h : b ∈ insertEntry name q l) : b = (name, q) ∨ b ∈ l := by
  induction l with
  | nil => simpa [insertEntry] using h
  | cons c rest ih =>
    obtain ⟨other, r⟩ := c
    unfold insertEntry at h
    split at h
    · simpa using h
    · rcases List.mem_cons.1 h with h | h
      · exact Or.inl h
      · exact Or.inr (List.mem_cons_of_mem _ h)
    · rcases List.mem_cons.1 h with h | h
      · exact Or.inr (h ▸ List.mem_cons_self)
      · exact (ih h).imp_right (List.mem_cons_of_mem _)

/-- Inserting an entry keeps the order. -/
theorem ordered_insertEntry {name : Symbol} {q : Qubit} {l : List (Symbol × Qubit)} (h : Ordered l) :
    Ordered (insertEntry name q l) := by
  induction l with
  | nil => simp [insertEntry, Ordered]
  | cons c rest ih =>
    obtain ⟨other, r⟩ := c
    have ⟨hc, hr⟩ := List.pairwise_cons.1 h
    unfold insertEntry
    split
    · next hn =>
      refine List.pairwise_cons.2 ⟨fun d hd => ?_, h⟩
      rcases List.mem_cons.1 hd with rfl | hd
      · exact hn
      · exact Std.TransCmp.lt_trans hn (hc d hd)
    · next hn =>
      have e : name = other := Std.LawfulEqCmp.eq_of_compare hn
      subst e
      exact List.pairwise_cons.2 ⟨hc, hr⟩
    · next hn =>
      refine List.pairwise_cons.2 ⟨fun d hd => ?_, ih hr⟩
      rcases mem_insertEntry hd with rfl | hd
      · exact Std.OrientedCmp.lt_of_gt hn
      · exact hc d hd

end NameMap

/-- A finite map from symbols to qubits. Several symbols may have the same qubit. -/
structure NameMap where
  /-- The bindings, in ascending order of their names. -/
  entries : List (Symbol × Qubit)
  /-- Each name stands before all later ones. -/
  ordered : NameMap.Ordered entries
  deriving DecidableEq

namespace NameMap

/-- The map without bindings. -/
def empty : NameMap := ⟨[], ordered_nil⟩

instance : Inhabited NameMap := ⟨empty⟩

/-- The qubit that `name` is bound to, if any. -/
def get? (m : NameMap) (name : Symbol) : Option Qubit := m.entries.lookup name

/-- The map with `name` bound to `q`, whatever it was bound to before. -/
def insert (m : NameMap) (name : Symbol) (q : Qubit) : NameMap :=
  ⟨insertEntry name q m.entries, ordered_insertEntry m.ordered⟩

/-- The bindings of a list as a map; of two bindings of one name the later counts. -/
def ofList (l : List (Symbol × Qubit)) : NameMap := l.foldl (fun m b => m.insert b.1 b.2) empty

/-- The new entry is found. -/
theorem lookup_insertEntry_self (name : Symbol) (q : Qubit) (l : List (Symbol × Qubit)) :
    (insertEntry name q l).lookup name = some q := by
  induction l with
  | nil => simp [insertEntry]
  | cons c rest ih =>
    obtain ⟨other, r⟩ := c
    unfold insertEntry
    split
    · simp
    · simp
    · next hn =>
      have e : name ≠ other := fun e => by
        subst e
        rw [(Std.ReflCmp.compare_self : compare name name = .eq)] at hn
        exact Ordering.noConfusion hn
      simp [List.lookup_cons, beq_false_of_ne e, ih]

/-- Entries of other names are found as before. -/
theorem lookup_insertEntry_of_ne {name other : Symbol} (h : other ≠ name) (q : Qubit) (l : List (Symbol × Qubit)) :
    (insertEntry name q l).lookup other = l.lookup other := by
  induction l with
  | nil => simp [insertEntry, h]
  | cons c rest ih =>
    obtain ⟨third, r⟩ := c
    unfold insertEntry
    split
    · simp [List.lookup_cons, beq_false_of_ne h]
    · next hn =>
      have e : name = third := Std.LawfulEqCmp.eq_of_compare hn
      subst e
      simp [List.lookup_cons, beq_false_of_ne h]
    · simp [List.lookup_cons, ih]

/-- A name is bound to what it was bound to last. -/
@[simp] theorem get?_insert_self (m : NameMap) (name : Symbol) (q : Qubit) : (m.insert name q).get? name = some q :=
  lookup_insertEntry_self name q m.entries

/-- Binding a name leaves the other names alone. -/
theorem get?_insert_of_ne (m : NameMap) {name other : Symbol} (h : other ≠ name) (q : Qubit) :
    (m.insert name q).get? other = m.get? other :=
  lookup_insertEntry_of_ne h q m.entries

@[simp] theorem get?_empty (name : Symbol) : empty.get? name = none := rfl

end NameMap

end ReversibleLogic
