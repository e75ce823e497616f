import ReversibleLogic.Proofs.Lowering.Growth

/-!
# What lowering leaves behind

Two things that lowering puts into a workspace stay there: the qubit of a constant, and a black box in the circuit. These are the
residues. Which of them an expression leaves behind can be read off the expression (`Expression.leaves`). A constant that is an
operand needs a qubit. The operands of an exclusive or do not count, since they are added up, and a constant is added by a flip.

An expression that is noted is not lowered again, but it has been lowered before, so what it leaves behind is there (`Stocked`).
`Supplied` says of a step that it keeps this, and which residues there are afterwards.

The simulation of a circuit ends at a black box. So where a circuit can be simulated in the middle of a compilation, nothing with
a black box in it has been lowered so far (`not_boxed_of_simulate`).
-/

namespace ReversibleLogic

/-- Something that lowering leaves in a workspace. -/
inductive Residue where
  /-- A qubit that holds the constant. -/
  | const (v : Bool)
  /-- A black box in the circuit. -/
  | blackBox

/-- Whether it is a black box. -/
def Residue.isBlackBox : Residue → Bool
  | .const _ => false
  | .blackBox => true

namespace Expression

variable {e : Expression} {es : List Expression} {added : Bool}

/-! ## Expressions -/

mutual

/-- Whether the constant `v` is needed on a qubit: it is an operand, but not of an exclusive or, whose operands are added up.
`added` says whether the expression itself is added to a qubit. -/
def asksFor (v : Bool) : Expression → Bool → Bool
  | .const u, added => !added && u == v
  | .ref _, _ => false
  | .not e, added => asksFor v e added
  | .and es, _ | .or es, _ | .blackBox _ es, _ => anyAsksFor v es false
  | .xor es, _ => anyAsksFor v es true

/-- Whether the constant is needed on a qubit for one of the expressions. -/
def anyAsksFor (v : Bool) : List Expression → Bool → Bool
  | [], _ => false
  | e :: es, added => asksFor v e added || anyAsksFor v es added

end

/-- What lowering the expression leaves behind. `added` says whether the expression is added to a qubit. -/
def leaves (e : Expression) (added : Bool) : Residue → Bool
  | .const v => e.asksFor v added
  | .blackBox => !e.isBoolean

/-- What lowering the expressions leaves behind. -/
def anyLeaves (es : List Expression) (added : Bool) : Residue → Bool
  | .const v => anyAsksFor v es added
  | .blackBox => !allBoolean es

/-- A symbol has its qubit already. -/
theorem leaves_ref (s : Symbol) : (ref s).leaves added = fun _ => false := by
  funext r
  cases r <;> rfl

/-- A constant is added by a flip. -/
theorem leaves_const_added (v : Bool) : (const v).leaves true = fun _ => false := by
  funext r
  cases r <;> rfl

theorem leaves_not : (not e).leaves added = e.leaves added := by
  funext r
  cases r <;> rfl

theorem leaves_and : (and es).leaves added = anyLeaves es false := by
  funext r
  cases r <;> rfl

theorem leaves_or : (or es).leaves added = anyLeaves es false := by
  funext r
  cases r <;> rfl

/-- The operands of an exclusive or are added up. -/
theorem leaves_xor : (xor es).leaves added = anyLeaves es true := by
  funext r
  cases r <;> rfl

/-- A black box leaves itself behind. -/
theorem leaves_blackBox (tag : String) : (blackBox tag es).leaves added = fun r => anyLeaves es false r || r.isBlackBox := by
  funext r
  cases r with
  | const v => exact (Bool.or_false _).symm
  | blackBox => exact (Bool.or_true _).symm

theorem anyLeaves_nil : anyLeaves [] added = fun _ => false := by
  funext r
  cases r <;> rfl

theorem anyLeaves_cons : anyLeaves (e :: es) added = fun r => e.leaves added r || anyLeaves es added r := by
  funext r
  cases r with
  | const v => rfl
  | blackBox => exact Bool.not_and _ _

/-- What lowering the whole expression of an assignment leaves behind. A constant is made at the destination, if there is one. -/
def leavesAt (e : Expression) (dest : Option Qubit) : Residue → Bool
  | .const v => e.asksFor v false && !(dest.isSome && decide (e = .const v))
  | .blackBox => !e.isBoolean

/-- For anything but a constant, the destination makes no difference. -/
theorem leavesAt_eq_leaves {dest : Option Qubit} (h : ∀ v, e = .const v → dest = none) : e.leavesAt dest = e.leaves false := by
  funext r
  cases r with
  | blackBox => rfl
  | const v =>
    change (e.asksFor v false && !(dest.isSome && decide (e = .const v))) = e.asksFor v false
    by_cases hv : e = .const v
    · rw [h v hv, Option.isSome_none, Bool.false_and, Bool.not_false, Bool.and_true]
    · rw [decide_eq_false hv, Bool.and_false, Bool.not_false, Bool.and_true]

end Expression

/-! ## Workspaces -/

/-- Gates that run to the end have no black box among them. -/
theorem not_blackBox_of_runGates : ∀ {gs : List Gate} {s s' : Register}, runGates gs s = .ok s' →
    ∀ g ∈ gs, g.kind.isBlackBox = false
  | [], _, _, _ => by simp
  | g :: gs, s, s', h => by
    obtain ⟨s₁, hg, hgs⟩ := Outcome.bind_eq_ok.1 h
    refine List.forall_mem_cons.2 ⟨?_, not_blackBox_of_runGates hgs⟩
    unfold Gate.run at hg
    cases hk : g.kind with
    | blackBox tag => simp [hk] at hg
    | x | cx | ccx | mcx n | barrier => rfl

namespace Workspace

variable {N M : Residue → Bool} {w w₁ w' : Workspace} {r : Residue}

/-- There is a black box in the circuit. -/
def Boxed (w : Workspace) : Prop := ∃ g ∈ w.circuit.gates, g.kind.isBlackBox = true

/-- A simulation that comes to an end has met no black box. -/
theorem not_boxed_of_simulate {row : List Bool} {s : Register} (h : w.circuit.simulate row = .ok s) : ¬w.Boxed := by
  rintro ⟨g, hg, hb⟩
  unfold Circuit.simulate at h
  split at h
  · cases h
  · exact Bool.noConfusion (hb.symm.trans (not_blackBox_of_runGates h g hg))

/-- The residue is in the workspace. -/
def Has (w : Workspace) : Residue → Prop
  | .const v => (w.constQubit v).isSome = true
  | .blackBox => w.Boxed

/-- What is in the workspace stays there, as long as gates and constants do. -/
theorem Has.mono (h : w.Has r) (hg : w.circuit.gates ⊆ w'.circuit.gates) (hc : ∀ v, w'.constQubit v = w.constQubit v) :
    w'.Has r := by
  cases r with
  | const v =>
    change (w'.constQubit v).isSome = true
    rwa [hc]
  | blackBox =>
    obtain ⟨g, hmem, hb⟩ := h
    exact ⟨g, hg hmem, hb⟩

/-- What the noted expressions leave behind is there. -/
def Stocked (w : Workspace) : Prop := ∀ b ∈ w.memo.entries, ∀ r, b.1.leaves false r = true → w.Has r

/-- Of the residues, those are there afterwards that were there before and those of `N`. Nothing is said of further black
boxes. -/
structure Supplied (N : Residue → Bool) (w w' : Workspace) : Prop where
  stocked : w'.Stocked
  kept : ∀ r, w.Has r ∨ N r = true → w'.Has r
  asked : ∀ v, w'.Has (.const v) → w.Has (.const v) ∨ N (.const v) = true

namespace Supplied

/-- The constants that have a qubit afterwards. -/
theorem isSome_constQubit (h : Supplied N w w') (v : Bool) :
    (w'.constQubit v).isSome = ((w.constQubit v).isSome || N (.const v)) := by
  rw [Bool.eq_iff_iff, Bool.or_eq_true]
  exact ⟨h.asked v, h.kept (.const v)⟩

/-- What is there can be asked for. -/
theorem refl (hw : w.Stocked) (h : ∀ r, N r = true → w.Has r) : Supplied N w w :=
  ⟨hw, fun r hr => hr.elim id (h r), fun _ => Or.inl⟩

/-- A change that takes back no gate, makes no notes and leaves the constants. -/
theorem same (hw : w.Stocked) (hg : w.circuit.gates ⊆ w'.circuit.gates) (hm : ∀ b ∈ w'.memo.entries, b ∈ w.memo.entries)
    (hc : ∀ v, w'.constQubit v = w.constQubit v) : Supplied (fun _ => false) w w' := by
  refine ⟨fun b hb r hr => (hw b (hm b hb) r hr).mono hg hc, fun r hr => ?_, fun v hv => Or.inl ?_⟩
  · exact (hr.resolve_right Bool.false_ne_true).mono hg hc
  · change (w.constQubit v).isSome = true
    rwa [← hc]

/-- Changes one after the other. -/
theorem trans (h : Supplied N w w₁) (h' : Supplied M w₁ w') : Supplied (fun r => N r || M r) w w' := by
  refine ⟨h'.stocked, fun r hr => h'.kept r ?_, fun v hv => ?_⟩
  · rw [Bool.or_eq_true, ← or_assoc] at hr
    exact hr.imp_left (h.kept r)
  · rw [Bool.or_eq_true, ← or_assoc]
    exact (h'.asked v hv).imp_left (h.asked v)

/-- A change that leaves nothing behind comes last. -/
theorem then_same (h : Supplied N w w₁) (h' : Supplied (fun _ => false) w₁ w') : Supplied N w w' := by
  simpa only [Bool.or_false] using h.trans h'

/-- A change that leaves nothing behind comes first. -/
theorem same_then (h : Supplied (fun _ => false) w w₁) (h' : Supplied N w₁ w') : Supplied N w w' := by
  simpa only [Bool.false_or] using h.trans h'

end Supplied

end Workspace

end ReversibleLogic
