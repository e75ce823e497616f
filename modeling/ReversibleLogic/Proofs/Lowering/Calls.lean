import ReversibleLogic.Proofs.Lowering.Effect

/-!
# The calls that lowering makes

Lowering an expression lowers its operands first, and each of these calls may make further calls. `Task` lists the five functions
that call each other, with their arguments, and `Spawns` says which calls a call makes and from which workspaces: one rule for
each place in these functions where there is a call. What a call does depends on the calls it makes and on no others
(`Task.body_congr`), so no rule is missing.

A call may rely on much: that everything the workspace says is true, and that the qubit handed to it has nothing to do with its
expressions (`Task.Ready`). Whatever a call may rely on, the calls it makes may rely on, as long as there is no black box in the
circuit (`Spawns.prepared`). This includes calls made while the value of a symbol is changed on its own qubit: they have nothing
to do with that symbol.
-/

namespace ReversibleLogic

namespace Workspace

open Expression (anyMentions)

/-! ## Calls -/

/-- A call made while expressions are lowered: the function and its arguments. -/
inductive Task where
  | lower (e : Expression) (dest : Option Qubit) (target : Option Symbol)
  | lowerAll (es : List Expression) (found : List Qubit)
  | lowerPair (es : List Expression)
  | addTo (e : Expression) (out : Qubit)
  | addAll (es : List Expression) (out : Qubit) (skip : Option Nat)

/-- The qubit that is noted for an expression, if notes are used. -/
def noted? (w : Workspace) (e : Expression) : Option Qubit := if w.options.memoize then w.memo.get? e else none

/-- Whether the value of the expression is added from a qubit of its own. -/
def addsValue (w : Workspace) : Expression → Bool
  | .const _ | .not _ => false
  | .and es => w.options.memoize && w.memo.contains (.and es)
  | .or es => w.options.memoize && w.memo.contains (.or es)
  | .ref _ | .xor _ | .blackBox _ _ => true

/-- The first call, made from the first workspace, makes the second call, from the second workspace. -/
inductive Spawns : Task → Workspace → Task → Workspace → Prop where
  /-- The operand of a negation, unless it is flipped where it is. -/
  | not {e : Expression} {dest : Option Qubit} {target : Option Symbol} {w : Workspace} (hmiss : w.noted? (.not e) = none)
      (hflip : flipInPlace? e dest target w = .ok (none, w)) : Spawns (.lower (.not e) dest target) w (.lower e none none) w
  /-- The operands of a conjunction. -/
  | and {es : List Expression} {dest : Option Qubit} {target : Option Symbol} {w : Workspace} (hmiss : w.noted? (.and es) = none)
      (hne : es ≠ []) : Spawns (.lower (.and es) dest target) w (.lowerAll es []) w
  /-- The operands of a disjunction. -/
  | or {es : List Expression} {dest : Option Qubit} {target : Option Symbol} {w : Workspace} (hmiss : w.noted? (.or es) = none) :
      Spawns (.lower (.or es) dest target) w (.lowerPair es) w
  /-- The operands of an exclusive or, on a qubit at 0. -/
  | xor {es : List Expression} {dest : Option Qubit} {target : Option Symbol} {w w₁ : Workspace} {out : Qubit}
      (hmiss : w.noted? (.xor es) = none) (hne : es ≠ []) (hsum : w.sumInPlace? es dest target = none)
      (hout : scratch dest w = .ok (out, w₁)) : Spawns (.lower (.xor es) dest target) w (.addAll es out none) w₁
  /-- The operands of an exclusive or, on the qubit of one of them. -/
  | xorInPlace {es : List Expression} {dest : Option Qubit} {target : Option Symbol} {w : Workspace} {pos : Nat} {q : Qubit}
      (hmiss : w.noted? (.xor es) = none) (hsum : w.sumInPlace? es dest target = some (pos, q)) :
      Spawns (.lower (.xor es) dest target) w (.addAll es q (some pos)) { w with memo := w.memo.eraseQubit q }
  /-- The operands of a black box. -/
  | blackBox {tag : String} {es : List Expression} {dest : Option Qubit} {target : Option Symbol} {w : Workspace}
      (hmiss : w.noted? (.blackBox tag es) = none) (hne : es ≠ []) :
      Spawns (.lower (.blackBox tag es) dest target) w (.lowerAll es []) w
  /-- The first of several expressions. -/
  | first {e : Expression} {es : List Expression} {found : List Qubit} {w : Workspace} :
      Spawns (.lowerAll (e :: es) found) w (.lower e none none) w
  /-- The others of them. -/
  | rest {e : Expression} {es : List Expression} {found : List Qubit} {w w₁ : Workspace} {q : Qubit}
      (hfirst : lower e none none w = .ok (q, w₁)) :
      Spawns (.lowerAll (e :: es) found) w (.lowerAll es (if q ∈ found then found else found ++ [q])) w₁
  /-- The first of two expressions. -/
  | left {l r : Expression} {w : Workspace} : Spawns (.lowerPair [l, r]) w (.lower l none none) w
  /-- The second of them. -/
  | right {l r : Expression} {w w₁ : Workspace} {q : Qubit} (hleft : lower l none none w = .ok (q, w₁)) :
      Spawns (.lowerPair [l, r]) w (.lower r none none) w₁
  /-- A value that is added from a qubit of its own. -/
  | addValue {e : Expression} {out : Qubit} {w : Workspace} (hvalue : w.addsValue e = true) :
      Spawns (.addTo e out) w (.lower e none none) w
  /-- The operand of a negation that is added. -/
  | addNot {e : Expression} {out : Qubit} {w : Workspace} : Spawns (.addTo (.not e) out) w (.addTo e out) w
  /-- The operands of a conjunction that is added. -/
  | addAnd {es : List Expression} {out : Qubit} {w : Workspace} (hvalue : w.addsValue (.and es) = false) (hne : es ≠ []) :
      Spawns (.addTo (.and es) out) w (.lowerAll es []) w
  /-- The operands of a disjunction that is added. -/
  | addOr {es : List Expression} {out : Qubit} {w : Workspace} (hvalue : w.addsValue (.or es) = false) :
      Spawns (.addTo (.or es) out) w (.lowerPair es) w
  /-- The first of several expressions that are added. -/
  | addFirst {e : Expression} {es : List Expression} {out : Qubit} {skip : Option Nat} {w : Workspace} (hskip : skip ≠ some 0) :
      Spawns (.addAll (e :: es) out skip) w (.addTo e out) w
  /-- The others of them. -/
  | addRest {e : Expression} {es : List Expression} {out : Qubit} {skip : Option Nat} {w w₁ : Workspace} {u : Unit}
      (hskip : skip ≠ some 0) (hfirst : addTo e out w = .ok (u, w₁)) :
      Spawns (.addAll (e :: es) out skip) w (.addAll es out (skip.map (· - 1))) w₁
  /-- The others, if the first is skipped. -/
  | addSkip {e : Expression} {es : List Expression} {out : Qubit} {w : Workspace} :
      Spawns (.addAll (e :: es) out (some 0)) w (.addAll es out none) w

/-! ## No call is missing -/

section Congruence

variable {α β : Type} {w : Workspace} {m m' : Lowering α} {e : Expression} {es : List Expression} {dest : Option Qubit}
  {target : Option Symbol}

/-- A sequence depends on what its first step does, and on what the second does after it. -/
theorem bind_congr {f f' : α → Lowering β} (hm : m w = m' w) (hf : ∀ a w₁, m w = .ok (a, w₁) → f a w₁ = f' a w₁) :
    (m >>= f) w = (m' >>= f') w := by
  change (m w >>= fun p => f p.1 p.2) = (m' w >>= fun p => f' p.1 p.2)
  rw [← hm]
  cases hr : m w with
  | error err => rfl
  | ok r => exact hf r.1 r.2 hr

/-- A value that is not noted depends on the step that makes it, from this workspace. -/
theorem remember_congr {make make' : Lowering Qubit} (h : w.noted? e = none → make w = make' w) :
    remember e make w = remember e make' w := by
  unfold remember reuse
  rw [Lowering.get_bind, Lowering.get_bind]
  cases hn : (if w.options.memoize then w.memo.get? e else none) with
  | some q => rfl
  | none => exact bind_congr (h hn) fun _ _ _ => rfl

/-- An operator with operands depends on the step that lowers them. -/
theorem atLeastOne_congr {op : Operator} (h : es ≠ [] → m w = m' w) : atLeastOne op es m w = atLeastOne op es m' w := by
  cases es with
  | nil => rfl
  | cons e es => exact h (by simp)

/-- A negation that is not made in place depends on the step that lowers its operand. -/
theorem negate_congr {operand operand' : Lowering Qubit}
    (h : flipInPlace? e dest target w = .ok (none, w) → operand w = operand' w) :
    negate e dest target operand w = negate e dest target operand' w := by
  refine bind_congr rfl fun found w₁ hflip => ?_
  obtain ⟨rfl, -⟩ := flipInPlace?_eq_ok hflip
  cases found with
  | some q => rfl
  | none =>
    dsimp only
    rw [Lowering.get_bind, Lowering.get_bind]
    exact bind_congr (h hflip) fun _ _ _ => rfl

/-- An exclusive or depends on the step that adds its operands, from where it is added up. -/
theorem sumUp_congr {add add' : Qubit → Option Nat → Lowering Unit}
    (hscratch : es ≠ [] → w.sumInPlace? es dest target = none → ∀ out w₁, scratch dest w = .ok (out, w₁) →
      add out none w₁ = add' out none w₁)
    (hplace : ∀ pos q, w.sumInPlace? es dest target = some (pos, q) →
      add q (some pos) { w with memo := w.memo.eraseQubit q } = add' q (some pos) { w with memo := w.memo.eraseQubit q }) :
    sumUp es dest target add w = sumUp es dest target add' w := by
  cases es with
  | nil => rfl
  | cons e es =>
    unfold sumUp
    dsimp only [List.isEmpty_cons]
    rw [if_neg Bool.false_ne_true, if_neg Bool.false_ne_true, Lowering.get_bind, Lowering.get_bind]
    cases hsum : w.sumInPlace? (e :: es) dest target with
    | some found =>
      obtain ⟨pos, q⟩ := found
      refine bind_congr rfl fun _ w₁ hforget => ?_
      obtain rfl := forget_eq_ok hforget
      exact bind_congr (hplace pos q hsum) fun _ _ _ => rfl
    | none =>
      refine bind_congr rfl fun out w₁ hout => ?_
      exact bind_congr (hscratch (by simp) hsum out w₁ hout) fun _ _ _ => rfl

/-- What is added depends on whether the value is held. -/
theorem isHeld_congr {a a' b b' : Lowering Unit} (ha : (w.options.memoize && w.memo.contains e) = true → a w = a' w)
    (hb : (w.options.memoize && w.memo.contains e) = false → b w = b' w) :
    (do if ← isHeld e then a else b : Lowering Unit) w = (do if ← isHeld e then a' else b' : Lowering Unit) w := by
  refine bind_congr rfl fun held w₁ hrun => ?_
  obtain ⟨hheld, rfl⟩ := Lowering.pure_eq_ok.1 hrun
  cases held with
  | true => exact ha hheld
  | false => exact hb hheld

end Congruence

namespace Task

/-- What the function returns. -/
def Result : Task → Type
  | .lower _ _ _ => Qubit
  | .lowerAll _ _ => List Qubit
  | .lowerPair _ => Qubit × Qubit
  | .addTo _ _ | .addAll _ _ _ => Unit

/-- What the call does. -/
def run : (t : Task) → Lowering t.Result
  | .lower e dest target => Workspace.lower e dest target
  | .lowerAll es found => Workspace.lowerAll es found
  | .lowerPair es => Workspace.lowerPair es
  | .addTo e out => Workspace.addTo e out
  | .addAll es out skip => Workspace.addAll es out skip

/-- What the call does if the calls that it makes do what `callee` says. -/
def body (callee : (t : Task) → Lowering t.Result) : (t : Task) → Lowering t.Result
  | .lower (.const value) dest _ => reuse (.const value) (lowerConst value dest)
  | .lower (.ref s) dest target => reuse (.ref s) (lowerRef s dest target)
  | .lower (.not e) dest target => remember (.not e) (negate e dest target (callee (.lower e none none)))
  | .lower (.and es) dest _ => remember (.and es) (conjoin (atLeastOne .and es (callee (.lowerAll es []))) dest)
  | .lower (.or es) dest _ => remember (.or es) (disjoin (callee (.lowerPair es)) dest)
  | .lower (.xor es) dest target => remember (.xor es) (sumUp es dest target fun out skip => callee (.addAll es out skip))
  | .lower (.blackBox tag es) _ _ =>
    remember (.blackBox tag es) (applyBlackBox tag (atLeastOne .blackBox es (callee (.lowerAll es []))))
  | .lowerAll [] found => (return found : Lowering (List Qubit))
  | .lowerAll (e :: es) found => (do
    let q : Qubit ← callee (.lower e none none)
    callee (.lowerAll es (if q ∈ found then found else found ++ [q])) : Lowering (List Qubit))
  | .lowerPair [l, r] => (do
    let lhs ← callee (.lower l none none)
    let rhs ← callee (.lower r none none)
    return (lhs, rhs) : Lowering (Qubit × Qubit))
  | .lowerPair es => (throw (.malformedOr es.length) : Lowering (Qubit × Qubit))
  | .addTo (.const value) out => (if value then gate (.x out) else return : Lowering Unit)
  | .addTo (.not e) out => (do
    callee (.addTo e out)
    gate (.x out) : Lowering Unit)
  | .addTo (.and es) out => (do
    if ← isHeld (.and es) then Workspace.addValue (callee (.lower (.and es) none none)) out
    else addConjunction (atLeastOne .and es (callee (.lowerAll es []))) out : Lowering Unit)
  | .addTo (.or es) out => (do
    if ← isHeld (.or es) then Workspace.addValue (callee (.lower (.or es) none none)) out
    else addDisjunction (callee (.lowerPair es)) out : Lowering Unit)
  | .addTo (.ref s) out => Workspace.addValue (callee (.lower (.ref s) none none)) out
  | .addTo (.xor es) out => Workspace.addValue (callee (.lower (.xor es) none none)) out
  | .addTo (.blackBox tag es) out => Workspace.addValue (callee (.lower (.blackBox tag es) none none)) out
  | .addAll [] _ _ => (return : Lowering Unit)
  | .addAll (_ :: es) out (some 0) => callee (.addAll es out none)
  | .addAll (e :: es) out skip => (do
    callee (.addTo e out)
    callee (.addAll es out (skip.map (· - 1))) : Lowering Unit)

variable {w : Workspace} {callee : (t : Task) → Lowering t.Result}

/-- A call does what its body does with the calls it makes. -/
theorem body_run : ∀ t : Task, t.body run = t.run
  | .lower e _ _ => by cases e <;> rfl
  | .lowerAll es _ => by cases es <;> rfl
  | .lowerPair es => by
    match es with
    | [] | [_] | [_, _] | _ :: _ :: _ :: _ => rfl
  | .addTo e _ => by cases e <;> rfl
  | .addAll es _ skip => by
    match es, skip with
    | [], _ => rfl
    | _ :: _, none | _ :: _, some 0 | _ :: _, some (_ + 1) => rfl

/-- What a call does depends on the calls that it makes, and on no others. -/
theorem body_congr {t : Task} (h : ∀ t' w', Spawns t w t' w' → callee t' w' = t'.run w') : t.body callee w = t.run w := by
  rw [← body_run]
  match t, h with
  | .lower (.const _) _ _, _ => rfl
  | .lower (.ref _) _ _, _ => rfl
  | .lower (.not e) dest target, h => exact remember_congr fun hmiss => negate_congr fun hflip => h _ _ (.not hmiss hflip)
  | .lower (.and es) dest target, h =>
    exact remember_congr fun hmiss => bind_congr (atLeastOne_congr fun hne => h _ _ (.and hmiss hne)) fun _ _ _ => rfl
  | .lower (.or es) dest target, h =>
    exact remember_congr fun hmiss => bind_congr (h _ _ (.or hmiss)) fun _ _ _ => rfl
  | .lower (.xor es) dest target, h =>
    exact remember_congr fun hmiss => sumUp_congr (fun hne hsum _ _ hout => h _ _ (.xor hmiss hne hsum hout))
      fun _ _ hsum => h _ _ (.xorInPlace hmiss hsum)
  | .lower (.blackBox tag es) dest target, h =>
    exact remember_congr fun hmiss => bind_congr (atLeastOne_congr fun hne => h _ _ (.blackBox hmiss hne)) fun _ _ _ => rfl
  | .lowerAll [] _, _ => rfl
  | .lowerAll (e :: es) found, h =>
    exact bind_congr (h _ _ .first) fun q w₁ hq => h _ _ (.rest ((h _ _ .first).symm.trans hq))
  | .lowerPair [], _ | .lowerPair [_], _ | .lowerPair (_ :: _ :: _ :: _), _ => rfl
  | .lowerPair [l, r], h =>
    exact bind_congr (h _ _ .left) fun q w₁ hq =>
      bind_congr (h _ _ (.right ((h _ _ .left).symm.trans hq))) fun _ _ _ => rfl
  | .addTo (.const _) _, _ => rfl
  | .addTo (.ref _) _, h | .addTo (.xor _) _, h | .addTo (.blackBox _ _) _, h =>
    exact bind_congr (h _ _ (.addValue rfl)) fun _ _ _ => rfl
  | .addTo (.not _) _, h => exact bind_congr (h _ _ .addNot) fun _ _ _ => rfl
  | .addTo (.and _) _, h =>
    exact isHeld_congr (fun hheld => bind_congr (h _ _ (.addValue hheld)) fun _ _ _ => rfl) fun hheld =>
      bind_congr (atLeastOne_congr fun hne => h _ _ (.addAnd hheld hne)) fun _ _ _ => rfl
  | .addTo (.or _) _, h =>
    exact isHeld_congr (fun hheld => bind_congr (h _ _ (.addValue hheld)) fun _ _ _ => rfl) fun hheld =>
      bind_congr (h _ _ (.addOr hheld)) fun _ _ _ => rfl
  | .addAll [] _ _, _ => rfl
  | .addAll (_ :: _) _ (some 0), h => exact h _ _ .addSkip
  | .addAll (_ :: _) _ none, h =>
    exact bind_congr (h _ _ (.addFirst (by simp))) fun _ w₁ hq =>
      h _ _ (.addRest (by simp) ((h _ _ (.addFirst (by simp))).symm.trans hq))
  | .addAll (_ :: _) _ (some (_ + 1)), h =>
    exact bind_congr (h _ _ (.addFirst (by simp))) fun _ w₁ hq =>
      h _ _ (.addRest (by simp) ((h _ _ (.addFirst (by simp))).symm.trans hq))

end Task

/-! ## What a call may rely on -/

/-- The circuit can be run on rows of `k` bits: its gates are of the NOT family and fit. -/
structure Executable (k : Nat) (w : Workspace) : Prop where
  flips : ∀ g ∈ w.circuit.gates, g.Flips w.circuit.numQubits
  row_le : k ≤ w.circuit.numQubits

variable {k : Nat} {ρ : Valuation} {s₀ : Bits} {x out : Option Qubit} {w w' : Workspace} {E : List LogEntry} {t t' : Task}
  {e : Expression} {es : List Expression}

/-- What lowering appends can be run. -/
theorem Grows.executable (h : Grows out w w' E) (hw : Executable k w) : Executable k w' := by
  refine ⟨fun g hg => ?_, Nat.le_trans hw.row_le h.numQubits_le⟩
  rw [h.gates, List.mem_append, List.mem_flatMap] at hg
  rcases hg with hg | ⟨e, he, hg⟩
  · exact (hw.flips g hg).mono h.numQubits_le
  · exact ⟨(h.entry e he).reversible.classical g hg, (h.entry e he).fits g hg⟩

/-- What a call may rely on, when `ρ` gives the values of the symbols, the qubits start with the values `s₀` and the qubit `x` is
being overwritten. Only the whole expression of an assignment is lowered for a target, and nothing is being overwritten then. -/
def Task.Ready (ρ : Valuation) (s₀ : Bits) (x : Option Qubit) : Task → Workspace → Prop
  | .lower e dest target, w => Workspace.Ready ρ s₀ x (fun s => e.mentions s) dest w ∧
      (∀ d, dest = some d → w.circuit.final s₀ d = false) ∧ (target ≠ none → x = none)
  | .lowerAll es _, w => Workspace.Ready ρ s₀ x (fun s => anyMentions s es) none w
  | .lowerPair es, w => Workspace.Ready ρ s₀ x (fun s => anyMentions s es) none w
  | .addTo e out, w => Workspace.Ready ρ s₀ x (fun s => e.mentions s) (some out) w
  | .addAll es out skip, w => Workspace.Ready ρ s₀ x (fun s => anyMentions s (skipped es skip)) (some out) w

/-- The circuit can be run, and the call finds what it may rely on. -/
structure Prepared (k : Nat) (ρ : Valuation) (s₀ : Bits) (t : Task) (w : Workspace) : Prop where
  executable : Executable k w
  ready : ∃ x, t.Ready ρ s₀ x w

/-- Operands are lowered without a destination. -/
theorem Ready.operand (h : Ready ρ s₀ x (fun s => e.mentions s) out w) : (Task.lower e none none).Ready ρ s₀ x w :=
  ⟨h.withoutOut, by simp, by simp⟩

/-- The first of several expressions may rely on what all of them may. -/
theorem Ready.head (h : Ready ρ s₀ x (fun s => anyMentions s (e :: es)) out w) : Ready ρ s₀ x (fun s => e.mentions s) out w :=
  h.mono fun s hs => by simp [anyMentions, hs]

/-- So may those after it. -/
theorem Ready.tail (h : Ready ρ s₀ x (fun s => anyMentions s (e :: es)) out w) :
    Ready ρ s₀ x (fun s => anyMentions s es) out w :=
  h.mono fun s hs => by simp [anyMentions, hs]

/-- Where there is no black box in the circuit, there was none in what has been lowered. -/
theorem Traced.isBoolean {α : Type} {m : Lowering α} {added : Bool} {a : α} (h : Traced (e.leaves added) m)
    (hw : w.Stocked) (hrun : m w = .ok (a, w')) (hbox : ¬w'.Boxed) : e.isBoolean = true := by
  have hno : e.leaves added .blackBox = false :=
    Bool.eq_false_iff.2 fun hleft => hbox (((h hrun).2 hw).kept .blackBox (Or.inr hleft))
  simpa [Expression.leaves] using hno

/-- A value has been lowered before the others. Without a black box in the circuit there was none in its expression. -/
theorem Ready.lowered {T : Symbol → Bool} {q : Qubit} (hS : Ready ρ s₀ x (fun s => e.mentions s) none w)
    (hT : Ready ρ s₀ x T none w) (hexec : Executable k w) (hw : w.Stocked) (hrun : lower e none none w = .ok (q, w'))
    (hbox : ¬w'.Boxed) : Executable k w' ∧ Ready ρ s₀ x T none w' := by
  have he := (traced_lower e none none fun _ _ => rfl).isBoolean hw hrun hbox
  obtain ⟨E, hF, -⟩ := lower_spec he none hS (by simp) hrun
  exact ⟨hF.grows.executable hexec, hS.after hT hF (by simp)⟩

/-- A value has been added before the others. -/
theorem Ready.added {T : Symbol → Bool} {d : Qubit} {u : Unit} (hS : Ready ρ s₀ x (fun s => e.mentions s) (some d) w)
    (hT : Ready ρ s₀ x T (some d) w) (hexec : Executable k w) (hw : w.Stocked) (hrun : addTo e d w = .ok (u, w'))
    (hbox : ¬w'.Boxed) : Executable k w' ∧ Ready ρ s₀ x T (some d) w' := by
  have he := (traced_addTo e d).isBoolean hw hrun hbox
  obtain ⟨E, hF, -⟩ := addTo_spec he d hS hrun
  exact ⟨hF.grows.executable hexec, hS.after hT hF (by simp)⟩

theorem skipped_cons {skip : Option Nat} (h : skip ≠ some 0) : skipped (e :: es) skip = e :: skipped es (skip.map (· - 1)) := by
  match skip, h with
  | none, _ => rfl
  | some (i + 1), _ => rfl

/-- What is left behind stays there until a call makes another. -/
theorem Spawns.supplied (h : Spawns t w t' w') (hw : w.Stocked) : ∃ N, Supplied N w w' := by
  cases h with
  | rest hfirst => exact ⟨_, (traced_lower _ none none (fun _ _ => rfl) hfirst).2 hw⟩
  | right hleft => exact ⟨_, (traced_lower _ none none (fun _ _ => rfl) hleft).2 hw⟩
  | addRest _ hfirst => exact ⟨_, (traced_addTo _ _ hfirst).2 hw⟩
  | xor _ _ _ hout => exact ⟨_, (Traced.scratch _ hout).2 hw⟩
  | xorInPlace _ _ => exact ⟨_, (Traced.forget _ (a := ()) (Lowering.modify_eq_ok.2 rfl)).2 hw⟩
  | _ => exact ⟨fun _ => false, .refl hw (by simp)⟩

/-- What a call finds that it may rely on, the calls it makes find, as long as there is no black box in the circuit. -/
theorem Spawns.prepared (h : Spawns t w t' w') (hw : w.Stocked) (hbox : ¬w'.Boxed) (ht : Prepared k ρ s₀ t w) :
    Prepared k ρ s₀ t' w' := by
  obtain ⟨hexec, x, hR⟩ := ht
  cases h with
  | not _ _ => exact ⟨hexec, x, hR.1.operand⟩
  | and _ _ => exact ⟨hexec, x, hR.1.withoutOut⟩
  | or _ => exact ⟨hexec, x, hR.1.withoutOut⟩
  | blackBox _ _ => exact ⟨hexec, x, hR.1.withoutOut⟩
  | xor _ _ _ hout =>
    obtain ⟨hO, -⟩ := onto_scratch hR.1 hR.2.1 (.refl hR.1.sound _ none) hout
    exact ⟨hO.fetched.grows.executable hexec, x, hO.ready hR.1⟩
  | xorInPlace _ hsum =>
    obtain ⟨-, s, rfl, -, hs, hm, ho⟩ := sumInPlace?_eq_some hsum
    obtain rfl := hR.2.2 (by simp)
    exact ⟨⟨hexec.flips, hexec.row_le⟩, _, ready_overwrite hR.1.sound hs ho hm⟩
  | first => exact ⟨hexec, x, Ready.operand (Ready.head hR)⟩
  | rest hfirst =>
    obtain ⟨hexec', hR'⟩ := Ready.lowered (Ready.head hR) (Ready.tail hR) hexec hw hfirst hbox
    exact ⟨hexec', x, hR'⟩
  | left => exact ⟨hexec, x, Ready.operand (Ready.head hR)⟩
  | right hleft =>
    obtain ⟨hexec', hR'⟩ := Ready.lowered (Ready.head hR) (Ready.tail hR) hexec hw hleft hbox
    exact ⟨hexec', x, Ready.operand (Ready.head hR')⟩
  | addValue _ => exact ⟨hexec, x, Ready.operand hR⟩
  | addNot => exact ⟨hexec, x, hR⟩
  | addAnd _ _ => exact ⟨hexec, x, hR.withoutOut⟩
  | addOr _ => exact ⟨hexec, x, hR.withoutOut⟩
  | addFirst hskip =>
    rw [Task.Ready, skipped_cons hskip] at hR
    exact ⟨hexec, x, Ready.head hR⟩
  | addRest hskip hfirst =>
    rw [Task.Ready, skipped_cons hskip] at hR
    obtain ⟨hexec', hR'⟩ := Ready.added (Ready.head hR) (Ready.tail hR) hexec hw hfirst hbox
    exact ⟨hexec', x, hR'⟩
  | addSkip => exact ⟨hexec, x, hR⟩

end Workspace

end ReversibleLogic
