import Mathlib.Algebra.Group.Int.Defs
import Mathlib.Algebra.Group.Nat.Defs
import Mathlib.Data.List.Induction
import Mathlib.Logic.Function.Basic
import Mathlib.Tactic.Common

/-!
# Drawing on a buffer

A buffer has a value at every cell. A drawing is a function on buffers that stores values at cells,
without looking at what is there: what it makes of a cell depends on that cell at most. Two buffers
that agree at a cell still do after the same drawing.

## Main definitions

* `Pointwise f`: the drawing `f` makes of a cell what depends on that cell only
* `ChangesOnly A f`: the drawing `f` changes cells in `A` only
* `Paints A V f`: the drawing `f` stores the picture `V` at the cells in `A`, and nothing else
* `writeAt`, `writeAll`: a value stored at a cell, and values stored one after the other

## Main results

* `Pointwise.foldl`, `ChangesOnly.foldl`, `Paints.foldl`: the rules of a loop
* `writeAll_apply`: what is at a cell that a loop stores to
-/

variable {ι κ β : Type}

/-- What the drawing makes of a cell depends on that cell only. -/
def Pointwise (f : (ι → β) → ι → β) : Prop := ∀ b b' c, b c = b' c → f b c = f b' c

/-- The drawing changes cells in `A` only. -/
def ChangesOnly (A : ι → Prop) (f : (ι → β) → ι → β) : Prop := ∀ b c, ¬ A c → f b c = b c

/-- The drawing stores the picture `V` at the cells in `A`, and leaves the others. -/
def Paints (A : ι → Prop) (V : ι → β) (f : (ι → β) → ι → β) : Prop :=
  ∀ b c, (A c → f b c = V c) ∧ (¬ A c → f b c = b c)

namespace Pointwise

theorem id : Pointwise (fun b : ι → β => b) := fun _ _ _ h => h

theorem comp {f g : (ι → β) → ι → β} (hg : Pointwise g) (hf : Pointwise f) :
    Pointwise fun b => g (f b) :=
  fun b b' c h => hg (f b) (f b') c (hf b b' c h)

theorem ite {p : Prop} [Decidable p] {f g : (ι → β) → ι → β} (hf : Pointwise f)
    (hg : Pointwise g) : Pointwise fun b => if p then f b else g b := by
  intro b b' c h
  dsimp only
  split
  · exact hf b b' c h
  · exact hg b b' c h

/-- **A loop of drawings** is a drawing. -/
theorem foldl {f : κ → (ι → β) → ι → β} (hf : ∀ x, Pointwise (f x)) (xs : List κ) :
    Pointwise fun b => xs.foldl (fun b x => f x b) b := by
  intro b b' c h
  induction xs generalizing b b' with
  | nil => exact h
  | cons x xs ih => exact ih (f x b) (f x b') (hf x b b' c h)

end Pointwise

namespace ChangesOnly

variable {A : ι → Prop}

theorem comp {f g : (ι → β) → ι → β} (hg : ChangesOnly A g) (hf : ChangesOnly A f) :
    ChangesOnly A fun b => g (f b) :=
  fun b c h => (hg (f b) c h).trans (hf b c h)

/-- **A loop of drawings** changes what its rounds change. -/
theorem foldl {f : κ → (ι → β) → ι → β} {xs : List κ} (hf : ∀ x ∈ xs, ChangesOnly A (f x)) :
    ChangesOnly A fun b => xs.foldl (fun b x => f x b) b := by
  intro b c h
  induction xs generalizing b with
  | nil => rfl
  | cons x xs ih =>
    have hxs := ih (fun y hy => hf y (List.mem_cons_of_mem _ hy)) (f x b)
    exact hxs.trans (hf x List.mem_cons_self b c h)

end ChangesOnly

namespace Paints

variable {A B : ι → Prop} {V : ι → β}

theorem id (V : ι → β) : Paints (fun _ => False) V (fun b : ι → β => b) :=
  fun _ _ => ⟨False.elim, fun _ => rfl⟩

theorem congr {f : (ι → β) → ι → β} (hf : Paints A V f) (h : ∀ c, A c ↔ B c) : Paints B V f :=
  fun b c => ⟨fun hc => (hf b c).1 ((h c).mpr hc), fun hc => (hf b c).2 (mt (h c).mp hc)⟩

/-- Drawings of one picture draw it together. -/
theorem comp {f g : (ι → β) → ι → β} (hg : Paints B V g) (hf : Paints A V f) :
    Paints (fun c => A c ∨ B c) V fun b => g (f b) := by
  intro b c
  constructor
  · intro h
    by_cases hB : B c
    · exact (hg (f b) c).1 hB
    · exact ((hg (f b) c).2 hB).trans ((hf b c).1 (h.resolve_right hB))
  · intro h
    exact ((hg (f b) c).2 (not_or.mp h).2).trans ((hf b c).2 (not_or.mp h).1)

theorem ite {p : Prop} [Decidable p] {f : (ι → β) → ι → β} (hf : Paints A V f) :
    Paints (fun c => p ∧ A c) V fun b => if p then f b else b := by
  intro b c
  dsimp only
  split
  · next hp => exact ⟨fun h => (hf b c).1 h.2, fun h => (hf b c).2 fun hA => h ⟨hp, hA⟩⟩
  · next hp => exact ⟨fun h => absurd h.1 hp, fun _ => rfl⟩

/-- **A loop of drawings of one picture** draws what its rounds draw. -/
theorem foldl {A : κ → ι → Prop} {f : κ → (ι → β) → ι → β} {xs : List κ}
    (hf : ∀ x ∈ xs, Paints (A x) V (f x)) :
    Paints (fun c => ∃ x ∈ xs, A x c) V fun b => xs.foldl (fun b x => f x b) b := by
  induction xs with
  | nil => exact (Paints.id V).congr fun c => by simp
  | cons x xs ih =>
    obtain ⟨hx, hxs⟩ := List.forall_mem_cons.mp hf
    exact ((ih hxs).comp hx).congr fun c => by simp

/-- Drawings of one picture at the same cells are the same. -/
theorem eq {f g : (ι → β) → ι → β} (hf : Paints A V f) (hg : Paints A V g) (b : ι → β) :
    f b = g b := by
  funext c
  by_cases hA : A c
  · exact ((hf b c).1 hA).trans ((hg b c).1 hA).symm
  · exact ((hf b c).2 hA).trans ((hg b c).2 hA).symm

end Paints

/-! ## Storing -/

section Write

variable [DecidableEq ι]

/-- A value stored at a cell, if there is one. -/
def writeAt (c : Option ι) (v : β) (b : ι → β) : ι → β :=
  match c with
  | none => b
  | some c => Function.update b c v

theorem writeAt_self (c : ι) (v : β) (b : ι → β) : writeAt (some c) v b c = v :=
  Function.update_self ..

theorem writeAt_of_ne {d : Option ι} {c : ι} (h : d ≠ some c) (v : β) (b : ι → β) :
    writeAt d v b c = b c := by
  cases d with
  | none => rfl
  | some d => exact Function.update_of_ne (fun hc => h (congrArg some hc.symm)) ..

theorem pointwise_writeAt (d : Option ι) (v : β) : Pointwise (writeAt d v) := by
  intro b b' c h
  by_cases hd : d = some c
  · rw [hd, writeAt_self, writeAt_self]
  · rwa [writeAt_of_ne hd, writeAt_of_ne hd]

theorem changesOnly_writeAt {A : ι → Prop} {d : Option ι} (hd : ∀ c, d = some c → A c) (v : β) :
    ChangesOnly A (writeAt d v) :=
  fun b c hc => writeAt_of_ne (fun h => hc (hd c h)) v b

theorem paints_writeAt {d : Option ι} {v : β} {V : ι → β} (hV : ∀ c, d = some c → V c = v) :
    Paints (fun c => d = some c) V (writeAt d v) := by
  intro b c
  constructor
  · intro hd
    rw [hd, writeAt_self, hV c hd]
  · exact fun h => writeAt_of_ne h v b

/-- Values stored one after the other, each at its cell. -/
def writeAll (cell : κ → Option ι) (v : κ → β) (xs : List κ) (b : ι → β) : ι → β :=
  xs.foldl (fun b x => writeAt (cell x) (v x) b) b

variable {cell : κ → Option ι} {v : κ → β} {xs : List κ} {c : ι} {x : κ}

theorem writeAll_of_forall_ne (h : ∀ x ∈ xs, cell x ≠ some c) (b : ι → β) :
    writeAll cell v xs b c = b c :=
  ChangesOnly.foldl (A := fun d => ∃ x ∈ xs, cell x = some d)
    (fun x hx => changesOnly_writeAt (fun _ hd => ⟨x, hx, hd⟩) (v x)) b c
    fun ⟨x, hx, hc⟩ => h x hx hc

/-- **What is at a cell** behind a loop is the value of its round, when rounds at the same cell
store the same value. -/
theorem writeAll_apply (hx : x ∈ xs) (hc : cell x = some c)
    (hsame : ∀ y ∈ xs, cell y = some c → v y = v x) (b : ι → β) :
    writeAll cell v xs b c = v x := by
  induction xs using List.reverseRecOn with
  | nil => cases hx
  | append_singleton xs y ih =>
    rw [writeAll, List.foldl_append]
    change writeAt (cell y) (v y) (writeAll cell v xs b) c = v x
    by_cases hy : cell y = some c
    · rw [hy, writeAt_self]
      exact hsame y (by simp) hy
    · rw [writeAt_of_ne hy]
      rcases List.mem_append.mp hx with h | h
      · exact ih h fun z hz => hsame z (List.mem_append_left _ hz)
      · obtain rfl := List.mem_singleton.mp h
        exact absurd hc hy

end Write
