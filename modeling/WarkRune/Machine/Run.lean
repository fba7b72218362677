import Mathlib.Algebra.Group.Int.Defs
import Mathlib.Algebra.Group.Nat.Defs
import Mathlib.Data.List.Basic

/-!
# Runs of a deterministic machine

A machine is a step function: a state and an input give the next state. A run feeds it a list of
inputs, one after the other. What a machine promises is usually promised for the runs whose
inputs are admitted by the states they meet, so admission is part of the vocabulary.

## Main definitions

* `Machine.after step s is`: the state after the inputs `is`
* `Machine.Admits step ok s is`: every input is admitted by the state it meets
* `Machine.both step step'`: two machines fed the same inputs
* `Machine.outputs step out s is`: what the inputs of a run put out, one after the other

## Main results

* `Machine.invariant`: what every admitted step keeps holds after every admitted run
* `Machine.simulates`: a relation that steps keep relates the states after equal runs
* `Machine.visits_iff`: a property that exactly the admitted steps keep holds throughout a run
  exactly when the run is admitted
-/

namespace Machine

variable {σ τ ι : Type} {step : σ → ι → σ} {step' : τ → ι → τ} {ok : σ → ι → Prop}

/-- The state after the inputs. -/
def after (step : σ → ι → σ) (s : σ) (is : List ι) : σ := is.foldl step s

/-- Every input is admitted by the state it meets. -/
def Admits (step : σ → ι → σ) (ok : σ → ι → Prop) : σ → List ι → Prop
  | _, [] => True
  | s, i :: is => ok s i ∧ Admits step ok (step s i) is

@[simp] theorem after_nil (s : σ) : after step s [] = s := rfl

@[simp] theorem after_cons (s : σ) (i : ι) (is : List ι) :
    after step s (i :: is) = after step (step s i) is := rfl

theorem after_append (s : σ) (is js : List ι) :
    after step s (is ++ js) = after step (after step s is) js :=
  List.foldl_append ..

@[simp] theorem after_concat (s : σ) (is : List ι) (i : ι) :
    after step s (is ++ [i]) = step (after step s is) i :=
  after_append ..

@[simp] theorem admits_nil (s : σ) : Admits step ok s [] := trivial

@[simp] theorem admits_cons {s : σ} {i : ι} {is : List ι} :
    Admits step ok s (i :: is) ↔ ok s i ∧ Admits step ok (step s i) is := Iff.rfl

theorem admits_append {s : σ} {is js : List ι} :
    Admits step ok s (is ++ js) ↔
      Admits step ok s is ∧ Admits step ok (after step s is) js := by
  induction is generalizing s with
  | nil => simp
  | cons i is ih => simp only [List.cons_append, admits_cons, ih, after_cons, and_assoc]

/-- A run is admitted exactly when each of its inputs is. -/
theorem admits_iff {s : σ} {is : List ι} :
    Admits step ok s is ↔ ∀ js i ks, is = js ++ i :: ks → ok (after step s js) i := by
  constructor
  · rintro h js i ks rfl
    exact (admits_append.mp h).2.1
  · intro h
    induction is generalizing s with
    | nil => trivial
    | cons i is ih =>
      refine ⟨h [] i is rfl, ih fun js j ks hjs => ?_⟩
      exact h (i :: js) j ks (by rw [hjs]; rfl)

/-- Every run is admitted when every input is. -/
theorem admits_of_forall (h : ∀ s i, ok s i) (s : σ) (is : List ι) : Admits step ok s is := by
  induction is generalizing s with
  | nil => trivial
  | cons i is ih => exact ⟨h s i, ih _⟩

/-- **What every admitted step keeps holds after every admitted run.** -/
theorem invariant {I : σ → Prop} (hstep : ∀ s i, I s → ok s i → I (step s i)) {s : σ}
    {is : List ι} (hs : I s) (h : Admits step ok s is) : I (after step s is) := by
  induction is generalizing s with
  | nil => exact hs
  | cons i is ih => exact ih (hstep s i hs h.1) h.2

/-- What every step keeps holds after every run. -/
theorem invariant_of_forall {I : σ → Prop} (hstep : ∀ s i, I s → I (step s i)) {s : σ}
    (hs : I s) (is : List ι) : I (after step s is) :=
  invariant (fun s i hs (_ : True) => hstep s i hs) hs
    (admits_of_forall (fun _ _ => trivial) s is)

/-- **A relation that steps keep relates the states after equal runs.** -/
theorem simulates {R : σ → τ → Prop} (hstep : ∀ s t i, R s t → ok s i → R (step s i) (step' t i))
    {s : σ} {t : τ} {is : List ι} (hs : R s t) (h : Admits step ok s is) :
    R (after step s is) (after step' t is) := by
  induction is generalizing s t with
  | nil => exact hs
  | cons i is ih => exact ih (hstep s t i hs h.1) h.2

section Outputs

variable {ω : Type} {out : σ → ι → List ω}

/-- What the inputs of a run put out, one after the other. -/
def outputs (step : σ → ι → σ) (out : σ → ι → List ω) : σ → List ι → List ω
  | _, [] => []
  | s, i :: is => out s i ++ outputs step out (step s i) is

@[simp] theorem outputs_nil (s : σ) : outputs step out s [] = [] := rfl

theorem outputs_append (s : σ) (is js : List ι) :
    outputs step out s (is ++ js) = outputs step out s is ++ outputs step out (after step s is) js := by
  induction is generalizing s with
  | nil => rfl
  | cons i is ih => rw [List.cons_append, outputs, ih, outputs, List.append_assoc, after_cons]

theorem outputs_concat (s : σ) (is : List ι) (i : ι) :
    outputs step out s (is ++ [i]) = outputs step out s is ++ out (after step s is) i := by
  rw [outputs_append]
  exact congrArg _ (List.append_nil _)

end Outputs

/-- Two machines fed the same inputs. -/
def both (step : σ → ι → σ) (step' : τ → ι → τ) (p : σ × τ) (i : ι) : σ × τ :=
  (step p.1 i, step' p.2 i)

/-- Two machines run side by side. -/
theorem after_both {p : σ × τ} {is : List ι} :
    after (both step step') p is = (after step p.1 is, after step' p.2 is) := by
  induction is generalizing p with
  | nil => rfl
  | cons i is ih => exact ih

/-- Admission by the first of two machines. -/
theorem admits_both {p : σ × τ} {is : List ι} :
    Admits (both step step') (fun p i => ok p.1 i) p is ↔ Admits step ok p.1 is := by
  induction is generalizing p with
  | nil => exact Iff.rfl
  | cons i is ih => exact and_congr Iff.rfl ih

/-- Two ways to admit that agree wherever one of them leads admit the same runs. -/
theorem admits_congr {ok' : σ → ι → Prop} {I : σ → Prop} (hiff : ∀ s i, I s → (ok s i ↔ ok' s i))
    (hI : ∀ s i, I s → ok' s i → I (step s i)) {s : σ} {is : List ι} (hs : I s) :
    Admits step ok s is ↔ Admits step ok' s is := by
  induction is generalizing s with
  | nil => exact Iff.rfl
  | cons i is ih =>
    rw [admits_cons, admits_cons, hiff s i hs]
    exact and_congr_right fun hi => ih (hI s i hs hi)

/-- **A property that exactly the admitted steps keep** holds in every state of a run exactly when
the run is admitted. -/
theorem visits_iff {I Q : σ → Prop} (hI : ∀ s i, I s → ok s i → I (step s i))
    (hQ : ∀ s, I s → Q s) (hbad : ∀ s i, I s → ¬ ok s i → ¬ Q (step s i)) {s : σ} {is : List ι}
    (hs : I s) : (∀ js, js <+: is → Q (after step s js)) ↔ Admits step ok s is := by
  induction is generalizing s with
  | nil => simpa using hQ s hs
  | cons i is ih =>
    constructor
    · intro h
      -- the first step is admitted, since the state after it has the property
      have hi : ok s i := by
        by_contra hi
        exact hbad s i hs hi (h [i] ⟨is, rfl⟩)
      refine ⟨hi, (ih (hI s i hs hi)).mp fun js hjs => ?_⟩
      exact h (i :: js) (List.prefix_cons_inj i |>.mpr hjs)
    · rintro ⟨hi, his⟩ js hjs
      cases js with
      | nil => exact hQ s hs
      | cons j js =>
        obtain ⟨rfl, htl⟩ := List.cons_prefix_cons.mp hjs
        exact (ih (hI s j hs hi)).mpr his js htl

end Machine
