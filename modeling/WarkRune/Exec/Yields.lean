import WarkRune.Exec.Basic

/-!
# Total correctness

A program yields a postcondition from a state when it returns there, with a result and a state
that satisfy it. A program is deterministic, so the postcondition then holds of every result it
returns. The rules follow the programs; straight-line code is reduced by the simp set.

## Main definitions

* `Exec.Yields m s P`: from `s`, the program `m` returns a result and a state that satisfy `P`

## Main results

* `Exec.yields_bind`, `Exec.yields_loop`, `Exec.yields_forRange`: the rules of a sequence and of
  the loops
* `Exec.Yields.of_returns`: what a run returns satisfies the postcondition
-/

namespace Exec

variable {σ α β : Type} {s : σ}

/-- From `s`, the program returns a result and a state that satisfy `P`. -/
def Yields (m : Exec σ α) (s : σ) (P : α → σ → Prop) : Prop := ∃ a s', m.Returns s a s' ∧ P a s'

theorem Yields.mono {m : Exec σ α} {P Q : α → σ → Prop} (h : m.Yields s P)
    (hPQ : ∀ a s', P a s' → Q a s') : m.Yields s Q := by
  obtain ⟨a, s', hr, hP⟩ := h
  exact ⟨a, s', hr, hPQ a s' hP⟩

/-- **What a run returns satisfies the postcondition.** -/
theorem Yields.of_returns {m : Exec σ α} {P : α → σ → Prop} (h : m.Yields s P) {a : α} {s' : σ}
    (hr : m.Returns s a s') : P a s' := by
  obtain ⟨b, s₁, hb, hP⟩ := h
  obtain ⟨rfl, rfl⟩ := hr.det hb
  exact hP

theorem Yields.and {m : Exec σ α} {P Q : α → σ → Prop} (hP : m.Yields s P) (hQ : m.Yields s Q) :
    m.Yields s fun a s' => P a s' ∧ Q a s' := by
  obtain ⟨a, s', hr, hp⟩ := hP
  exact ⟨a, s', hr, hp, hQ.of_returns hr⟩

theorem Yields.halts {m : Exec σ α} {P : α → σ → Prop} (h : m.Yields s P) : m.Halts s := by
  obtain ⟨a, s', hr, -⟩ := h
  exact ⟨a, s', hr⟩

@[simp] theorem yields_pure {a : α} {P : α → σ → Prop} :
    (pure a : Exec σ α).Yields s P ↔ P a s := by
  simp only [Yields, returns_pure, and_assoc, exists_and_left, exists_eq_left]

@[simp] theorem yields_get {P : σ → σ → Prop} : (get : Exec σ σ).Yields s P ↔ P s s := by
  simp only [Yields, returns_get, and_assoc, exists_and_left, exists_eq_left]

@[simp] theorem yields_set {t : σ} {P : PUnit → σ → Prop} :
    (set t : Exec σ PUnit).Yields s P ↔ P () t := by
  simp only [Yields, returns_set, exists_eq_left]
  exact ⟨fun h => h.elim fun _ hP => hP, fun hP => ⟨(), hP⟩⟩

@[simp] theorem yields_modify {f : σ → σ} {P : PUnit → σ → Prop} :
    (modify f : Exec σ PUnit).Yields s P ↔ P () (f s) := by
  simp only [Yields, returns_modify, exists_eq_left]
  exact ⟨fun h => h.elim fun _ hP => hP, fun hP => ⟨(), hP⟩⟩

theorem yields_ite {c : Prop} [Decidable c] {m k : Exec σ α} {P : α → σ → Prop} :
    (if c then m else k).Yields s P ↔ if c then m.Yields s P else k.Yields s P := by
  split
  · exact Iff.rfl
  · exact Iff.rfl

/-- **A sequence yields** what its second part yields from where its first part ends. -/
@[simp] theorem yields_bind {m : Exec σ α} {f : α → Exec σ β} {P : β → σ → Prop} :
    (m >>= f).Yields s P ↔ m.Yields s fun a s' => (f a).Yields s' P := by
  constructor
  · rintro ⟨b, s', hr, hP⟩
    obtain ⟨a, s₁, hm, hf⟩ := returns_bind.mp hr
    exact ⟨a, s₁, hm, b, s', hf, hP⟩
  · rintro ⟨a, s₁, hm, b, s', hf, hP⟩
    exact ⟨b, s', returns_bind.mpr ⟨a, s₁, hm, hf⟩, hP⟩

/-- What follows the round of a loop: its answer, or the loop from where it left off. -/
def Resumes (body : β → Exec σ (β ⊕ α)) (P : α → σ → Prop) (x : β ⊕ α) (s : σ) : Prop :=
  match x with
  | .inl b => (loop body b).Yields s P
  | .inr a => P a s

@[simp] theorem resumes_inl {body : β → Exec σ (β ⊕ α)} {P : α → σ → Prop} {b : β} :
    Resumes body P (.inl b) s ↔ (loop body b).Yields s P := Iff.rfl

@[simp] theorem resumes_inr {body : β → Exec σ (β ⊕ α)} {P : α → σ → Prop} {a : α} :
    Resumes body P (.inr a) s ↔ P a s := Iff.rfl

/-- **A loop yields** what its first round answers, or what the loop yields from there. -/
theorem yields_loop {body : β → Exec σ (β ⊕ α)} {b : β} {P : α → σ → Prop} :
    (loop body b).Yields s P ↔ (body b).Yields s (Resumes body P) := by
  constructor
  · rintro ⟨a, s', hr, hP⟩
    obtain ⟨x, s₁, hx, ⟨rfl, rfl⟩ | ⟨b', rfl, hl⟩⟩ := returns_loop.mp hr
    · exact ⟨_, _, hx, hP⟩
    · exact ⟨_, _, hx, a, s', hl, hP⟩
  · rintro ⟨x, s₁, hx, hres⟩
    cases x with
    | inl b' =>
      obtain ⟨a, s', hl, hP⟩ := hres
      exact ⟨a, s', hx.loop_next hl, hP⟩
    | inr a => exact ⟨a, s₁, hx.loop_done, hres⟩

/-- **The rule of the counted loop**: an invariant that every round carries on to the next index
holds behind the last. -/
theorem yields_forRange {body : ℕ → Exec σ Unit} (I : ℕ → σ → Prop) {n : ℕ} :
    ∀ {i : ℕ} {s : σ}, I i s →
      (∀ k s, i ≤ k → k < i + n → I k s → (body k).Yields s fun _ s' => I (k + 1) s') →
        (forRange body i n).Yields s fun _ s' => I (i + n) s' := by
  induction n with
  | zero =>
    intro i s hI _
    exact yields_pure.mpr hI
  | succ n ih =>
    intro i s hI hbody
    refine yields_bind.mpr ((hbody i s (Nat.le_refl i) (by omega) hI).mono fun _ s' hI' => ?_)
    have hrest := ih hI' fun k s hk hlt => hbody k s (by omega) (by omega)
    rwa [Nat.add_right_comm] at hrest

end Exec
