import WarkRune.Exec.Basic

/-!
# Programs that compute a step of an abstraction

A program over a concrete state computes a step of an abstraction when, from every concrete
state that satisfies an invariant and shows the abstract state `t`, it returns one value and
leaves a state that satisfies the invariant and shows one abstract state. What the abstraction
hides (a buffer, a log) may differ from run to run.

## Main definitions

* `Exec.Computes abs I m t a t'`: over `abs`, the program `m` takes `t` to `t'` and returns `a`

## Main results

* `Exec.Computes.bind`, `Exec.Computes.loop_next`, `Exec.Computes.forUntil_find`: the rules
* `Exec.Computes.coarsen`: a coarser abstraction
* `Exec.Computes.eq_of_returns`: what a run returns is what the program computes
-/

namespace Exec

variable {σ τ α β : Type} {abs : σ → τ} {I : σ → Prop}

/-- Over `abs` and `I`, the program `m` takes the abstract state `t` to `t'` and returns `a`. -/
def Computes (abs : σ → τ) (I : σ → Prop) (m : Exec σ α) (t : τ) (a : α) (t' : τ) : Prop :=
  ∀ s, I s → abs s = t → ∃ s', m.Returns s a s' ∧ abs s' = t' ∧ I s'

namespace Computes

theorem pure (a : α) (t : τ) : Computes abs I (Pure.pure a) t a t :=
  fun s hI hs => ⟨s, returns_pure.mpr ⟨rfl, rfl⟩, hs, hI⟩

theorem bind {m : Exec σ α} {f : α → Exec σ β} {t t₁ t₂ : τ} {a : α} {b : β}
    (hm : Computes abs I m t a t₁) (hf : Computes abs I (f a) t₁ b t₂) :
    Computes abs I (m >>= f) t b t₂ := by
  intro s hI hs
  obtain ⟨s₁, hr₁, hs₁, hI₁⟩ := hm s hI hs
  obtain ⟨s₂, hr₂, hs₂, hI₂⟩ := hf s₁ hI₁ hs₁
  exact ⟨s₂, returns_bind.mpr ⟨a, s₁, hr₁, hr₂⟩, hs₂, hI₂⟩

theorem ite {c : Prop} [Decidable c] {m k : Exec σ α} {t t' : τ} {a : α}
    (hm : c → Computes abs I m t a t') (hk : ¬ c → Computes abs I k t a t') :
    Computes abs I (if c then m else k) t a t' := by
  split
  · exact hm ‹_›
  · exact hk ‹_›

theorem loop_done {body : β → Exec σ (β ⊕ α)} {b : β} {t t' : τ} {a : α}
    (h : Computes abs I (body b) t (.inr a) t') : Computes abs I (loop body b) t a t' := by
  intro s hI hs
  obtain ⟨s', hr, hs', hI'⟩ := h s hI hs
  exact ⟨s', hr.loop_done, hs', hI'⟩

theorem loop_next {body : β → Exec σ (β ⊕ α)} {b : β} {t t' : τ} {a : α} (b' : β) (t₁ : τ)
    (h : Computes abs I (body b) t (.inl b') t₁) (hl : Computes abs I (loop body b') t₁ a t') :
    Computes abs I (loop body b) t a t' := by
  intro s hI hs
  obtain ⟨s₁, hr₁, hs₁, hI₁⟩ := h s hI hs
  obtain ⟨s₂, hr₂, hs₂, hI₂⟩ := hl s₁ hI₁ hs₁
  exact ⟨s₂, hr₁.loop_next hr₂, hs₂, hI₂⟩

theorem forUntil_zero (body : ℕ → Exec σ (Option α)) (i : ℕ) (t : τ) :
    Computes abs I (forUntil body i 0) t none t :=
  pure none t

theorem forUntil_done {body : ℕ → Exec σ (Option α)} {i n : ℕ} {t t' : τ} {a : α}
    (h : Computes abs I (body i) t (some a) t') :
    Computes abs I (forUntil body i (n + 1)) t (some a) t' :=
  h.bind (pure _ _)

theorem forUntil_next {body : ℕ → Exec σ (Option α)} {i n : ℕ} {t t₁ t' : τ} {r : Option α}
    (h : Computes abs I (body i) t none t₁)
    (hl : Computes abs I (forUntil body (i + 1) n) t₁ r t') :
    Computes abs I (forUntil body i (n + 1)) t r t' :=
  h.bind hl

/-- A counted loop whose rounds leave the abstract state alone answers what its first answering
round answers. -/
theorem forUntil_find {body : ℕ → Exec σ (Option α)} {t : τ} (f : ℕ → Option α)
    (h : ∀ i, Computes abs I (body i) t (f i) t) :
    ∀ n i, Computes abs I (forUntil body i n) t ((List.range' i n).findSome? f) t
  | 0, i => forUntil_zero body i t
  | n + 1, i => by
    rw [List.range'_succ, List.findSome?_cons]
    cases hf : f i with
    | none => exact forUntil_next (hf ▸ h i) (forUntil_find f h n (i + 1))
    | some a => exact forUntil_done (hf ▸ h i)

theorem forRange {body : ℕ → Exec σ Unit} (f : ℕ → τ) {i : ℕ} :
    ∀ {n : ℕ}, (∀ k < n, Computes abs I (body (i + k)) (f k) () (f (k + 1))) →
      Computes abs I (forRange body i n) (f 0) () (f n)
  | 0, _ => pure _ _
  | n + 1, h => by
    refine bind (h 0 (by omega)) ?_
    have hn := forRange (fun k => f (k + 1)) (i := i + 1) (n := n) fun k hk => by
      have hk' := h (k + 1) (by omega)
      rwa [← Nat.add_assoc, Nat.add_right_comm] at hk'
    exact hn

/-- A step computed over a finer abstraction is computed over a coarser one. -/
theorem coarsen {τ' : Type} (abs : σ → τ) (p : τ → τ') {m : Exec σ α} {u u' : τ'} {a : α}
    (h : ∀ t, p t = u → ∃ t', p t' = u' ∧ Computes abs I m t a t') :
    Computes (fun s => p (abs s)) I m u a u' := by
  intro s hI hs
  obtain ⟨t', ht', hm⟩ := h (abs s) hs
  obtain ⟨s', hr, hs', hI'⟩ := hm s hI rfl
  exact ⟨s', hr, (congrArg p hs').trans ht', hI'⟩

/-- What a run returns is what the program computes. -/
theorem eq_of_returns {m : Exec σ α} {t t' : τ} {a b : α} {s s' : σ}
    (h : Computes abs I m t a t') (hI : I s) (hs : abs s = t) (hr : m.Returns s b s') :
    b = a ∧ abs s' = t' ∧ I s' := by
  obtain ⟨s₁, hr₁, hs₁, hI₁⟩ := h s hI hs
  obtain ⟨rfl, rfl⟩ := hr.det hr₁
  exact ⟨rfl, hs₁, hI₁⟩

theorem halts {m : Exec σ α} {t t' : τ} {a : α} {s : σ} (h : Computes abs I m t a t') (hI : I s)
    (hs : abs s = t) : m.Halts s := by
  obtain ⟨s', hr, -⟩ := h s hI hs
  exact hr.halts

end Computes

end Exec
