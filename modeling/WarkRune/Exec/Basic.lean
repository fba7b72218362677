import Mathlib.Algebra.Group.Int.Defs
import Mathlib.Algebra.Group.Nat.Defs
import Mathlib.Data.Nat.Basic
import Mathlib.Order.Basic

/-!
# Deterministic programs that may run for ever

A program over a state `σ` returns a value and a state, or runs for ever. It is presented by
its runs at every step budget: a budget that suffices returns the same result at every larger
budget, and a program that no budget suffices for diverges. The budget is spent by `loop`
only, so it never shows in a program's text.

## Main definitions

* `Exec σ α`: programs over the state `σ` returning an `α`
* `Exec.loop`, `Exec.forUntil`: the unbounded loop and the counted loop
* `Exec.Returns m s a s'`: from `s`, the program `m` returns `a` in the state `s'`
* `Exec.Halts m s`: from `s`, the program `m` returns

## Main results

* `Exec.Returns.det`: a program returns at most one result
* `Exec.returns_bind`, `Exec.returns_loop`: the result of a sequence and of a loop
* `Exec.Returns.loop_induct`: induction over the rounds of a loop
* `Exec.Halts.loop`, `Exec.not_halts_loop`: a measure ends a loop, and an invariant may keep it going
-/

/-- A program over the state `σ`: its result at every step budget. -/
@[ext] structure Exec (σ α : Type) where
  /-- The result within a step budget, `none` when the budget does not suffice. -/
  run : ℕ → σ → Option (α × σ)
  /-- A larger budget gives the same result. -/
  mono : ∀ {n m : ℕ} {s : σ} {r : α × σ}, n ≤ m → run n s = some r → run m s = some r

namespace Exec

variable {σ α β γ : Type}

instance : Monad (Exec σ) where
  pure a := ⟨fun _ s => some (a, s), fun _ h => h⟩
  bind m f :=
    ⟨fun n s => (m.run n s).bind fun p => (f p.1).run n p.2, by
      intro n k s r hnk h
      obtain ⟨p, hp, hr⟩ := Option.bind_eq_some_iff.mp h
      exact Option.bind_eq_some_iff.mpr ⟨p, m.mono hnk hp, (f p.1).mono hnk hr⟩⟩

instance : LawfulMonad (Exec σ) :=
  LawfulMonad.mk' _
    (fun x => Exec.ext (funext fun _ => funext fun _ => Option.bind_fun_some _))
    (fun _ _ => rfl)
    (fun _ _ _ => Exec.ext (funext fun _ => funext fun _ => Option.bind_assoc _ _ _))

instance : MonadStateOf σ (Exec σ) where
  get := ⟨fun _ s => some (s, s), fun _ h => h⟩
  set s' := ⟨fun _ _ => some ((), s'), fun _ h => h⟩
  modifyGet f := ⟨fun _ s => some (f s), fun _ h => h⟩

/-! ## Loops -/

/-- At most `k` rounds of a loop, each within the budget `n`. -/
def rounds (body : β → Exec σ (β ⊕ α)) (n : ℕ) : ℕ → β → σ → Option (α × σ)
  | 0, _, _ => none
  | k + 1, b, s =>
    match (body b).run n s with
    | none => none
    | some (.inr a, s') => some (a, s')
    | some (.inl b', s') => rounds body n k b' s'

theorem rounds_mono {body : β → Exec σ (β ⊕ α)} {n m : ℕ} (hnm : n ≤ m) {r : α × σ} :
    ∀ {k j : ℕ} {b : β} {s : σ}, k ≤ j → rounds body n k b s = some r →
      rounds body m j b s = some r
  | 0, _, _, _, _, h => by simp [rounds] at h
  | k + 1, 0, _, _, hkj, _ => absurd hkj (by omega)
  | k + 1, j + 1, b, s, hkj, h => by
    simp only [rounds] at h ⊢
    cases hb : (body b).run n s with
    | none => simp [hb] at h
    | some p =>
      rw [(body b).mono hnm hb]
      rw [hb] at h
      rcases p with ⟨b' | a, s'⟩
      · exact rounds_mono hnm (by omega) h
      · exact h

/-- The unbounded loop: a round continues with `inl` and leaves with `inr`. -/
def loop (body : β → Exec σ (β ⊕ α)) (b : β) : Exec σ α :=
  ⟨fun n s => rounds body n n b s, fun hnm h => rounds_mono hnm hnm h⟩

/-- The loop over `i, i + 1, …` for at most `n` rounds, left by the first round that answers. -/
def forUntil (body : ℕ → Exec σ (Option α)) : ℕ → ℕ → Exec σ (Option α)
  | _, 0 => pure none
  | i, n + 1 => do
    match ← body i with
    | some a => return some a
    | none => forUntil body (i + 1) n

/-- The loop over `i, i + 1, …` for `n` rounds. -/
def forRange (body : ℕ → Exec σ Unit) : ℕ → ℕ → Exec σ Unit
  | _, 0 => pure ()
  | i, n + 1 => do
    body i
    forRange body (i + 1) n

/-! ## Results -/

/-- From `s`, the program `m` returns `a` in the state `s'`. -/
def Returns (m : Exec σ α) (s : σ) (a : α) (s' : σ) : Prop :=
  ∃ n, m.run n s = some (a, s')

/-- From `s`, the program `m` returns. -/
def Halts (m : Exec σ α) (s : σ) : Prop :=
  ∃ a s', m.Returns s a s'

theorem Returns.halts {m : Exec σ α} {s : σ} {a : α} {s' : σ} (h : m.Returns s a s') :
    m.Halts s :=
  ⟨a, s', h⟩

/-- **A program is deterministic**: it returns at most one result. -/
theorem Returns.det {m : Exec σ α} {s : σ} {a b : α} {s₁ s₂ : σ} (h₁ : m.Returns s a s₁)
    (h₂ : m.Returns s b s₂) : a = b ∧ s₁ = s₂ := by
  obtain ⟨n, hn⟩ := h₁
  obtain ⟨k, hk⟩ := h₂
  have hn' := m.mono (le_max_left n k) hn
  have hk' := m.mono (le_max_right n k) hk
  rw [hn'] at hk'
  simpa using hk'

@[simp] theorem run_pure (n : ℕ) (a : α) (s : σ) : (pure a : Exec σ α).run n s = some (a, s) := rfl

@[simp] theorem run_bind (n : ℕ) (m : Exec σ α) (f : α → Exec σ β) (s : σ) :
    (m >>= f).run n s = (m.run n s).bind fun p => (f p.1).run n p.2 := rfl

@[simp] theorem run_get (n : ℕ) (s : σ) : (get : Exec σ σ).run n s = some (s, s) := rfl

@[simp] theorem run_set (n : ℕ) (s s' : σ) : (set s' : Exec σ PUnit).run n s = some ((), s') := rfl

@[simp] theorem run_modify (n : ℕ) (f : σ → σ) (s : σ) :
    (modify f : Exec σ PUnit).run n s = some ((), f s) := rfl

@[simp] theorem returns_pure {a b : α} {s s' : σ} :
    (pure a : Exec σ α).Returns s b s' ↔ b = a ∧ s' = s := by
  simp [Returns, eq_comm]

@[simp] theorem returns_get {a s s' : σ} :
    (get : Exec σ σ).Returns s a s' ↔ a = s ∧ s' = s := by
  simp [Returns, eq_comm]

@[simp] theorem returns_set {s s' s₁ : σ} {u : PUnit} :
    (set s₁ : Exec σ PUnit).Returns s u s' ↔ s' = s₁ := by
  simp [Returns, eq_comm]

@[simp] theorem returns_modify {f : σ → σ} {s s' : σ} {u : PUnit} :
    (modify f : Exec σ PUnit).Returns s u s' ↔ s' = f s := by
  simp [Returns, eq_comm]

/-- **The result of a sequence** is the result of its second part after its first. -/
@[simp] theorem returns_bind {m : Exec σ α} {f : α → Exec σ β} {s : σ} {b : β} {s' : σ} :
    (m >>= f).Returns s b s' ↔ ∃ a s₁, m.Returns s a s₁ ∧ (f a).Returns s₁ b s' := by
  constructor
  · rintro ⟨n, hn⟩
    rw [run_bind] at hn
    obtain ⟨⟨a, s₁⟩, hp, hr⟩ := Option.bind_eq_some_iff.mp hn
    exact ⟨a, s₁, ⟨n, hp⟩, ⟨n, hr⟩⟩
  · rintro ⟨a, s₁, ⟨n, hn⟩, ⟨k, hk⟩⟩
    refine ⟨max n k, ?_⟩
    rw [run_bind, m.mono (le_max_left n k) hn]
    exact (f a).mono (le_max_right n k) hk

@[simp] theorem returns_map {m : Exec σ α} {f : α → β} {s : σ} {b : β} {s' : σ} :
    (f <$> m).Returns s b s' ↔ ∃ a, m.Returns s a s' ∧ b = f a := by
  rw [← bind_pure_comp, returns_bind]
  simp only [returns_pure]
  exact ⟨fun ⟨a, s₁, h, hb, hs⟩ => ⟨a, hs ▸ h, hb⟩, fun ⟨a, h, hb⟩ => ⟨a, s', h, hb, rfl⟩⟩

theorem returns_rounds {body : β → Exec σ (β ⊕ α)} {a : α} {s' : σ} :
    ∀ {n k : ℕ} {b : β} {s : σ}, rounds body n k b s = some (a, s') →
      ∃ x s₁, (body b).Returns s x s₁ ∧
        (x = .inr a ∧ s' = s₁ ∨ ∃ b', x = .inl b' ∧ (loop body b').Returns s₁ a s')
  | _, 0, _, _, h => by simp [rounds] at h
  | n, k + 1, b, s, h => by
    simp only [rounds] at h
    cases hb : (body b).run n s with
    | none => simp [hb] at h
    | some p =>
      rcases p with ⟨b' | a', s₁⟩
      · rw [hb] at h
        refine ⟨.inl b', s₁, ⟨n, hb⟩, .inr ⟨b', rfl, max n k, ?_⟩⟩
        exact rounds_mono (le_max_left n k) (le_max_right n k) h
      · rw [hb] at h
        simp only [Option.some.injEq, Prod.mk.injEq] at h
        exact ⟨.inr a', s₁, ⟨n, hb⟩, .inl ⟨by rw [h.1], h.2.symm⟩⟩

/-- **The result of a loop** is the answer of its first round, or the result of the loop from
where that round left off. -/
theorem returns_loop {body : β → Exec σ (β ⊕ α)} {b : β} {s : σ} {a : α} {s' : σ} :
    (loop body b).Returns s a s' ↔
      ∃ x s₁, (body b).Returns s x s₁ ∧
        (x = .inr a ∧ s' = s₁ ∨ ∃ b', x = .inl b' ∧ (loop body b').Returns s₁ a s') := by
  constructor
  · rintro ⟨n, hn⟩
    exact returns_rounds hn
  · rintro ⟨x, s₁, ⟨n, hn⟩, ⟨rfl, rfl⟩ | ⟨b', rfl, k, hk⟩⟩
    · refine ⟨n + 1, ?_⟩
      simp [loop, rounds, (body b).mono (Nat.le_succ n) hn]
    · refine ⟨max n k + 1, ?_⟩
      have hb := (body b).mono (le_trans (le_max_left n k) (Nat.le_succ _)) hn
      simp only [loop, rounds, hb]
      exact rounds_mono (le_trans (le_max_right n k) (Nat.le_succ _)) (le_max_right n k) hk

/-- A round that answers ends the loop. -/
theorem Returns.loop_done {body : β → Exec σ (β ⊕ α)} {b : β} {s : σ} {a : α} {s' : σ}
    (h : (body b).Returns s (.inr a) s') : (loop body b).Returns s a s' :=
  returns_loop.mpr ⟨_, _, h, .inl ⟨rfl, rfl⟩⟩

/-- A round that continues hands over to the loop. -/
theorem Returns.loop_next {body : β → Exec σ (β ⊕ α)} {b b' : β} {s s₁ : σ} {a : α} {s' : σ}
    (h : (body b).Returns s (.inl b') s₁) (hl : (loop body b').Returns s₁ a s') :
    (loop body b).Returns s a s' :=
  returns_loop.mpr ⟨_, _, h, .inr ⟨b', rfl, hl⟩⟩

/-- Induction over the rounds of a loop that returned. -/
theorem Returns.loop_induct {body : β → Exec σ (β ⊕ α)} {P : β → σ → α → σ → Prop}
    (hdone : ∀ b s a s', (body b).Returns s (.inr a) s' → P b s a s')
    (hnext : ∀ b s b' s₁ a s', (body b).Returns s (.inl b') s₁ → P b' s₁ a s' → P b s a s')
    {b : β} {s : σ} {a : α} {s' : σ} (h : (loop body b).Returns s a s') : P b s a s' := by
  obtain ⟨n, hn⟩ := h
  have hrounds : ∀ k b s, rounds body n k b s = some (a, s') → P b s a s' := by
    intro k
    induction k with
    | zero => intro b s h; simp [rounds] at h
    | succ k ih =>
      intro b s h
      simp only [rounds] at h
      cases hr : (body b).run n s with
      | none => simp [hr] at h
      | some p =>
        rw [hr] at h
        rcases p with ⟨b' | a', s₁⟩
        · exact hnext b s b' s₁ a s' ⟨n, hr⟩ (ih b' s₁ h)
        · simp only [Option.some.injEq, Prod.mk.injEq] at h
          obtain ⟨rfl, rfl⟩ := h
          exact hdone b s a' s₁ ⟨n, hr⟩
  exact hrounds n b s hn

/-- A loop with an invariant under which every round continues never returns. -/
theorem not_halts_loop {body : β → Exec σ (β ⊕ α)} {I : β → σ → Prop}
    (hround : ∀ b s, I b s → ∃ b' s', (body b).Returns s (.inl b') s' ∧ I b' s') {b : β} {s : σ}
    (h : I b s) : ¬ (loop body b).Halts s := by
  rintro ⟨a, s', hr⟩
  refine Returns.loop_induct (P := fun b s _ _ => ¬ I b s) ?_ ?_ hr h
  · intro b s a s' hdone hi
    obtain ⟨b', s₁, hnext, -⟩ := hround b s hi
    cases (hdone.det hnext).1
  · intro b s b' s₁ a s' hnext ih hi
    obtain ⟨b₁, s₂, hnext', hi'⟩ := hround b s hi
    obtain ⟨hb, rfl⟩ := hnext.det hnext'
    cases hb
    exact ih hi'

/-- A loop returns when its rounds do, as long as they keep an invariant and decrease a measure. -/
theorem Halts.loop {body : β → Exec σ (β ⊕ α)} {I : σ → Prop} (μ : β → ℕ)
    (hround : ∀ b s, I s → (body b).Halts s)
    (hnext : ∀ b s b' s', I s → (body b).Returns s (.inl b') s' → I s' ∧ μ b' < μ b) (b : β) (s : σ)
    (h : I s) : (loop body b).Halts s := by
  induction hn : μ b using Nat.strong_induction_on generalizing b s with
  | _ n ih =>
    obtain ⟨x, s₁, hr⟩ := hround b s h
    rcases x with b' | a
    · obtain ⟨hi, hlt⟩ := hnext b s b' s₁ h hr
      obtain ⟨a, s', hl⟩ := ih _ (hn ▸ hlt) b' s₁ hi rfl
      exact ⟨a, s', hr.loop_next hl⟩
    · exact ⟨a, s₁, hr.loop_done⟩

theorem Halts.pure (a : α) (s : σ) : (Pure.pure a : Exec σ α).Halts s :=
  ⟨a, s, returns_pure.mpr ⟨rfl, rfl⟩⟩

theorem Halts.bind {m : Exec σ α} {f : α → Exec σ β} {s : σ} (h : m.Halts s)
    (hf : ∀ a s', m.Returns s a s' → (f a).Halts s') : (m >>= f).Halts s := by
  obtain ⟨a, s₁, hm⟩ := h
  obtain ⟨b, s₂, hb⟩ := hf a s₁ hm
  exact ⟨b, s₂, returns_bind.mpr ⟨a, s₁, hm, hb⟩⟩

end Exec
