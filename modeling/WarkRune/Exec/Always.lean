import WarkRune.Exec.Basic

/-!
# Relations every run keeps

A reflexive and transitive relation between states that every primitive step keeps is kept by
every run. The rules follow the programs: a sequence keeps what both of its parts keep, a loop
what its rounds keep.

## Main definitions

* `Exec.Always R m`: every run of `m` relates its first state to its last by `R`

## Main results

* `Exec.Always.bind`, `Exec.Always.loop`, `Exec.Always.forUntil`: the rules
-/

namespace Exec

variable {σ α β : Type} {R : σ → σ → Prop}

/-- Every run of `m` relates its first state to its last by `R`. -/
def Always (R : σ → σ → Prop) (m : Exec σ α) : Prop :=
  ∀ s a s', m.Returns s a s' → R s s'

namespace Always

theorem pure [Std.Refl R] (a : α) : Always R (Pure.pure a : Exec σ α) := by
  intro s b s' h
  obtain ⟨-, rfl⟩ := returns_pure.mp h
  exact refl_of R s'

theorem get [Std.Refl R] : Always R (MonadState.get : Exec σ σ) := by
  intro s b s' h
  obtain ⟨-, rfl⟩ := returns_get.mp h
  exact refl_of R s'

theorem modify {f : σ → σ} (h : ∀ s, R s (f s)) : Always R (modify f : Exec σ PUnit) := by
  intro s b s' hr
  obtain rfl := returns_modify.mp hr
  exact h s

theorem bind [IsTrans σ R] {m : Exec σ α} {f : α → Exec σ β} (hm : Always R m)
    (hf : ∀ a, Always R (f a)) : Always R (m >>= f) := by
  intro s b s' h
  obtain ⟨a, s₁, h₁, h₂⟩ := returns_bind.mp h
  exact trans_of R (hm _ _ _ h₁) (hf a _ _ _ h₂)

theorem ite {c : Prop} [Decidable c] {m k : Exec σ α} (hm : Always R m) (hk : Always R k) :
    Always R (if c then m else k) := by
  split
  · exact hm
  · exact hk

/-- A choice keeps what its branches keep where they are taken. -/
theorem ite_of {c : Prop} [Decidable c] {m k : Exec σ α} (hm : c → Always R m)
    (hk : ¬ c → Always R k) : Always R (if c then m else k) := by
  split
  · exact hm ‹_›
  · exact hk ‹_›

theorem mono {R' : σ → σ → Prop} {m : Exec σ α} (h : ∀ s s', R s s' → R' s s')
    (hm : Always R m) : Always R' m :=
  fun s a s' hr => h s s' (hm s a s' hr)

theorem loop [IsTrans σ R] {body : β → Exec σ (β ⊕ α)} (hb : ∀ b, Always R (body b)) (b : β) :
    Always R (Exec.loop body b) := by
  intro s a s' h
  refine h.loop_induct (P := fun _ s _ s' => R s s') (fun b s a s' hr => hb b _ _ _ hr) ?_
  exact fun b s b' s₁ a s' hr hR => trans_of R (hb b _ _ _ hr) hR

theorem forUntil [Std.Refl R] [IsTrans σ R] {body : ℕ → Exec σ (Option α)}
    (hb : ∀ i, Always R (body i)) : ∀ n i, Always R (Exec.forUntil body i n)
  | 0, _ => pure _
  | n + 1, i => by
    refine (hb i).bind fun r => ?_
    cases r with
    | none => exact forUntil hb n (i + 1)
    | some a => exact pure _

theorem forRange [Std.Refl R] [IsTrans σ R] {body : ℕ → Exec σ Unit}
    (hb : ∀ i, Always R (body i)) : ∀ n i, Always R (Exec.forRange body i n)
  | 0, _ => pure _
  | n + 1, i => (hb i).bind fun _ => forRange hb n (i + 1)

end Always

end Exec
