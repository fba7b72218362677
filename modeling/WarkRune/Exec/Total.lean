import WarkRune.Exec.StatePart

/-!
# Programs that return from every state

A program without unbounded loops returns from every state, whatever its steps read there. The
rules follow the programs.

## Main definitions

* `Exec.Total m`: the program `m` returns from every state

## Main results

* `Exec.Total.bind`, `Exec.Total.ite`, `Exec.Total.loop`, `Exec.Total.on`: the rules
-/

namespace Exec

variable {σ τ α β : Type}

/-- The program returns from every state. -/
def Total (m : Exec σ α) : Prop := ∀ s, m.Halts s

namespace Total

theorem pure (a : α) : Total (Pure.pure a : Exec σ α) := fun s => Halts.pure a s

theorem get : Total (MonadState.get : Exec σ σ) := fun s => ⟨s, s, returns_get.mpr ⟨rfl, rfl⟩⟩

theorem set (t : σ) : Total (MonadStateOf.set t : Exec σ PUnit) := fun _ =>
  ⟨(), t, returns_set.mpr rfl⟩

theorem modify (f : σ → σ) : Total (modify f : Exec σ PUnit) := fun s =>
  ⟨(), f s, returns_modify.mpr rfl⟩

theorem bind {m : Exec σ α} {f : α → Exec σ β} (hm : Total m) (hf : ∀ a, Total (f a)) :
    Total (m >>= f) := fun s => (hm s).bind fun a s' _ => hf a s'

theorem ite {c : Prop} [Decidable c] {m k : Exec σ α} (hm : Total m) (hk : Total k) :
    Total (if c then m else k) := by
  split
  · exact hm
  · exact hk

theorem forUntil {body : ℕ → Exec σ (Option α)} (hb : ∀ i, Total (body i)) :
    ∀ n i, Total (Exec.forUntil body i n)
  | 0, _ => pure _
  | n + 1, i => by
    refine (hb i).bind fun r => ?_
    cases r with
    | none => exact forUntil hb n (i + 1)
    | some a => exact pure _

theorem forRange {body : ℕ → Exec σ Unit} (hb : ∀ i, Total (body i)) :
    ∀ n i, Total (Exec.forRange body i n)
  | 0, _ => pure _
  | n + 1, i => (hb i).bind fun _ => forRange hb n (i + 1)

/-- A loop whose rounds decrease a measure. -/
theorem loop {body : β → Exec σ (β ⊕ α)} (μ : β → ℕ) (hb : ∀ b, Total (body b))
    (hlt : ∀ b s b' s', (body b).Returns s (.inl b') s' → μ b' < μ b) (b : β) :
    Total (Exec.loop body b) := fun s =>
  .loop (I := fun _ => True) μ (fun b s _ => hb b s)
    (fun b s b' s' _ h => ⟨trivial, hlt b s b' s' h⟩) b s trivial

/-- A program on a part of the state. -/
theorem on {p : StatePart σ τ} {m : Exec τ α} (hm : Total m) : Total (m.on p) := by
  intro s
  obtain ⟨a, t, h⟩ := hm (p.get s)
  exact ⟨a, p.put t s, returns_on.mpr ⟨t, h, rfl⟩⟩

end Total

end Exec
