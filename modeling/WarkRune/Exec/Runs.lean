import WarkRune.Exec.Traced
import WarkRune.Exec.Yields

/-!
# Total correctness of programs that leave a trace

A traced program runs well from a state when it emits allowed events only, and returns a result and
a state that satisfy a postcondition. The rules follow the programs as those of `Exec.Yields` do.

## Main definitions

* `Traced.Runs m s Q P`: from `s`, the program `m` emits events that satisfy `Q` only, and returns a
  result and a state that satisfy `P`

## Main results

* `Traced.runs_bind`, `Traced.Runs.ite`, `Traced.Runs.loop`: the rules of a sequence, a choice and a
  loop
-/

namespace Traced

variable {σ ε α β : Type} {s : σ} {Q : ε → Prop}

/-- From `s`, the program emits events that satisfy `Q` only, and returns a result and a state that
satisfy `P`. -/
def Runs (m : Traced σ ε α) (s : σ) (Q : ε → Prop) (P : α → σ → Prop) : Prop :=
  m.Within s Q ∧ m.erase.Yields s P

variable {m : Traced σ ε α}

theorem Runs.mono {P P' : α → σ → Prop} (h : m.Runs s Q P) (hP : ∀ a s', P a s' → P' a s') :
    m.Runs s Q P' :=
  ⟨h.1, h.2.mono hP⟩

@[simp] theorem runs_pure {a : α} {P : α → σ → Prop} :
    (pure a : Traced σ ε α).Runs s Q P ↔ P a s :=
  ⟨fun h => Exec.yields_pure.mp h.2, fun h => ⟨.pure a, Exec.yields_pure.mpr h⟩⟩

@[simp] theorem runs_emit {e : ε} {P : Unit → σ → Prop} :
    (emit e : Traced σ ε Unit).Runs s Q P ↔ Q e ∧ P () s :=
  ⟨fun h => ⟨h.1 e (emits_emit.mpr rfl), Exec.yields_pure.mp h.2⟩,
    fun h => ⟨.emit h.1, Exec.yields_pure.mpr h.2⟩⟩

@[simp] theorem runs_get {P : σ → σ → Prop} : (get : Traced σ ε σ).Runs s Q P ↔ P s s :=
  ⟨fun h => Exec.yields_get.mp h.2, fun h => ⟨.lift _, Exec.yields_get.mpr h⟩⟩

@[simp] theorem runs_modify {f : σ → σ} {P : PUnit → σ → Prop} :
    (modify f : Traced σ ε PUnit).Runs s Q P ↔ P () (f s) :=
  ⟨fun h => Exec.yields_modify.mp h.2, fun h => ⟨.lift _, Exec.yields_modify.mpr h⟩⟩

/-- **A sequence runs well** when its second part does from where its first part ends. -/
@[simp] theorem runs_bind {f : α → Traced σ ε β} {P : β → σ → Prop} :
    (m >>= f).Runs s Q P ↔ m.Runs s Q fun a s' => (f a).Runs s' Q P := by
  constructor
  · rintro ⟨hw, b, s₂, hr, hP⟩
    rw [erase_bind, Exec.returns_bind] at hr
    obtain ⟨a, s₁, hm, hf⟩ := hr
    refine ⟨fun e he => hw e (emits_bind.mpr (.inl he)), a, s₁, hm, ?_, b, s₂, hf, hP⟩
    exact fun e he => hw e (emits_bind.mpr (.inr ⟨a, s₁, hm, he⟩))
  · rintro ⟨hw, a, s₁, hr, hf, hy⟩
    refine ⟨hw.bind fun a' s' hr' => ?_, ?_⟩
    · obtain ⟨rfl, rfl⟩ := hr.det hr'
      exact hf
    · rw [erase_bind, Exec.yields_bind]
      exact ⟨a, s₁, hr, hy⟩

/-- A choice runs well when the branch does that is taken. -/
theorem Runs.ite {c : Prop} [Decidable c] {k : Traced σ ε α} {P : α → σ → Prop}
    (hm : c → m.Runs s Q P) (hk : ¬ c → k.Runs s Q P) : (if c then m else k).Runs s Q P := by
  split
  · exact hm ‹_›
  · exact hk ‹_›

/-- What follows the round of a loop: its answer, or the loop from where it left off. -/
def Resumes (body : β → Traced σ ε (β ⊕ α)) (Q : ε → Prop) (P : α → σ → Prop) (x : β ⊕ α)
    (s : σ) : Prop :=
  match x with
  | .inl b => (Traced.loop body b).Runs s Q P
  | .inr a => P a s

@[simp] theorem resumes_inl {body : β → Traced σ ε (β ⊕ α)} {P : α → σ → Prop} {b : β} :
    Resumes body Q P (.inl b) s ↔ (loop body b).Runs s Q P := Iff.rfl

@[simp] theorem resumes_inr {body : β → Traced σ ε (β ⊕ α)} {P : α → σ → Prop} {a : α} :
    Resumes body Q P (.inr a) s ↔ P a s := Iff.rfl

/-- **A loop runs well** when its first round does, and the loop from where that goes on. -/
theorem Runs.loop {body : β → Traced σ ε (β ⊕ α)} {b : β} {P : α → σ → Prop}
    (h : (body b).Runs s Q (Resumes body Q P)) : (Traced.loop body b).Runs s Q P := by
  obtain ⟨hw, x, s₁, hr, hres⟩ := h
  refine ⟨fun e he => ?_, ?_⟩
  · rcases emits_loop.mp he with h | ⟨b', s', hr', h⟩
    · exact hw e h
    · obtain ⟨rfl, rfl⟩ := hr.det hr'
      exact hres.1 e h
  · rw [erase_loop]
    refine Exec.yields_loop.mpr ⟨x, s₁, hr, ?_⟩
    cases x with
    | inl b' =>
      rw [Exec.resumes_inl, ← erase_loop]
      exact hres.2
    | inr a => exact hres

end Traced
