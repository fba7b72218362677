import WarkRune.Exec.Yields

/-!
# Programs on a part of the state

A program over `τ` runs on a larger state that has a `τ` as a part: it starts from the part, and
the part is put back as the program leaves it. The rest of the state is not touched.

## Main definitions

* `StatePart σ τ`: a part of the states `σ`
* `StatePart.Lawful`: what is put back is read again
* `StatePart.whole`: the whole state
* `Exec.on`: a program on a part of the state

## Main results

* `Exec.returns_on`, `Exec.yields_on`: the results of a program on a part
-/

/-- A part of the states `σ`: how it is read and how it is put back. -/
structure StatePart (σ τ : Type) where
  get : σ → τ
  put : τ → σ → σ

namespace StatePart

/-- What is put back is read again. -/
def Lawful {σ τ : Type} (p : StatePart σ τ) : Prop := ∀ t s, p.get (p.put t s) = t

/-- The whole state. -/
def whole (σ : Type) : StatePart σ σ := ⟨id, fun t _ => t⟩

theorem lawful_whole (σ : Type) : (whole σ).Lawful := fun _ _ => rfl

end StatePart

namespace Exec

variable {σ τ α : Type} {p : StatePart σ τ} {m : Exec τ α} {s : σ}

/-- The program on a part of the state. -/
def on (p : StatePart σ τ) (m : Exec τ α) : Exec σ α :=
  ⟨fun n s => (m.run n (p.get s)).map fun r => (r.1, p.put r.2 s), by
    intro n k s r hnk h
    obtain ⟨q, hq, rfl⟩ := Option.map_eq_some_iff.mp h
    exact Option.map_eq_some_iff.mpr ⟨q, m.mono hnk hq, rfl⟩⟩

/-- **What a program on a part returns** is what it returns from the part. -/
@[simp] theorem returns_on {a : α} {s' : σ} :
    (m.on p).Returns s a s' ↔ ∃ t, m.Returns (p.get s) a t ∧ s' = p.put t s := by
  constructor
  · rintro ⟨n, hn⟩
    obtain ⟨⟨b, t⟩, hq, heq⟩ := Option.map_eq_some_iff.mp hn
    simp only [Prod.mk.injEq] at heq
    obtain ⟨rfl, rfl⟩ := heq
    exact ⟨t, ⟨n, hq⟩, rfl⟩
  · rintro ⟨t, ⟨n, hn⟩, rfl⟩
    exact ⟨n, Option.map_eq_some_iff.mpr ⟨(a, t), hn, rfl⟩⟩

@[simp] theorem yields_on {P : α → σ → Prop} :
    (m.on p).Yields s P ↔ m.Yields (p.get s) fun a t => P a (p.put t s) := by
  constructor
  · rintro ⟨a, s', hr, hP⟩
    obtain ⟨t, ht, rfl⟩ := returns_on.mp hr
    exact ⟨a, t, ht, hP⟩
  · rintro ⟨a, t, ht, hP⟩
    exact ⟨a, p.put t s, returns_on.mpr ⟨t, ht, rfl⟩, hP⟩

end Exec
