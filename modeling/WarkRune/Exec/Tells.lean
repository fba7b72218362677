import WarkRune.Exec.Traced

/-!
# The order of the events

Within a step budget a traced program has told some events, in order, and it has returned or not.
A postcondition on both is followed through the text of the program; of a part that tells nothing
only the result matters.

## Main definitions

* `Traced.Tells m n s T`: within the budget `n`, the events and the result of `m` from `s` satisfy
  `T`

## Main results

* `Traced.Tells.bind`, `Traced.Tells.lift`: the rules of a sequence and of a silent part
-/

namespace Traced

variable {σ ε α β : Type} {n : ℕ} {s : σ}

/-- Within the budget, what the program has told from `s`, and its result if it has one, satisfy
`T`. -/
def Tells (m : Traced σ ε α) (n : ℕ) (s : σ) (T : List ε → Option (α × σ) → Prop) : Prop :=
  T (m.run n s).1 (m.run n s).2

namespace Tells

variable {T : List ε → Option (β × σ) → Prop}

/-- What follows a part: nothing when the part has not returned, else the rest. -/
def Then (f : α → Traced σ ε β) (n : ℕ) (T : List ε → Option (β × σ) → Prop) (es : List ε)
    (r : Option (α × σ)) : Prop :=
  match r with
  | none => T es none
  | some p => (f p.1).Tells n p.2 fun es' r' => T (es ++ es') r'

theorem then_some {f : α → Traced σ ε β} {es : List ε} {p : α × σ} :
    Then f n T es (some p) ↔ (f p.1).Tells n p.2 fun es' r => T (es ++ es') r := Iff.rfl

/-- **A part and then the rest**, which starts from where the part ends, if it does. -/
theorem bind {m : Traced σ ε α} {f : α → Traced σ ε β} (h : m.Tells n s (Then f n T)) :
    (m >>= f).Tells n s T := by
  change T (Progress.andThen (m.run n s) _).1 (Progress.andThen (m.run n s) _).2
  unfold Tells at h
  rcases hr : m.run n s with ⟨es, _ | p⟩
  · rw [hr] at h
    exact h
  · rw [hr] at h
    exact h

/-- A silent program tells nothing. -/
theorem lift {m : Exec σ β} (hnone : T [] none) (h : ∀ a s', m.Returns s a s' → T [] (some (a, s'))) :
    (Traced.lift m : Traced σ ε β).Tells n s T := by
  change T [] (m.run n s)
  cases hr : m.run n s with
  | none => exact hnone
  | some p => exact h p.1 p.2 ⟨n, hr⟩

theorem lift_bind {m : Exec σ α} {f : α → Traced σ ε β} (hnone : T [] none)
    (h : ∀ a s', m.Returns s a s' → (f a).Tells n s' T) :
    ((Traced.lift m : Traced σ ε α) >>= f).Tells n s T :=
  bind (lift hnone h)

theorem emit_bind {e : ε} {f : Unit → Traced σ ε β}
    (h : (f ()).Tells n s fun es r => T (e :: es) r) : (Traced.emit e >>= f).Tells n s T := h

theorem modify_bind {g : σ → σ} {f : PUnit → Traced σ ε β} (h : (f ⟨⟩).Tells n (g s) T) :
    ((modify g : Traced σ ε PUnit) >>= f).Tells n s T := h

/-- A choice tells what the branch tells that is taken. -/
theorem ite {c : Prop} [Decidable c] {m k : Traced σ ε β} (hm : c → m.Tells n s T)
    (hk : ¬ c → k.Tells n s T) : (if c then m else k).Tells n s T := by
  split
  · exact hm ‹_›
  · exact hk ‹_›

end Tells

end Traced
