import Mathlib.Algebra.Group.Int.Defs
import Mathlib.Algebra.Group.Nat.Defs
import Mathlib.Logic.Relation

/-!
# Reachability when edges change

What a relation reaches from a root depends on the edges at the nodes it reaches only. Edges are
taken away, or one node without edges of its own is added.

## Main results

* `Links.reach_of_sub`: fewer edges reach fewer nodes
* `Links.reach_of_add`: edges to a leaf reach that leaf in addition
* `Links.reach_without`: without the edges to a leaf, the other nodes are still reached
-/

namespace Links

open Relation (ReflTransGen)

variable {α : Type} {r r' : α → α → Prop} {a c : α}

theorem reach_of_sub (h : ∀ d, ReflTransGen r a d → ∀ x, r' d x → r d x) {d : α}
    (hd : ReflTransGen r' a d) : ReflTransGen r a d := by
  induction hd with
  | refl => exact .refl
  | tail _ hx ih => exact ih.tail (h _ ih _ hx)

/-- More edges reach more nodes. -/
theorem reach_of_sup (h : ∀ d, ReflTransGen r a d → ∀ x, r d x → r' d x) {d : α}
    (hd : ReflTransGen r a d) : ReflTransGen r' a d := by
  induction hd with
  | refl => exact .refl
  | tail hp hx ih => exact ih.tail (h _ hp _ hx)

/-- New edges lead to a leaf only: it is the only node reached in addition. -/
theorem reach_of_add (h : ∀ d, ReflTransGen r a d → ∀ x, r' d x → r d x ∨ x = c)
    (hc : ∀ x, ¬ r' c x) {d : α} (hd : ReflTransGen r' a d) : ReflTransGen r a d ∨ d = c := by
  induction hd with
  | refl => exact .inl .refl
  | @tail d x _ hx ih =>
    rcases ih with ih | rfl
    · exact (h d ih x hx).imp_left ih.tail
    · exact absurd hx (hc x)

/-- The edges to a leaf are taken away: every other node is still reached. -/
theorem reach_without (h : ∀ d, ReflTransGen r a d → ∀ x, r d x → x ≠ c → r' d x)
    (hc : ∀ x, ¬ r c x) {d : α} (hd : ReflTransGen r a d) (hdc : d ≠ c) :
    ReflTransGen r' a d := by
  induction hd with
  | refl => exact .refl
  | @tail d x hd hx ih =>
    have hd' : d ≠ c := by
      rintro rfl
      exact hc x hx
    exact (ih hd').tail (h d hd x hx hdc)

/-- The node a non-root is reached from. -/
theorem exists_edge {d : α} (hd : ReflTransGen r a d) (hda : d ≠ a) :
    ∃ p, ReflTransGen r a p ∧ r p d := by
  cases hd with
  | refl => exact absurd rfl hda
  | tail hp hx => exact ⟨_, hp, hx⟩

end Links
