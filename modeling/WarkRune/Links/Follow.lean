import Mathlib.Algebra.Group.Int.Defs
import Mathlib.Algebra.Group.Nat.Defs
import Mathlib.Tactic.Common

/-!
# Following links

A walk follows links as long as they lead to proper nodes. Nothing is assumed about the links:
they may run into a cycle or into the links of another walk.

## Main definitions

* `Links.Followed next ok a d`: the walk from `a` meets `d`

## Main results

* `Links.followed_iff_of_cut`: what the walk meets once the link of its first node is cut
-/

namespace Links

variable {α : Type} {next next' : α → α} {ok : α → Prop} {a d : α}

/-- The walk from `a` meets the node: links are followed as long as they lead to proper nodes. -/
inductive Followed (next : α → α) (ok : α → Prop) (a : α) : α → Prop
  | start (h : ok a) : Followed next ok a a
  | link {d : α} (hd : Followed next ok a d) (h : ok (next d)) : Followed next ok a (next d)

theorem Followed.ok_start (h : Followed next ok a d) : ok a := by
  induction h with
  | start h => exact h
  | link _ _ ih => exact ih

/-- **Cutting the link of the first node**: the walk meets that node and what the walk from the
second node still meets, and on a cycle the second walk ends at the cut. -/
theorem followed_iff_of_cut (ha : ok a) (hcut : ¬ ok (next' a))
    (hsame : ∀ x, Followed next ok a x → x ≠ a → next' x = next x) :
    Followed next ok a d ↔ d = a ∨ Followed next' ok (next a) d := by
  constructor
  · intro h
    induction h with
    | start _ => exact .inl rfl
    | @link x hx hok ih =>
      by_cases hxa : x = a
      · -- the walk has come back to the first node, and starts again from the second
        subst hxa
        exact .inr (.start hok)
      · have hx' := ih.resolve_left hxa
        have hlink := hsame x hx hxa
        rw [← hlink] at hok ⊢
        exact .inr (.link hx' hok)
  · rintro (rfl | h)
    · exact .start ha
    · induction h with
      | start h => exact .link (.start ha) h
      | @link x _ hok ih =>
        -- the cut node has no proper link, so the walk is not at it
        have hxa : x ≠ a := by
          rintro rfl
          exact hcut hok
        rw [hsame x ih hxa] at hok ⊢
        exact .link ih hok

end Links
