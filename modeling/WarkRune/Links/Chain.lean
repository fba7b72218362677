import Mathlib.Algebra.Group.Int.Defs
import Mathlib.Algebra.Group.Nat.Defs
import Mathlib.Data.List.Nodup
import Mathlib.Logic.Function.Basic

/-!
# Chains of links

A chain is read off a link function: it starts at a node, follows the link of each node and ends
at the first node whose link is a stop mark. Every node on it is a proper one.

## Main definitions

* `Links.Chain next stop ok c l`: `l` lists the nodes of the chain that starts at `c`

## Main results

* `Chain.unique`, `Chain.nodup`: a start has one chain, and it is acyclic
* `Chain.congr`: a chain depends on the links of its own nodes only
* `Chain.append`: linking a fresh node after the last one extends the chain by it
* `Chain.next_mem`: the links of a chain's nodes stay on it
-/

namespace Links

variable {α : Type} {next next' : α → α} {stop ok : α → Prop}

/-- `l` lists the nodes of the chain that starts at `c`. -/
inductive Chain (next : α → α) (stop ok : α → Prop) : α → List α → Prop
  | last {c : α} (hc : ok c) (hs : stop (next c)) : Chain next stop ok c [c]
  | link {c : α} {l : List α} (hc : ok c) (hs : ¬ stop (next c))
      (hl : Chain next stop ok (next c) l) : Chain next stop ok c (c :: l)

namespace Chain

theorem head_mem {c : α} {l : List α} (h : Chain next stop ok c l) : c ∈ l := by
  cases h <;> simp

theorem ne_nil {c : α} {l : List α} (h : Chain next stop ok c l) : l ≠ [] :=
  List.ne_nil_of_mem h.head_mem

theorem head?_eq {c : α} {l : List α} (h : Chain next stop ok c l) : l.head? = some c := by
  cases h <;> rfl

theorem ok_of_mem {c d : α} {l : List α} (h : Chain next stop ok c l) (hd : d ∈ l) : ok d := by
  induction h with
  | last hc hs =>
    obtain rfl := List.mem_singleton.mp hd
    exact hc
  | link hc hs hl ih =>
    rcases List.mem_cons.mp hd with rfl | hd
    · exact hc
    · exact ih hd

/-- A start has at most one chain. -/
theorem unique {c : α} {l l' : List α} (h : Chain next stop ok c l)
    (h' : Chain next stop ok c l') : l = l' := by
  induction h generalizing l' with
  | last hc hs =>
    cases h' with
    | last => rfl
    | link _ hs' => exact absurd hs hs'
  | link hc hs hl ih =>
    cases h' with
    | last _ hs' => exact absurd hs' hs
    | link _ _ hl' => rw [ih hl']

/-- From each of its nodes on, a chain is that node's chain. -/
theorem suffix {c d : α} {l : List α} (h : Chain next stop ok c l) (hd : d ∈ l) :
    ∃ l₁ l₂, l = l₁ ++ l₂ ∧ Chain next stop ok d l₂ := by
  induction h with
  | last hc hs =>
    obtain rfl := List.mem_singleton.mp hd
    exact ⟨[], [_], rfl, .last hc hs⟩
  | @link c l hc hs hl ih =>
    rcases List.mem_cons.mp hd with rfl | hd
    · exact ⟨[], _, rfl, .link hc hs hl⟩
    · obtain ⟨l₁, l₂, rfl, h₂⟩ := ih hd
      exact ⟨c :: l₁, l₂, rfl, h₂⟩

/-- A chain is acyclic. -/
theorem nodup {c : α} {l : List α} (h : Chain next stop ok c l) : l.Nodup := by
  induction h with
  | last hc hs => exact List.nodup_singleton _
  | @link c l hc hs hl ih =>
    refine List.nodup_cons.mpr ⟨fun hmem => ?_, ih⟩
    -- the chain from `c` would be a proper part of itself
    obtain ⟨l₁, l₂, rfl, h₂⟩ := hl.suffix hmem
    have := congrArg List.length (h₂.unique (.link hc hs hl))
    simp at this
    omega

/-- A chain depends on the links of its own nodes only. -/
theorem congr {ok' : α → Prop} {c : α} {l : List α} (h : Chain next stop ok c l)
    (hn : ∀ d ∈ l, next' d = next d) (hok : ∀ d ∈ l, ok d → ok' d) :
    Chain next' stop ok' c l := by
  induction h with
  | last hc hs =>
    refine .last (hok _ (by simp) hc) ?_
    rwa [hn _ (by simp)]
  | @link c l hc hs hl ih =>
    have hc' : next' c = next c := hn c (by simp)
    refine .link (hok _ (by simp) hc) (by rwa [hc']) ?_
    rw [hc']
    exact ih (fun d hd => hn d (List.mem_cons_of_mem _ hd))
      fun d hd => hok d (List.mem_cons_of_mem _ hd)

/-- The chain of a node whose link stops is that node. -/
theorem eq_singleton {c : α} {l : List α} (h : Chain next stop ok c l) (hs : stop (next c)) :
    l = [c] :=
  h.unique (.last (h.ok_of_mem h.head_mem) hs)

/-- A node with a stopping link is the last one. -/
theorem eq_getLast {c d : α} {l : List α} (h : Chain next stop ok c l) (hd : d ∈ l)
    (hs : stop (next d)) : d = l.getLast h.ne_nil := by
  obtain ⟨l₁, l₂, rfl, h₂⟩ := h.suffix hd
  obtain rfl := h₂.eq_singleton hs
  simp

/-- The link of a node stops or leads to a node of the chain. -/
theorem next_mem {c d : α} {l : List α} (h : Chain next stop ok c l) (hd : d ∈ l)
    (hs : ¬ stop (next d)) : next d ∈ l := by
  obtain ⟨l₁, l₂, rfl, h₂⟩ := h.suffix hd
  cases h₂ with
  | last _ hs' => exact absurd hs' hs
  | link _ _ hl => exact List.mem_append_right _ (List.mem_cons_of_mem _ hl.head_mem)

/-- The link of the last node stops, and the link of any other leads to the node after it. -/
theorem link_at {c d : α} {l : List α} (h : Chain next stop ok c l) {i : ℕ}
    (hd : l[i]? = some d) :
    stop (next d) ∧ l.length = i + 1 ∨ ¬ stop (next d) ∧ l[i + 1]? = some (next d) := by
  induction h generalizing i with
  | last hc hs =>
    cases i with
    | zero =>
      obtain rfl := Option.some.inj hd
      exact .inl ⟨hs, rfl⟩
    | succ i => cases hd
  | link hc hs hl ih =>
    cases i with
    | zero =>
      obtain rfl := Option.some.inj hd
      refine .inr ⟨hs, ?_⟩
      rw [List.getElem?_cons_succ, ← List.head?_eq_getElem?, hl.head?_eq]
    | succ i =>
      refine (ih hd).imp (fun ⟨hstop, hlen⟩ => ⟨hstop, ?_⟩) fun ⟨hgo, hnext⟩ => ⟨hgo, ?_⟩
      · rw [List.length_cons, hlen]
      · rwa [List.getElem?_cons_succ]

/-- **Linking a fresh node after the last one extends the chain by it.** -/
theorem append {c n : α} {l : List α} (h : Chain next stop ok c l) (hn : n ∉ l) (hok : ok n)
    (hlast : next' (l.getLast h.ne_nil) = n) (hstop : ¬ stop n) (hend : stop (next' n))
    (hrest : ∀ d ∈ l, d ≠ l.getLast h.ne_nil → next' d = next d) :
    Chain next' stop ok c (l ++ [n]) := by
  induction h with
  | @last c hc hs =>
    simp only [List.getLast_singleton] at hlast
    refine .link hc (by rwa [hlast]) ?_
    rw [hlast]
    exact .last hok hend
  | @link c l hc hs hl ih =>
    rw [List.getLast_cons hl.ne_nil] at hlast
    have hcl : c ≠ l.getLast hl.ne_nil := by
      rintro he
      have hnd := (Chain.link hc hs hl).nodup
      exact (List.nodup_cons.mp hnd).1 (he ▸ List.getLast_mem hl.ne_nil)
    have hc' : next' c = next c :=
      hrest c (by simp) (by rwa [List.getLast_cons hl.ne_nil])
    refine .link hc (by rwa [hc']) ?_
    rw [hc']
    refine ih (fun hm => hn (List.mem_cons_of_mem _ hm)) hlast fun d hd hne => ?_
    exact hrest d (List.mem_cons_of_mem _ hd) (by rwa [List.getLast_cons hl.ne_nil])

end Chain

end Links
