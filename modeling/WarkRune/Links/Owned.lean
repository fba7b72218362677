import WarkRune.Links.Chain

/-!
# Chains and their owners

Each owner names the nodes its chains start at. Ownership is sound when every start has a chain
and no node lies on chains of two owners, and complete when every node that is not free lies on
some chain. A link is a stop mark, a proper node or the mark of a free node.

## Main definitions

* `Links.OwnedBy next stop ok Head i x`: the node `x` lies on a chain of the owner `i`
* `Links.Owned`: every start has a chain, and chains of different owners are disjoint
* `Links.Covered`: every node that is not free lies on a chain

## Main results

* `Owned.replace`, `Covered.replace`: one owner's chain is replaced by nodes of it and free nodes
* `Owned.transport`, `Covered.transport`: chains change hands
-/

namespace Links

variable {α ι κ : Type} {next next' : α → α} {stop ok free : α → Prop}

/-- The node `x` lies on a chain of the owner `i`. -/
def OwnedBy (next : α → α) (stop ok : α → Prop) (Head : ι → α → Prop) (i : ι) (x : α) : Prop :=
  ∃ c l, Head i c ∧ Chain next stop ok c l ∧ x ∈ l

/-- Every start has a chain, and chains of different owners are disjoint. -/
structure Owned (next : α → α) (stop ok : α → Prop) (Head : ι → α → Prop) : Prop where
  chain : ∀ {i c}, Head i c → ∃ l, Chain next stop ok c l
  apart : ∀ {i j x}, OwnedBy next stop ok Head i x → OwnedBy next stop ok Head j x → i = j

/-- Every node that is not free lies on a chain. -/
def Covered (next : α → α) (stop ok free : α → Prop) (Head : ι → α → Prop) : Prop :=
  ∀ x, ok x → ¬ free (next x) → ∃ i, OwnedBy next stop ok Head i x

/-- A node of a chain is not free. -/
theorem Chain.not_free (hfree : ∀ v, free v → ¬ stop v ∧ ¬ ok v) {c x : α} {l : List α}
    (h : Chain next stop ok c l) (hx : x ∈ l) : ¬ free (next x) := by
  intro hf
  obtain ⟨hs, hok⟩ := hfree _ hf
  exact hok (h.ok_of_mem (h.next_mem hx hs))

variable {Head : ι → α → Prop}

theorem OwnedBy.proper {i : ι} {x : α} (h : OwnedBy next stop ok Head i x) : ok x := by
  obtain ⟨c, l, -, hl, hx⟩ := h
  exact hl.ok_of_mem hx

theorem OwnedBy.not_free (hfree : ∀ v, free v → ¬ stop v ∧ ¬ ok v) {i : ι} {x : α}
    (h : OwnedBy next stop ok Head i x) : ¬ free (next x) := by
  obtain ⟨c, l, -, hl, hx⟩ := h
  exact hl.not_free hfree hx

section Congr

variable (h : ∀ i x, OwnedBy next stop ok Head i x → next' x = next x)
include h

/-- The chain of an owner is the same where the links of owned nodes are. -/
theorem Owned.chain_iff (hO : Owned next stop ok Head) {i : ι} {c : α} (hc : Head i c)
    {l : List α} : Chain next' stop ok c l ↔ Chain next stop ok c l := by
  obtain ⟨m, hm⟩ := hO.chain hc
  have hm' : Chain next' stop ok c m :=
    hm.congr (fun x hx => h i x ⟨c, m, hc, hm, hx⟩) fun _ _ hx => hx
  constructor
  · intro hl
    rwa [hl.unique hm']
  · intro hl
    rwa [hl.unique hm]

theorem Owned.ownedBy_iff (hO : Owned next stop ok Head) {i : ι} {x : α} :
    OwnedBy next' stop ok Head i x ↔ OwnedBy next stop ok Head i x := by
  constructor
  · rintro ⟨c, l, hc, hl, hx⟩
    exact ⟨c, l, hc, (hO.chain_iff h hc).mp hl, hx⟩
  · rintro ⟨c, l, hc, hl, hx⟩
    exact ⟨c, l, hc, (hO.chain_iff h hc).mpr hl, hx⟩

/-- Ownership depends on the links of owned nodes only. -/
theorem Owned.congr (hO : Owned next stop ok Head) : Owned next' stop ok Head where
  chain hc := by
    obtain ⟨l, hl⟩ := hO.chain hc
    exact ⟨l, (hO.chain_iff h hc).mpr hl⟩
  apart hi hj := hO.apart ((hO.ownedBy_iff h).mp hi) ((hO.ownedBy_iff h).mp hj)

theorem Covered.congr (hC : Covered next stop ok free Head) (hO : Owned next stop ok Head)
    (hfree : ∀ x, ok x → free (next x) → free (next' x)) : Covered next' stop ok free Head := by
  intro x hok hx
  obtain ⟨i, hi⟩ := hC x hok fun hf => hx (hfree x hok hf)
  exact ⟨i, (hO.ownedBy_iff h).mpr hi⟩

end Congr

section Replace

variable {Head' : ι → α → Prop} {i₀ : ι} {old new : List α}

/-- The chain of another owner keeps its links. -/
theorem Owned.chain_congr (hO : Owned next stop ok Head)
    (hold : ∀ x ∈ old, OwnedBy next stop ok Head i₀ x)
    (hnew : ∀ x ∈ new, x ∈ old ∨ ∀ i, ¬ OwnedBy next stop ok Head i x)
    (hnext : ∀ x, ok x → x ∉ old → x ∉ new → next' x = next x) {i : ι} (hi : i ≠ i₀) {c : α}
    {l : List α} (hc : Head i c) (hl : Chain next stop ok c l) : Chain next' stop ok c l := by
  have hout : ∀ x ∈ l, x ∉ old := fun x hx hxo => hi (hO.apart ⟨c, l, hc, hl, hx⟩ (hold x hxo))
  refine hl.congr (fun x hx => hnext x (hl.ok_of_mem hx) (hout x hx) fun hxn => ?_) fun _ _ h => h
  rcases hnew x hxn with hxo | hxf
  · exact hout x hx hxo
  · exact hxf i ⟨c, l, hc, hl, hx⟩

/-- **One owner's chain is replaced** by nodes of it and nodes nobody owned: ownership stays
sound. -/
theorem Owned.replace (hO : Owned next stop ok Head)
    (hold : ∀ x ∈ old, OwnedBy next stop ok Head i₀ x)
    (hnew : ∀ x ∈ new, x ∈ old ∨ ∀ i, ¬ OwnedBy next stop ok Head i x)
    (hnext : ∀ x, ok x → x ∉ old → x ∉ new → next' x = next x)
    (hother : ∀ i ≠ i₀, ∀ c, Head' i c → Head i c)
    (hself : ∀ c, Head' i₀ c → Chain next' stop ok c new) : Owned next' stop ok Head' := by
  have hkeep : ∀ {i}, i ≠ i₀ → ∀ {c}, Head' i c →
      ∃ l, Chain next stop ok c l ∧ Chain next' stop ok c l := by
    intro i hi c hc
    obtain ⟨l, hl⟩ := hO.chain (hother i hi c hc)
    exact ⟨l, hl, hO.chain_congr hold hnew hnext hi (hother i hi c hc) hl⟩
  -- a node another owner holds now is one it held before
  have hback : ∀ {i x}, i ≠ i₀ → OwnedBy next' stop ok Head' i x →
      OwnedBy next stop ok Head i x := by
    rintro i x hi ⟨c, l', hc, hl', hx⟩
    obtain ⟨l, hl, hl₁⟩ := hkeep hi hc
    obtain rfl := hl'.unique hl₁
    exact ⟨c, _, hother i hi c hc, hl, hx⟩
  have hsep : ∀ {j x}, j ≠ i₀ → OwnedBy next' stop ok Head' i₀ x →
      ¬ OwnedBy next' stop ok Head' j x := by
    rintro j x hj ⟨c, l', hc, hl', hx⟩ hjx
    rw [hl'.unique (hself c hc)] at hx
    have hjx := hback hj hjx
    rcases hnew x hx with hxo | hxf
    · exact hj (hO.apart hjx (hold x hxo))
    · exact hxf j hjx
  constructor
  · intro i c hc
    by_cases hi : i = i₀
    · subst hi
      exact ⟨new, hself c hc⟩
    · obtain ⟨l, -, hl⟩ := hkeep hi hc
      exact ⟨l, hl⟩
  · intro i j x hi hj
    by_cases hii : i = i₀ <;> by_cases hjj : j = i₀
    · rw [hii, hjj]
    · subst hii
      exact absurd hj (hsep hjj hi)
    · subst hjj
      exact absurd hi (hsep hii hj)
    · exact hO.apart (hback hii hi) (hback hjj hj)

/-- **One owner's chain is replaced** by another one, and the nodes it loses are freed: ownership
stays complete. -/
theorem Covered.replace (hC : Covered next stop ok free Head) (hO : Owned next stop ok Head)
    (hold : ∀ x, OwnedBy next stop ok Head i₀ x ↔ x ∈ old)
    (hnew : ∀ x ∈ new, x ∈ old ∨ ∀ i, ¬ OwnedBy next stop ok Head i x)
    (hgone : ∀ x ∈ old, x ∈ new ∨ free (next' x))
    (hnext : ∀ x, ok x → x ∉ old → x ∉ new → next' x = next x)
    (hother : ∀ i ≠ i₀, ∀ c, Head i c → Head' i c)
    (hself : new ≠ [] → ∃ c, Head' i₀ c ∧ Chain next' stop ok c new) :
    Covered next' stop ok free Head' := by
  intro x hok hx
  by_cases hxn : x ∈ new
  · obtain ⟨c, hc, hl⟩ := hself (List.ne_nil_of_mem hxn)
    exact ⟨i₀, c, new, hc, hl, hxn⟩
  have hxo : x ∉ old := fun hxo => hx ((hgone x hxo).resolve_left hxn)
  rw [hnext x hok hxo hxn] at hx
  obtain ⟨i, hi⟩ := hC x hok hx
  have hii : i ≠ i₀ := by
    rintro rfl
    exact hxo ((hold x).mp hi)
  obtain ⟨c, l, hc, hl, hxl⟩ := hi
  refine ⟨i, c, l, hother i hii c hc, ?_, hxl⟩
  exact hO.chain_congr (fun y hy => (hold y).mpr hy) hnew hnext hii hc hl

end Replace

/-! ## Changing hands -/

section Transport

variable {Head' : κ → α → Prop}

/-- Chains change hands, no two of them into the same: ownership stays sound. -/
theorem Owned.transport (hO : Owned next stop ok Head) (f : κ → ι)
    (h : ∀ j c, Head' j c → Head (f j) c)
    (hinj : ∀ j k c d, Head' j c → Head' k d → f j = f k → j = k) :
    Owned next stop ok Head' where
  chain hc := hO.chain (h _ _ hc)
  apart := by
    rintro j k x ⟨c, l, hc, hl, hx⟩ ⟨d, m, hd, hm, hx'⟩
    exact hinj j k c d hc hd (hO.apart ⟨c, l, h j c hc, hl, hx⟩ ⟨d, m, h k d hd, hm, hx'⟩)

theorem Covered.transport (hC : Covered next stop ok free Head)
    (h : ∀ i c, Head i c → ∃ j, Head' j c) : Covered next stop ok free Head' := by
  intro x hok hx
  obtain ⟨i, c, l, hc, hl, hxl⟩ := hC x hok hx
  obtain ⟨j, hj⟩ := h i c hc
  exact ⟨j, c, l, hj, hl, hxl⟩

end Transport

end Links
