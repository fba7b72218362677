import Mathlib.Data.List.Infix
import WarkRune.Exec.Basic

/-!
# Programs that leave a trace

A traced program emits events while it runs. It is presented like a program without events, by its
runs at every step budget: a larger budget goes on with the trace, and a budget that suffices
gives the same trace and result at every larger budget. A program that runs for ever has emitted
the events of its runs at all budgets.

## Main definitions

* `Traced σ ε α`: programs over the state `σ` that emit events `ε` and return an `α`
* `Traced.erase`: the program without its events
* `Traced.Emits m s e`: from `s`, the program `m` emits `e` at some time, whether it returns or not
* `Traced.Within m s Q`: from `s`, the program emits events that satisfy `Q` only

## Main results

* `Traced.emits_bind`, `Traced.emits_loop`: the events of a sequence and of a loop
* `Traced.Within.loop`: the events of a loop satisfy what those of each round satisfy
* `Traced.erase_bind`, `Traced.erase_loop`: the program without its events follows the program
-/

/-- What a run has come to: the events so far, and the result when there is one. -/
abbrev Progress (σ ε α : Type) := List ε × Option (α × σ)

namespace Progress

variable {σ ε α β : Type}

/-- The second run goes on where the first one stopped. -/
def Extends (x y : Progress σ ε α) : Prop := x.1 <+: y.1 ∧ ∀ r, x.2 = some r → y = x

/-- A run, and then the run of what follows its result. -/
def andThen (x : Progress σ ε α) (k : α → σ → Progress σ ε β) : Progress σ ε β :=
  match x.2 with
  | none => (x.1, none)
  | some p => (x.1 ++ (k p.1 p.2).1, (k p.1 p.2).2)

variable {x y : Progress σ ε α} {k l : α → σ → Progress σ ε β}

theorem Extends.refl (x : Progress σ ε α) : Extends x x := ⟨List.prefix_rfl, fun _ _ => rfl⟩

theorem Extends.andThen (hx : Extends x y) (hk : ∀ a s, Extends (k a s) (l a s)) :
    Extends (x.andThen k) (y.andThen l) := by
  rcases x with ⟨es, _ | ⟨a, s⟩⟩
  · refine ⟨?_, nofun⟩
    rcases y with ⟨fs, _ | ⟨a, s⟩⟩
    · exact hx.1
    · exact hx.1.trans (List.prefix_append ..)
  · obtain rfl := hx.2 (a, s) rfl
    obtain ⟨hpre, hres⟩ := hk a s
    refine ⟨List.prefix_append_right_inj es |>.mpr hpre, fun r hr => ?_⟩
    have hl := hres r hr
    simp only [Progress.andThen, hl]

end Progress

/-- A program over the state `σ` that emits events: its run at every step budget. -/
structure Traced (σ ε α : Type) where
  run : ℕ → σ → Progress σ ε α
  /-- A larger budget goes on with the run. -/
  mono : ∀ {n m : ℕ} {s : σ}, n ≤ m → (run n s).Extends (run m s)

namespace Traced

variable {σ ε α β : Type}

instance : Monad (Traced σ ε) where
  pure a := ⟨fun _ s => ([], some (a, s)), fun _ => .refl _⟩
  bind m f :=
    ⟨fun n s => (m.run n s).andThen fun a s' => (f a).run n s',
      fun hnk => (m.mono hnk).andThen fun a _ => (f a).mono hnk⟩

/-- A program without events. -/
def lift (m : Exec σ α) : Traced σ ε α :=
  ⟨fun n s => ([], m.run n s), fun {n k s} hnk => ⟨List.prefix_rfl, fun r hr => by
    rw [show m.run n s = some r from hr, m.mono hnk hr]⟩⟩

instance : MonadLift (Exec σ) (Traced σ ε) := ⟨lift⟩

instance : MonadStateOf σ (Traced σ ε) where
  get := lift get
  set s := lift (set s)
  modifyGet f := lift (modifyGet f)

/-- Emit an event. -/
def emit (e : ε) : Traced σ ε Unit := ⟨fun _ s => ([e], some ((), s)), fun _ => .refl _⟩

/-- Emit events one after the other. -/
def emitAll (es : List ε) : Traced σ ε Unit := ⟨fun _ s => (es, some ((), s)), fun _ => .refl _⟩

/-- At most `k` rounds of a loop, each within the budget `n`. -/
def rounds (body : β → Traced σ ε (β ⊕ α)) (n : ℕ) : ℕ → β → σ → Progress σ ε α
  | 0, _, _ => ([], none)
  | k + 1, b, s => ((body b).run n s).andThen fun x s' =>
    match x with
    | .inl b' => rounds body n k b' s'
    | .inr a => ([], some (a, s'))

theorem rounds_mono {body : β → Traced σ ε (β ⊕ α)} {n m : ℕ} (hnm : n ≤ m) {k j : ℕ} {b : β}
    {s : σ} (hkj : k ≤ j) : (rounds body n k b s).Extends (rounds body m j b s) := by
  induction k generalizing j b s with
  | zero => exact ⟨List.nil_prefix, nofun⟩
  | succ k ih =>
    obtain ⟨j, rfl⟩ : ∃ i, j = i + 1 := ⟨j - 1, by omega⟩
    refine ((body b).mono hnm).andThen fun x s' => ?_
    cases x with
    | inl b' => exact ih (by omega)
    | inr a => exact .refl _

/-- The unbounded loop: a round continues with `inl` and leaves with `inr`. -/
def loop (body : β → Traced σ ε (β ⊕ α)) (b : β) : Traced σ ε α :=
  ⟨fun n s => rounds body n n b s, fun hnm => rounds_mono hnm hnm⟩

/-! ## The program without its events -/

/-- The program without its events. -/
def erase (m : Traced σ ε α) : Exec σ α :=
  ⟨fun n s => (m.run n s).2, fun {n k s r} hnk h => by rw [((m.mono hnk).2 r h), h]⟩

@[simp] theorem erase_pure (a : α) : (pure a : Traced σ ε α).erase = pure a := rfl

@[simp] theorem erase_lift (m : Exec σ α) : (lift m : Traced σ ε α).erase = m := rfl

@[simp] theorem erase_liftM (m : Exec σ α) : (liftM m : Traced σ ε α).erase = m := rfl

@[simp] theorem erase_get : (get : Traced σ ε σ).erase = get := rfl

@[simp] theorem erase_modify (f : σ → σ) : (modify f : Traced σ ε PUnit).erase = modify f := rfl

@[simp] theorem erase_emit (e : ε) : (emit e : Traced σ ε Unit).erase = pure () := rfl

@[simp] theorem erase_emitAll (es : List ε) : (emitAll es : Traced σ ε Unit).erase = pure () := rfl

theorem erase_ite {c : Prop} [Decidable c] (m k : Traced σ ε α) :
    (if c then m else k).erase = if c then m.erase else k.erase := apply_ite erase c m k

@[simp] theorem erase_bind (m : Traced σ ε α) (f : α → Traced σ ε β) :
    (m >>= f).erase = m.erase >>= fun a => (f a).erase := by
  ext n s : 3
  change ((m.run n s).andThen fun a s' => (f a).run n s').2 = _
  rw [Exec.run_bind]
  change _ = (m.run n s).2.bind fun p => ((f p.1).run n p.2).2
  unfold Progress.andThen
  cases (m.run n s).2 <;> rfl

theorem erase_loop (body : β → Traced σ ε (β ⊕ α)) (b : β) :
    (loop body b).erase = Exec.loop (fun b => (body b).erase) b := by
  have hrounds (n k : ℕ) (b : β) (s : σ) :
      (rounds body n k b s).2 = Exec.rounds (fun b => (body b).erase) n k b s := by
    induction k generalizing b s with
    | zero => rfl
    | succ k ih =>
      have hbody : ((body b).erase).run n s = ((body b).run n s).2 := rfl
      rw [rounds, Exec.rounds, Progress.andThen, hbody]
      rcases ((body b).run n s).2 with _ | ⟨b' | a, s'⟩
      · rfl
      · exact ih b' s'
      · rfl
  ext n s : 3
  exact hrounds n n b s

/-! ## Events -/

/-- From `s`, the program emits `e` at some time. -/
def Emits (m : Traced σ ε α) (s : σ) (e : ε) : Prop := ∃ n, e ∈ (m.run n s).1

@[simp] theorem not_emits_pure {a : α} {s : σ} {e : ε} : ¬ (pure a : Traced σ ε α).Emits s e := by
  rintro ⟨n, hn⟩
  cases hn

@[simp] theorem not_emits_lift {m : Exec σ α} {s : σ} {e : ε} :
    ¬ (lift m : Traced σ ε α).Emits s e := by
  rintro ⟨n, hn⟩
  cases hn

@[simp] theorem emits_emit {s : σ} {e e' : ε} : (emit e : Traced σ ε Unit).Emits s e' ↔ e' = e := by
  constructor
  · rintro ⟨n, hn⟩
    exact List.mem_singleton.mp hn
  · rintro rfl
    exact ⟨0, List.mem_singleton_self _⟩

@[simp] theorem emits_emitAll {es : List ε} {s : σ} {e : ε} :
    (emitAll es : Traced σ ε Unit).Emits s e ↔ e ∈ es :=
  ⟨fun ⟨_, hn⟩ => hn, fun h => ⟨0, h⟩⟩

/-- **The events of a sequence** are those of its first part, and those of its second part from
where the first one ends. -/
theorem emits_bind {m : Traced σ ε α} {f : α → Traced σ ε β} {s : σ} {e : ε} :
    (m >>= f).Emits s e ↔
      m.Emits s e ∨ ∃ a s', m.erase.Returns s a s' ∧ (f a).Emits s' e := by
  have hrun (n : ℕ) :
      ((m >>= f).run n s) = (m.run n s).andThen fun a s' => (f a).run n s' := rfl
  constructor
  · rintro ⟨n, hn⟩
    rw [hrun, Progress.andThen] at hn
    cases hr : (m.run n s).2 with
    | none =>
      rw [hr] at hn
      exact .inl ⟨n, hn⟩
    | some p =>
      rw [hr] at hn
      rcases List.mem_append.mp hn with h | h
      · exact .inl ⟨n, h⟩
      · exact .inr ⟨p.1, p.2, ⟨n, hr⟩, n, h⟩
  · rintro (⟨n, hn⟩ | ⟨a, s', ⟨n, hn⟩, k, hk⟩)
    · refine ⟨n, ?_⟩
      rw [hrun, Progress.andThen]
      cases (m.run n s).2 with
      | none => exact hn
      | some p => exact List.mem_append_left _ hn
    · refine ⟨max n k, ?_⟩
      rw [hrun, (m.mono (le_max_left n k)).2 _ hn, Progress.andThen,
        show (m.run n s).2 = some (a, s') from hn]
      exact List.mem_append_right _ (((f a).mono (le_max_right n k)).1.subset hk)

section Steps

variable {s : σ} {e : ε}

@[simp] theorem emits_get_bind {f : σ → Traced σ ε β} :
    ((get : Traced σ ε σ) >>= f).Emits s e ↔ (f s).Emits s e := by
  rw [emits_bind]
  constructor
  · rintro (h | ⟨a, s', h, he⟩)
    · exact absurd h not_emits_lift
    · obtain ⟨rfl, rfl⟩ := Exec.returns_get.mp h
      exact he
  · exact fun he => .inr ⟨s, s, Exec.returns_get.mpr ⟨rfl, rfl⟩, he⟩

@[simp] theorem emits_modify_bind {g : σ → σ} {f : PUnit → Traced σ ε β} :
    ((modify g : Traced σ ε PUnit) >>= f).Emits s e ↔ (f ⟨⟩).Emits (g s) e := by
  rw [emits_bind]
  constructor
  · rintro (h | ⟨a, s', h, he⟩)
    · exact absurd h not_emits_lift
    · obtain rfl := Exec.returns_modify.mp h
      exact he
  · exact fun he => .inr ⟨⟨⟩, g s, Exec.returns_modify.mpr rfl, he⟩

@[simp] theorem emits_set_bind {t : σ} {f : PUnit → Traced σ ε β} :
    ((set t : Traced σ ε PUnit) >>= f).Emits s e ↔ (f ⟨⟩).Emits t e := by
  rw [emits_bind]
  constructor
  · rintro (h | ⟨a, s', h, he⟩)
    · exact absurd h not_emits_lift
    · obtain rfl := Exec.returns_set.mp h
      exact he
  · exact fun he => .inr ⟨⟨⟩, t, Exec.returns_set.mpr rfl, he⟩

@[simp] theorem emits_emitAll_bind {es : List ε} {f : Unit → Traced σ ε β} :
    ((emitAll es : Traced σ ε Unit) >>= f).Emits s e ↔ e ∈ es ∨ (f ()).Emits s e := by
  rw [emits_bind, emits_emitAll, erase_emitAll]
  refine or_congr Iff.rfl ⟨?_, fun he => ⟨(), s, Exec.returns_pure.mpr ⟨rfl, rfl⟩, he⟩⟩
  rintro ⟨a, s', h, he⟩
  obtain ⟨rfl, rfl⟩ := Exec.returns_pure.mp h
  exact he

end Steps

/-- **The events of a loop** are those of its first round, and those of the loop from where that
round goes on. -/
theorem emits_loop {body : β → Traced σ ε (β ⊕ α)} {b : β} {s : σ} {e : ε} :
    (loop body b).Emits s e ↔ (body b).Emits s e ∨
      ∃ b' s', (body b).erase.Returns s (.inl b') s' ∧ (loop body b').Emits s' e := by
  constructor
  · rintro ⟨n, hn⟩
    change e ∈ (rounds body n n b s).1 at hn
    cases n with
    | zero => cases hn
    | succ n =>
      rw [rounds, Progress.andThen] at hn
      cases hr : ((body b).run (n + 1) s).2 with
      | none =>
        rw [hr] at hn
        exact .inl ⟨n + 1, hn⟩
      | some p =>
        rw [hr] at hn
        rcases List.mem_append.mp hn with h | h
        · exact .inl ⟨n + 1, h⟩
        · rcases p with ⟨b' | a, s'⟩
          · refine .inr ⟨b', s', ⟨n + 1, hr⟩, n + 1, ?_⟩
            exact (rounds_mono (Nat.le_refl _) (Nat.le_succ n)).1.subset h
          · cases h
  · rintro (⟨n, hn⟩ | ⟨b', s', ⟨n, hn⟩, k, hk⟩)
    · refine ⟨n + 1, ?_⟩
      change e ∈ (rounds body (n + 1) (n + 1) b s).1
      rw [rounds, Progress.andThen]
      have hmem := ((body b).mono (Nat.le_succ n)).1.subset hn
      cases ((body b).run (n + 1) s).2 with
      | none => exact hmem
      | some p => exact List.mem_append_left _ hmem
    · refine ⟨max n k + 1, ?_⟩
      change e ∈ (rounds body (max n k + 1) (max n k + 1) b s).1
      have hle : n ≤ max n k + 1 := (le_max_left n k).trans (Nat.le_succ _)
      rw [rounds, ((body b).mono hle).2 _ hn, Progress.andThen,
        show ((body b).run n s).2 = some (.inl b', s') from hn]
      refine List.mem_append_right _ ?_
      exact (rounds_mono ((le_max_right n k).trans (Nat.le_succ _)) (le_max_right n k)).1.subset hk

/-- From `s`, the program emits events that satisfy `Q` only. -/
def Within (m : Traced σ ε α) (s : σ) (Q : ε → Prop) : Prop := ∀ e, m.Emits s e → Q e

namespace Within

variable {Q : ε → Prop} {s : σ}

theorem pure (a : α) : Within (Pure.pure a : Traced σ ε α) s Q :=
  fun _ he => absurd he not_emits_pure

theorem lift (m : Exec σ α) : Within (Traced.lift m : Traced σ ε α) s Q :=
  fun _ he => absurd he not_emits_lift

theorem emit {e : ε} (he : Q e) : Within (Traced.emit e : Traced σ ε Unit) s Q :=
  fun _ h => emits_emit.mp h ▸ he

theorem bind {m : Traced σ ε α} {f : α → Traced σ ε β} (hm : m.Within s Q)
    (hf : ∀ a s', m.erase.Returns s a s' → (f a).Within s' Q) : (m >>= f).Within s Q := by
  intro e he
  rcases emits_bind.mp he with h | ⟨a, s', hr, h⟩
  · exact hm e h
  · exact hf a s' hr e h

/-- A choice emits what its branches emit where they are taken. -/
theorem ite {c : Prop} [Decidable c] {m k : Traced σ ε α} (hm : c → m.Within s Q)
    (hk : ¬ c → k.Within s Q) : (if c then m else k).Within s Q := by
  split
  · exact hm ‹_›
  · exact hk ‹_›

/-- A loop over a list emits what its rounds emit. -/
theorem foldlM {f : β → α → Traced σ ε β} (hf : ∀ b a s, (f b a).Within s Q) (l : List α) (b : β) :
    (l.foldlM f b).Within s Q := by
  induction l generalizing b s with
  | nil => exact pure _
  | cons a l ih => exact (hf b a s).bind fun b' _ _ => ih b'

/-- **The events of a loop**: what each round keeps and emits decides what the loop emits, whether
it ends or not. -/
theorem loop {body : β → Traced σ ε (β ⊕ α)} (I : β → Prop)
    (hbody : ∀ b s, I b → (body b).Within s Q)
    (hnext : ∀ b s b' s', I b → (body b).erase.Returns s (.inl b') s' → I b') {b : β} (hb : I b) :
    (Traced.loop body b).Within s Q := by
  rintro e ⟨n, hn⟩
  have hrounds (k : ℕ) (b : β) (s : σ) (hb : I b) (hn : e ∈ (rounds body n k b s).1) : Q e := by
    induction k generalizing b s with
    | zero => cases hn
    | succ k ih =>
      rw [rounds, Progress.andThen] at hn
      cases hr : ((body b).run n s).2 with
      | none =>
        rw [hr] at hn
        exact hbody b s hb e ⟨n, hn⟩
      | some p =>
        rw [hr] at hn
        rcases List.mem_append.mp hn with h | h
        · exact hbody b s hb e ⟨n, h⟩
        · rcases p with ⟨b' | a, s'⟩
          · exact ih b' s' (hnext b s b' s' hb ⟨n, hr⟩) h
          · cases h
  exact hrounds n b s hb hn

end Within

end Traced
