import WarkRune.Sched.Tasks
import Mathlib.Data.List.Induction
import Mathlib.Tactic.Common

/-!
# Killed tasks

A killed task is marked dead, and the search of `sched_tick` passes over dead tasks. But the
switch marks the outgoing task ready without looking at what it was, so a task killed while it is
the current one is brought back by the switch away from it.

## Main definitions

* `StaysDead kstacks s cs`: over the run, every killed task is dead in every later state, and it
  is never current again once a quantum has ended with another task ready
* `NoDeadSwitch`: no quantum ends while the current task is dead and another one is not

## Main results

* `staysDead_iff`: over every run, killed tasks stay dead exactly when no such quantum ends
* `killed_current_revives`: the current task is killed, and is ready again after one quantum
-/

namespace WarkRune.Sched

variable {kstacks : UInt32} {s : Scheduler}

/-- The call kills the task. -/
def Scheduler.Kills (s : Scheduler) (c : Call) (t : ℕ) : Prop :=
  (∃ id : UInt32, c = .killTask id ∧ id.toNat < s.taskCount ∧ t = id.toNat) ∨
    c = .killCurrent ∧ t = s.curTask

/-- A quantum ends while a task other than `t` is ready. -/
def Scheduler.ExpiresBeside (s : Scheduler) (c : Call) (t : ℕ) : Prop :=
  s.Expires c ∧ ∃ u < s.taskCount, u ≠ t ∧ s.state u = .ready

/-- Over the run, every killed task is dead in every later state, and it is not the current one
in any state after a quantum has ended while another task was ready. -/
def StaysDead (kstacks : UInt32) (s : Scheduler) (cs : List Call) : Prop :=
  ∀ a c b rest, cs = a ++ c :: b ++ rest →
    let st := fun cs => Machine.after (Scheduler.step kstacks) s cs
    ∀ t, (st a).Kills c t → (st (a ++ c :: b)).state t = .dead ∧
      ∀ b₁ e b₂, b = b₁ ++ e :: b₂ → (st (a ++ c :: b₁)).ExpiresBeside e t →
        (st (a ++ c :: b)).curTask ≠ t

/-- No quantum ends while the current task is dead and another one is not. -/
def NoDeadSwitch (s : Scheduler) (c : Call) : Prop :=
  s.Expires c → s.state s.curTask = .dead → ∀ u < s.taskCount, s.state u = .dead

/-! ## What a call does to a task -/

/-- The task that the search ends with is the current one when no other is left. -/
theorem next_of_dead (h : s.Ok) (hall : ∀ u < s.taskCount, s.state u = .dead) :
    s.next = s.curTask := by
  by_contra hne
  exact Scheduler.not_alive.mpr (hall _ h.next) (Scheduler.alive_next hne)

/-- **A dead task stays dead** over a call that does not switch away from it. -/
theorem step_dead (h : s.Ok) {c : Call} (hc : NoDeadSwitch s c) {t : ℕ} (ht : t < s.taskCount)
    (hd : s.state t = .dead) :
    (s.step kstacks c).state t = .dead ∧ t < (s.step kstacks c).taskCount ∧
      (s.curTask ≠ t → (s.step kstacks c).curTask ≠ t) := by
  cases c with
  | tick esp =>
    rcases tick_cases s esp with ⟨-, hcur, hn, hstate⟩ | ⟨hq, hne, hcur, hn, hstate⟩
    · simp only [Scheduler.step, hcur, hn, hstate]
      exact ⟨hd, ht, id⟩
    · -- the task switched to is not dead, and neither is the one switched away from
      have hnt : s.next ≠ t := by
        rintro rfl
        exact Scheduler.not_alive.mpr hd (Scheduler.alive_next hne)
      have hct : s.curTask ≠ t := by
        rintro rfl
        exact hne (next_of_dead h (hc ⟨⟨esp, rfl⟩, by omega⟩ hd))
      simp only [Scheduler.step, hcur, hn, hstate]
      exact ⟨by rw [if_neg (Ne.symm hnt), if_neg (Ne.symm hct), hd], ht, fun _ => hnt⟩
  | addTask entry userEsp =>
    simp only [Scheduler.step, schedAddTask]
    split
    · exact ⟨hd, ht, id⟩
    · refine ⟨?_, Nat.lt_succ_of_lt ht, id⟩
      have hs := Scheduler.state_setTask s s.taskCount t
        ⟨((initialFrame entry userEsp).foldl push (stackTop kstacks s.taskCount, s.mem)).1,
          stackTop kstacks s.taskCount, .ready, UInt32.ofNat s.taskCount, entry, userEsp⟩
      rw [if_neg (Nat.ne_of_lt ht), hd] at hs
      exact hs
  | killTask k =>
    simp only [Scheduler.step, schedKillTask]
    split
    · refine ⟨?_, ht, id⟩
      rw [Scheduler.state_setState]
      split
      · rfl
      · exact hd
    · exact ⟨hd, ht, id⟩
  | killCurrent =>
    refine ⟨?_, ht, id⟩
    simp only [Scheduler.step, schedKillCurrent, Scheduler.state_setState]
    split
    · rfl
    · exact hd

/-- A killed task is dead, and one of the table's. -/
theorem Scheduler.Kills.dead (h : s.Ok) {c : Call} {t : ℕ} (hk : s.Kills c t) :
    (s.step kstacks c).state t = .dead ∧ t < (s.step kstacks c).taskCount := by
  rcases hk with ⟨id, rfl, hid, rfl⟩ | ⟨rfl, rfl⟩
  · simp only [Scheduler.step, schedKillTask, if_pos hid, Scheduler.state_setState, ↓reduceIte]
    exact ⟨trivial, hid⟩
  · simp only [Scheduler.step, schedKillCurrent, Scheduler.state_setState, ↓reduceIte]
    exact ⟨trivial, h⟩

/-- A dead task is not the current one when a quantum ends with another one ready. -/
theorem Scheduler.ExpiresBeside.ne {c : Call} {t : ℕ} (he : s.ExpiresBeside c t)
    (hc : NoDeadSwitch s c) (hd : s.state t = .dead) : s.curTask ≠ t := by
  rintro rfl
  obtain ⟨hexp, u, hu, -, hready⟩ := he
  have hdead := hc hexp hd u hu
  rw [hready] at hdead
  cases hdead

/-- A call makes no task dead without killing it. -/
theorem dead_of_step {c : Call} {t : ℕ} (ht : t < (s.step kstacks c).taskCount)
    (hd : (s.step kstacks c).state t = .dead) :
    t < s.taskCount ∧ s.state t = .dead ∨ s.Kills c t := by
  cases c with
  | tick esp =>
    rcases tick_cases s esp with ⟨-, -, hn, hstate⟩ | ⟨-, -, -, hn, hstate⟩
    · simp only [Scheduler.step, hn, hstate] at ht hd
      exact .inl ⟨ht, hd⟩
    · simp only [Scheduler.step, hn, hstate] at ht hd
      split_ifs at hd
      exact .inl ⟨ht, hd⟩
  | addTask entry userEsp =>
    simp only [Scheduler.step, schedAddTask] at ht hd
    split at ht
    · next hfull =>
      rw [if_pos hfull] at hd
      exact .inl ⟨ht, hd⟩
    · next hroom =>
      rw [if_neg hroom] at hd
      have hs := Scheduler.state_setTask s s.taskCount t
        ⟨((initialFrame entry userEsp).foldl push (stackTop kstacks s.taskCount, s.mem)).1,
          stackTop kstacks s.taskCount, .ready, UInt32.ofNat s.taskCount, entry, userEsp⟩
      by_cases hlast : t = s.taskCount
      · rw [if_pos hlast] at hs
        cases hs.symm.trans hd
      · rw [if_neg hlast] at hs
        have hlt : t < s.taskCount + 1 := ht
        exact .inl ⟨by omega, hs.symm.trans hd⟩
  | killTask id =>
    simp only [Scheduler.step, schedKillTask] at ht hd
    split at hd
    · next hid =>
      rw [if_pos hid] at ht
      -- the task that is killed, or one that stays as it was
      by_cases hti : t = id.toNat
      · exact .inr (.inl ⟨id, rfl, hid, hti⟩)
      · rw [Scheduler.state_setState, if_neg hti] at hd
        exact .inl ⟨ht, hd⟩
    · next hid =>
      rw [if_neg hid] at ht
      exact .inl ⟨ht, hd⟩
  | killCurrent =>
    simp only [Scheduler.step, schedKillCurrent, Scheduler.state_setState] at ht hd
    split at hd
    · next hcur => exact .inr (.inr ⟨rfl, hcur⟩)
    · exact .inl ⟨ht, hd⟩

/-! ## Over a run -/

theorem after_ok (h : s.Ok) (cs : List Call) :
    (Machine.after (Scheduler.step kstacks) s cs).Ok :=
  Machine.invariant_of_forall (fun _ c hs => hs.step c) h cs

/-- Every dead task of the table was killed: the scheduler starts with a running one. -/
theorem exists_kill (s₀ : Scheduler) (cs : List Call) {t : ℕ}
    (ht : t < (Machine.after (Scheduler.step kstacks) (schedInit kstacks s₀) cs).taskCount)
    (hd : (Machine.after (Scheduler.step kstacks) (schedInit kstacks s₀) cs).state t = .dead) :
    ∃ a c b, cs = a ++ c :: b ∧
      (Machine.after (Scheduler.step kstacks) (schedInit kstacks s₀) a).Kills c t := by
  induction cs using List.reverseRecOn with
  | nil =>
    have ht0 : t < 1 := ht
    obtain rfl : t = 0 := by omega
    exact absurd hd (by simp [schedInit, Scheduler.state, Scheduler.setTask])
  | append_singleton cs c ih =>
    rw [Machine.after_concat] at ht hd
    rcases dead_of_step ht hd with ⟨ht', hd'⟩ | hk
    · obtain ⟨a, k, b, rfl, hk⟩ := ih ht' hd'
      exact ⟨a, k, b ++ [c], by simp, hk⟩
    · exact ⟨cs, c, [], by simp, hk⟩

/-- What holds of a dead task as long as no quantum ends on it. -/
theorem dead_after (h : s.Ok) {t : ℕ} (ht : t < s.taskCount) (hd : s.state t = .dead)
    {cs : List Call} (hcs : Machine.Admits (Scheduler.step kstacks) NoDeadSwitch s cs) :
    t < (Machine.after (Scheduler.step kstacks) s cs).taskCount ∧
      (Machine.after (Scheduler.step kstacks) s cs).state t = .dead ∧
      (s.curTask ≠ t → (Machine.after (Scheduler.step kstacks) s cs).curTask ≠ t) := by
  have hinv := Machine.invariant
    (I := fun x : Scheduler => x.Ok ∧ t < x.taskCount ∧ x.state t = .dead ∧
      (s.curTask ≠ t → x.curTask ≠ t))
    (fun x c ⟨hok, hlt, hdx, hcur⟩ hc => by
      obtain ⟨hd', hlt', hcur'⟩ := step_dead hok hc hlt hdx
      exact ⟨hok.step c, hlt', hd', fun hne => hcur' (hcur hne)⟩)
    ⟨h, ht, hd, id⟩ hcs
  exact hinv.2

/-- **Killed tasks stay dead over a run exactly when no quantum ends while the current task is
dead and another one is not.** -/
theorem staysDead_iff (kstacks : UInt32) (s₀ : Scheduler) (cs : List Call) :
    StaysDead kstacks (schedInit kstacks s₀) cs ↔
      Machine.Admits (Scheduler.step kstacks) NoDeadSwitch (schedInit kstacks s₀) cs := by
  constructor
  · intro h
    rw [Machine.admits_iff]
    rintro a c rest rfl hexp hd
    by_contra hall
    -- the current task was killed, and the switch away from it makes it ready
    have hok : (Machine.after (Scheduler.step kstacks) (schedInit kstacks s₀) a).Ok :=
      after_ok (schedInit_ok s₀) a
    obtain ⟨b, k, b', rfl, hk⟩ := exists_kill s₀ a hok hd
    obtain ⟨⟨esp, rfl⟩, hq⟩ := hexp
    have hdead := (h b k (b' ++ [.tick esp]) rest (by simp) _ hk).1
    dsimp only at hdead
    rw [← List.cons_append, ← List.append_assoc, Machine.after_concat] at hdead
    rcases tick_cases (Machine.after (Scheduler.step kstacks) (schedInit kstacks s₀)
      (b ++ k :: b')) esp with ⟨hstay, -⟩ | ⟨-, -, -, -, hstate⟩
    · push Not at hall
      obtain ⟨u, hu, hlive⟩ := hall
      have hnext := hok.next_alive hu (not_not.mp fun hn => hlive (Scheduler.not_alive.mp hn))
      rcases hstay with hgo | hsame
      · omega
      · rw [hsame] at hnext
        exact Scheduler.not_alive.mpr hd hnext
    · simp only [Scheduler.step, hstate] at hdead
      split_ifs at hdead
  · rintro h a c b rest rfl st t hk
    obtain ⟨hac, -⟩ := Machine.admits_append.mp h
    obtain ⟨-, hc⟩ := Machine.admits_append.mp hac
    have hok : (Machine.after (Scheduler.step kstacks) (schedInit kstacks s₀) a).Ok :=
      after_ok (schedInit_ok s₀) a
    obtain ⟨hd, ht⟩ := hk.dead hok
    have hst : ∀ b, st (a ++ c :: b) =
        Machine.after (Scheduler.step kstacks) ((st a).step kstacks c) b := fun b => by
      rw [show st (a ++ c :: b) = _ from Machine.after_append ..]
      rfl
    refine ⟨?_, ?_⟩
    · rw [hst]
      exact (dead_after (hok.step c) ht hd hc.2).2.1
    · rintro b₁ e b₂ rfl he
      obtain ⟨hb₁, hb₂⟩ := Machine.admits_append.mp hc.2
      have hdb := dead_after (hok.step c) ht hd hb₁
      rw [hst] at he ⊢
      rw [Machine.after_append]
      -- when the quantum ends the task is not the current one, and it does not become it
      have hne := he.ne hb₂.1 hdb.2.1
      exact (dead_after (after_ok (hok.step c) b₁) hdb.1 hdb.2.1 hb₂).2.2 hne

/-- The scheduler's variables before `sched_init`. -/
def Scheduler.zero : Scheduler := ⟨fun _ => ⟨0, 0, .dead, 0, 0, 0⟩, 0, 0, 0, fun _ => 0, 0⟩

/-- **A killed current task is brought back**: a second task is added, the current one is killed,
and the switch at the end of its quantum marks it ready. -/
theorem killed_current_revives :
    ¬ StaysDead 0 (schedInit 0 .zero)
      (.addTask 0xDEAD0000 0xBEEF0000 :: .killCurrent :: List.replicate 20 (.tick 0xA000)) := by
  intro h
  have hdead := (h [.addTask 0xDEAD0000 0xBEEF0000] .killCurrent (List.replicate 20 (.tick 0xA000))
    [] rfl 0 (.inr ⟨rfl, rfl⟩)).1
  revert hdead
  decide +kernel

end WarkRune.Sched
