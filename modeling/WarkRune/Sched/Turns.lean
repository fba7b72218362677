import WarkRune.Sched.Dead

/-!
# Round robin

Tasks run in turns. A turn begins when `sched_tick` switches to the task. The search for the next
task goes round the table from behind the current one, so between two turns of a task each other
task that lives throughout has one turn.

## Main definitions

* `turns kstacks s cs`: the tasks whose turns begin over the run
* `Before t x y`: going round the table from behind `t`, `x` comes before `y`
* `InRound`: where a task stands in a round

## Main results

* `next_before`: the search passes over no living task
* `round_spec`: which turns have begun in a round
* `round_once`: between two turns of a task, every other task that lives throughout has one
-/

namespace WarkRune.Sched

variable {kstacks : UInt32} {s s₀ : Scheduler}

/-- The call does not kill the current task. -/
def SparesCurrent (s : Scheduler) (c : Call) : Prop :=
  c ≠ .killCurrent ∧ ∀ id, c = .killTask id → id.toNat ≠ s.curTask

/-- The task is in the table and not dead. -/
def Scheduler.Present (s : Scheduler) (u : ℕ) : Prop := u < s.taskCount ∧ s.Alive u

/-- The turn that begins with the call. -/
def Scheduler.turn (kstacks : UInt32) (s : Scheduler) (c : Call) : List ℕ :=
  if (s.step kstacks c).curTask = s.curTask then [] else [(s.step kstacks c).curTask]

/-- The turns that begin over the run. -/
def turns (kstacks : UInt32) (s : Scheduler) (cs : List Call) : List ℕ :=
  Machine.outputs (Scheduler.step kstacks) (Scheduler.turn kstacks) s cs

theorem turns_concat (s : Scheduler) (cs : List Call) (c : Call) :
    turns kstacks s (cs ++ [c]) =
      turns kstacks s cs ++ (Machine.after (Scheduler.step kstacks) s cs).turn kstacks c :=
  Machine.outputs_concat s cs c

/-! ## The order of the search -/

/-- Going round the table from behind `t`, `x` comes before `y`. -/
def Before (t x y : ℕ) : Prop := t < x ∧ (x < y ∨ y ≤ t) ∨ x ≤ t ∧ x < y ∧ y ≤ t

/-- **The search passes over no living task.** -/
theorem next_before (h : s.Ok) {u : ℕ} (hu : s.Present u) (hne : u ≠ s.next) :
    Before s.curTask s.next u := by
  obtain ⟨hlt, ha⟩ := hu
  have hc : s.curTask < s.taskCount := h
  obtain ⟨v, hv⟩ : ∃ v, v = s.next := ⟨_, rfl⟩
  rw [← hv] at hne ⊢
  have hfind : ((List.range' 1 s.taskCount).map fun i => (s.curTask + i) % s.taskCount).find?
      (fun candidate => s.Alive candidate) = some v := by
    rw [hv, Scheduler.next]
    cases hf : ((List.range' 1 s.taskCount).map fun i => (s.curTask + i) % s.taskCount).find?
        fun candidate => s.Alive candidate with
    | none =>
      have hn := List.find?_eq_none.mp hf u (h.exists_candidate hlt)
      simp [ha] at hn
    | some w => rfl
  obtain ⟨-, i, hi, hvi, hbefore⟩ := List.find?_eq_some_iff_getElem.mp hfind
  rw [List.length_map, List.length_range'] at hi
  simp only [List.getElem_map, List.getElem_range'] at hvi hbefore
  -- `u` is the candidate of another round, and not of an earlier one
  obtain ⟨j, hj, hju⟩ : ∃ j < s.taskCount, (s.curTask + (1 + 1 * j)) % s.taskCount = u := by
    obtain ⟨k, hk, rfl⟩ := List.mem_map.mp (h.exists_candidate hlt)
    obtain ⟨hk₁, hk₂⟩ := List.mem_range'_1.mp hk
    exact ⟨k - 1, by omega, by rw [show s.curTask + (1 + 1 * (k - 1)) = s.curTask + k by omega]⟩
  have hij : i < j := by
    rcases Nat.lt_trichotomy i j with hij | rfl | hji
    · exact hij
    · exact absurd (hju.symm.trans hvi) hne
    · have hno := hbefore j hji
      rw [hju] at hno
      simp [ha] at hno
  have hmod : ∀ k < s.taskCount, (s.curTask + (1 + 1 * k)) % s.taskCount =
      if s.curTask + 1 + k < s.taskCount then s.curTask + 1 + k
      else s.curTask + 1 + k - s.taskCount := by
    intro k hk
    rw [show s.curTask + (1 + 1 * k) = s.curTask + 1 + k by omega]
    split
    · next hlt => exact Nat.mod_eq_of_lt hlt
    · next hge =>
      rw [Nat.mod_eq_sub_mod (by omega), Nat.mod_eq_of_lt (by omega)]
  rw [hmod i hi] at hvi
  rw [hmod j hj] at hju
  unfold Before
  split_ifs at hvi hju <;> omega

/-! ## The running task -/

/-- The current task is one of the table's, and it is the one that runs. -/
structure Scheduler.OneRunning (s : Scheduler) : Prop where
  current : s.Ok
  running : ∀ i < s.taskCount, s.state i = .running ↔ i = s.curTask

theorem schedInit_oneRunning (s₀ : Scheduler) : (schedInit kstacks s₀).OneRunning where
  current := schedInit_ok s₀
  running i hi := by
    obtain rfl : i = 0 := Nat.lt_one_iff.mp hi
    simp [schedInit, Scheduler.state, Scheduler.setTask]

/-- What `sched_add_task` does to the states. -/
theorem state_addTask (s : Scheduler) (entry userEsp : UInt32) (i : ℕ) (hi : i ≠ s.taskCount) :
    (schedAddTask kstacks entry userEsp s).2.state i = s.state i := by
  unfold schedAddTask
  split
  · rfl
  · exact (Scheduler.state_setTask s s.taskCount i _).trans (if_neg hi)

/-- **The current task is the only one that runs**, as long as it is not killed. -/
theorem Scheduler.OneRunning.step (h : s.OneRunning) {c : Call} (hc : SparesCurrent s c) :
    (s.step kstacks c).OneRunning := by
  refine ⟨h.current.step c, fun i hi => ?_⟩
  -- only the end of a quantum moves the current task, and it hands its state on with it
  have hcur : s.curTask < s.taskCount := h.current
  cases c with
  | tick esp =>
    rcases tick_cases s esp with ⟨-, hcur', hn, hstate⟩ | ⟨-, hne, hcur', hn, hstate⟩
    · simp only [Scheduler.step, hcur', hn, hstate] at hi ⊢
      exact h.running i hi
    · simp only [Scheduler.step, hcur', hn, hstate] at hi ⊢
      split_ifs with h₁ h₂
      · simpa using h₁
      · simpa using h₁
      · rw [h.running i hi]
        exact iff_of_false h₂ h₁
  | addTask entry userEsp =>
    by_cases hroom : s.taskCount ≥ maxTasks
    · simp only [Scheduler.step, schedAddTask, if_pos hroom] at hi ⊢
      exact h.running i hi
    by_cases hlast : i = s.taskCount
    · simp only [Scheduler.step, schedAddTask, if_neg hroom]
      subst hlast
      refine iff_of_false ?_ (Nat.ne_of_gt hcur)
      simp [Scheduler.state, Scheduler.setTask]
    · simp only [Scheduler.step] at hi ⊢
      rw [state_addTask s entry userEsp i hlast]
      simp only [schedAddTask, if_neg hroom] at hi ⊢
      exact h.running i (by have : i < s.taskCount + 1 := hi; omega)
  | killTask id =>
    simp only [Scheduler.step, schedKillTask] at hi ⊢
    split
    · next hid =>
      rw [if_pos hid] at hi
      rw [Scheduler.state_setState]
      split
      · next hii => exact iff_of_false (by decide) fun hic => hc.2 id rfl (hii.symm.trans hic)
      · exact h.running i hi
    · next hid =>
      rw [if_neg hid] at hi
      exact h.running i hi
  | killCurrent => exact absurd rfl hc.1

theorem Scheduler.OneRunning.not_dead (h : s.OneRunning) : s.state s.curTask ≠ .dead := by
  rw [(h.running _ h.current).mpr rfl]
  nofun

/-- A task that is not dead after a call, and was in the table, was not dead before. -/
theorem Scheduler.OneRunning.present_of_step (h : s.OneRunning) {c : Call} {u : ℕ}
    (hu : u < s.taskCount) (ha : (s.step kstacks c).Alive u) : s.Present u := by
  refine ⟨hu, ?_⟩
  by_contra hd
  have hdead : (s.step kstacks c).state u = .dead :=
    (step_dead h.current (fun _ hcur => absurd hcur h.not_dead) hu (Scheduler.not_alive.mp hd)).1
  exact Scheduler.not_alive.mpr hdead ha

/-- The table only grows. -/
theorem taskCount_le_step (s : Scheduler) (c : Call) : s.taskCount ≤ (s.step kstacks c).taskCount := by
  cases c with
  | tick esp =>
    rcases tick_cases s esp with ⟨-, -, hn, -⟩ | ⟨-, -, -, hn, -⟩ <;> exact Nat.le_of_eq hn.symm
  | addTask entry userEsp =>
    simp only [Scheduler.step, schedAddTask]
    split
    · exact le_rfl
    · exact Nat.le_succ _
  | killTask id =>
    simp only [Scheduler.step, schedKillTask]
    split <;> exact le_rfl
  | killCurrent => exact le_rfl

/-! ## Rounds -/

/-- A call begins no turn, or it is a tick that switches to the next task. -/
theorem turn_cases (kstacks : UInt32) (s : Scheduler) (c : Call) :
    ((s.step kstacks c).curTask = s.curTask ∧ s.turn kstacks c = []) ∨
      ((∃ esp, c = .tick esp) ∧ s.next ≠ s.curTask ∧ (s.step kstacks c).curTask = s.next ∧
        s.turn kstacks c = [s.next]) := by
  by_cases hsame : (s.step kstacks c).curTask = s.curTask
  · exact .inl ⟨hsame, if_pos hsame⟩
  · right
    cases c with
    | tick esp =>
      rcases tick_cases s esp with ⟨-, hcur, -⟩ | ⟨-, hne, hcur, -⟩
      · exact absurd hcur hsame
      · refine ⟨⟨esp, rfl⟩, hne, hcur, ?_⟩
        rw [Scheduler.turn, if_neg hsame]
        exact congrArg (fun x => [x]) hcur
    | addTask entry userEsp =>
      refine absurd ?_ hsame
      simp only [Scheduler.step, schedAddTask]
      split <;> rfl
    | killTask id =>
      refine absurd ?_ hsame
      simp only [Scheduler.step, schedKillTask]
      split <;> rfl
    | killCurrent => exact absurd rfl hsame

/-- Where the task `u` stands when the turns `w` have begun since a turn of `t`, and `k` is the
current task: no turn has begun, or `u` has had one turn and is not behind `k`, or it has had none
and is behind. -/
def InRound (t u : ℕ) (w : List ℕ) (k : ℕ) : Prop :=
  w = [] ∧ k = t ∨
    k ≠ t ∧ (w.count u = 1 ∧ (u = k ∨ Before t u k) ∨ w.count u = 0 ∧ Before t k u)

/-- A switch to the first living task behind the current one. -/
theorem InRound.switch {t u k v : ℕ} {w : List ℕ} (h : InRound t u w k) (hut : u ≠ t) (hvt : v ≠ t)
    (hbt : Before k v t) (hbu : u ≠ v → Before k v u) : InRound t u (w ++ [v]) v := by
  have hself : u = v → (w ++ [v]).count u = w.count u + 1 := by
    intro huv
    rw [List.count_append, List.count_singleton, if_pos (by simp [huv])]
  have hother : u ≠ v → (w ++ [v]).count u = w.count u := by
    intro huv
    rw [List.count_append, List.count_singleton, if_neg (by simp [Ne.symm huv]), Nat.add_zero]
  refine .inr ⟨hvt, ?_⟩
  unfold InRound at h
  unfold Before at *
  rcases h with ⟨rfl, rfl⟩ | ⟨hkt, ⟨hcount, hbefore⟩ | ⟨hcount, hbefore⟩⟩
  · by_cases huv : u = v
    · exact .inl ⟨(hself huv).trans (by rw [List.count_nil]), .inl huv⟩
    · have := hbu huv
      exact .inr ⟨(hother huv).trans List.count_nil, by omega⟩
  · -- the task has had its turn, and the search does not come round to it
    have huv : u ≠ v := by omega
    exact .inl ⟨(hother huv).trans hcount, .inr (by omega)⟩
  · by_cases huv : u = v
    · exact .inl ⟨(hself huv).trans (by rw [hcount]), .inl huv⟩
    · have := hbu huv
      exact .inr ⟨(hother huv).trans hcount, by omega⟩

/-- **The turns of a round**, for a task that lives throughout. -/
theorem round_spec {t u : ℕ} (hut : u ≠ t) (h : s.OneRunning) (ht : s.curTask = t)
    {cs : List Call} (hok : Machine.Admits (Scheduler.step kstacks) SparesCurrent s cs)
    (hlive : ∀ p, p <+: cs → (Machine.after (Scheduler.step kstacks) s p).Present t ∧
      (Machine.after (Scheduler.step kstacks) s p).Present u)
    (hno : t ∉ turns kstacks s cs) :
    InRound t u (turns kstacks s cs) (Machine.after (Scheduler.step kstacks) s cs).curTask := by
  -- by induction on the calls from the end: a switch goes on to the next ready task
  induction cs using List.reverseRecOn with
  | nil => exact .inl ⟨rfl, ht⟩
  | append_singleton cs c ih =>
    obtain ⟨hcs, -⟩ := Machine.admits_append.mp hok
    obtain ⟨q, hq⟩ : ∃ q, q = Machine.after (Scheduler.step kstacks) s cs := ⟨_, rfl⟩
    have hrun : q.OneRunning := by
      rw [hq]
      exact Machine.invariant (fun _ _ hi hc => hi.step hc) h hcs
    obtain ⟨hpt, hpu⟩ := hlive cs (List.prefix_append _ _)
    rw [turns_concat, ← hq, List.mem_append, not_or] at hno
    rw [turns_concat, Machine.after_concat, ← hq]
    replace ih := ih hcs (fun p hp => hlive p (hp.trans (List.prefix_append _ _))) hno.1
    rw [← hq] at ih hpt hpu
    rcases turn_cases kstacks q c with ⟨hcur, hturn⟩ | ⟨-, hne, hcur, hturn⟩
    · rw [hturn, hcur, List.append_nil]
      exact ih
    · have hnt : q.next ≠ t := by
        intro he
        rw [hturn, he] at hno
        exact hno.2 (List.mem_singleton_self t)
      rw [hturn, hcur]
      apply ih.switch hut hnt (next_before hrun.current hpt (Ne.symm hnt))
      exact next_before hrun.current hpu

/-- A task that is present after a run, and was in the table before, was present before. -/
theorem present_of_after (h : s.OneRunning) {cs : List Call}
    (hok : Machine.Admits (Scheduler.step kstacks) SparesCurrent s cs) {u : ℕ}
    (hu : u < s.taskCount) (ha : (Machine.after (Scheduler.step kstacks) s cs).Alive u) :
    s.Present u := by
  induction cs generalizing s with
  | nil => exact ⟨hu, ha⟩
  | cons c cs ih =>
    obtain ⟨hc, hcs⟩ := hok
    have hle : s.taskCount ≤ (s.step kstacks c).taskCount := taskCount_le_step s c
    have hu' := Nat.lt_of_lt_of_le hu hle
    exact h.present_of_step hu (ih (h.step hc) hcs hu' ha).2

theorem taskCount_le_after (s : Scheduler) (cs : List Call) :
    s.taskCount ≤ (Machine.after (Scheduler.step kstacks) s cs).taskCount :=
  Machine.invariant_of_forall (I := fun r : Scheduler => s.taskCount ≤ r.taskCount)
    (fun r c h => Nat.le_trans h (taskCount_le_step r c)) (Nat.le_refl _) cs

/-- **A round**: when the next turn of `t` begins, every other task that lived throughout has had
one turn. -/
theorem round_once (h : s.OneRunning) {cs : List Call} {c : Call} {t u : ℕ} (ht : s.curTask = t)
    (hok : Machine.Admits (Scheduler.step kstacks) SparesCurrent s cs)
    (hno : t ∉ turns kstacks s cs)
    (hnext : (Machine.after (Scheduler.step kstacks) s cs).turn kstacks c = [t]) (hut : u ≠ t)
    (hlive : ∀ p, p <+: cs → (Machine.after (Scheduler.step kstacks) s p).Present u) :
    (turns kstacks s cs).count u = 1 := by
  have hrun : ∀ p, p <+: cs → (Machine.after (Scheduler.step kstacks) s p).OneRunning := by
    rintro p ⟨q, rfl⟩
    exact Machine.invariant (fun _ _ hi hc => hi.step hc) h (Machine.admits_append.mp hok).1
  obtain ⟨r, hr⟩ : ∃ r, r = Machine.after (Scheduler.step kstacks) s cs := ⟨_, rfl⟩
  have hrr : r.OneRunning := hr ▸ hrun cs (List.prefix_refl _)
  rw [← hr] at hnext
  rcases turn_cases kstacks r c with ⟨-, hnil⟩ | ⟨-, hne, hcur, hturn⟩
  · rw [hnil] at hnext
    cases hnext
  have hrt : r.next = t := List.singleton_inj.mp (hturn.symm.trans hnext)
  -- the task is alive when its next turn begins, so it was alive throughout
  have halive : r.Alive t := hrt ▸ Scheduler.alive_next hne
  have hlt : t < s.taskCount := ht ▸ h.current
  have hpresent : ∀ p, p <+: cs → (Machine.after (Scheduler.step kstacks) s p).Present t := by
    rintro p ⟨q, rfl⟩
    obtain ⟨-, hq⟩ := Machine.admits_append.mp hok
    rw [hr, Machine.after_append] at halive
    exact present_of_after (hrun p (List.prefix_append _ _)) hq
      (Nat.lt_of_lt_of_le hlt (taskCount_le_after s p)) halive
  have hround := round_spec hut h ht hok (fun p hp => ⟨hpresent p hp, hlive p hp⟩) hno
  rw [← hr] at hround
  rcases hround with ⟨-, hcur'⟩ | ⟨-, ⟨hcount, -⟩ | ⟨-, hbefore⟩⟩
  · exact absurd (hrt.trans hcur'.symm) hne
  · exact hcount
  · -- a living task behind the current one would have been met first
    have hpu := hlive cs (List.prefix_refl _)
    rw [← hr] at hpu
    have hb := next_before hrr.current hpu (by rw [hrt]; exact hut)
    rw [hrt] at hb
    unfold Before at hb hbefore
    omega

end WarkRune.Sched
