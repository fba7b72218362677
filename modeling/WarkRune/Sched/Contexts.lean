import WarkRune.Sched.Turns

/-!
# Stack pointers across switches

`sched_tick` stores the stack pointer it is called with in the current task, and a switch returns
the one stored in the next task. So a task resumes with the stack pointer of the last tick that was
made while it was current, or with the one of the frame `sched_add_task` built.

## Main definitions

* `Resumes`: the stack pointer a task resumes with
* `Kept`: what a run keeps of the stacks and the quantum
* `RoundRobin`: what holds after a run

## Main results

* `push_spec`: pushing words stores them below the stack pointer and nothing else
* `Kept.step`: every call that spares the current task keeps what is kept
* `round_robin`: every run in which only other tasks are killed is round robin
-/

namespace WarkRune.Sched

variable {kstacks : UInt32} {s s₀ : Scheduler}

/-! ## What a call does to the stack pointers -/

/-- Setting the state of a task leaves its other fields alone. -/
theorem field_setState {f : Task → UInt32} (hf : ∀ t x, f { t with state := x } = f t)
    (s : Scheduler) (i j : ℕ) (x : TaskState) : f ((s.setState j x).tasks i) = f (s.tasks i) := by
  by_cases hij : i = j
  · subst hij
    exact (congrArg f (Function.update_self ..)).trans (hf _ x)
  · exact congrArg f (Function.update_of_ne hij ..)

theorem esp_tick (s : Scheduler) (esp : UInt32) (i : ℕ) :
    ((schedTick esp s).2.tasks i).esp = if i = s.curTask then esp else (s.tasks i).esp := by
  have hsave : ((s.save esp).tasks i).esp = if i = s.curTask then esp else (s.tasks i).esp := by
    by_cases hi : i = s.curTask <;> simp [Scheduler.save, Scheduler.setTask, hi]
  have hset := field_setState (f := Task.esp) fun _ _ => rfl
  rw [schedTick_eq, ← hsave]
  split_ifs
  · rfl
  · rfl
  · exact (hset _ i _ _).trans (hset _ i _ _)

theorem esp0_tick (s : Scheduler) (esp : UInt32) (i : ℕ) :
    ((schedTick esp s).2.tasks i).esp0 = (s.tasks i).esp0 := by
  have hsave : ((s.save esp).tasks i).esp0 = (s.tasks i).esp0 := by
    by_cases hi : i = s.curTask <;> simp [Scheduler.save, Scheduler.setTask, hi]
  have hset := field_setState (f := Task.esp0) fun _ _ => rfl
  rw [schedTick_eq, ← hsave]
  split_ifs
  · rfl
  · rfl
  · exact (hset _ i _ _).trans (hset _ i _ _)

theorem mem_tick (s : Scheduler) (esp : UInt32) : (schedTick esp s).2.mem = s.mem := by
  rw [schedTick_eq]
  split_ifs <;> rfl

theorem ticksLeft_tick (s : Scheduler) (esp : UInt32) : (schedTick esp s).2.ticksLeft =
    if s.ticksLeft - 1 > 0 then s.ticksLeft - 1 else quantumTicks := by
  rw [schedTick_eq]
  split_ifs <;> rfl

/-- A tick that does not end the quantum. -/
theorem tick_stays {esp : UInt32} (h : s.ticksLeft - 1 > 0) :
    (schedTick esp s).1 = esp ∧ (schedTick esp s).2.curTask = s.curTask := by
  rw [schedTick_eq, if_pos h]
  exact ⟨rfl, rfl⟩

/-- **A tick that switches** resumes the next task. -/
theorem tick_switches {esp : UInt32} (h : (schedTick esp s).2.curTask ≠ s.curTask) :
    (schedTick esp s).2.curTask = s.next ∧ (schedTick esp s).1 = (s.tasks s.next).esp ∧
      (schedTick esp s).2.tssEsp0 = (s.tasks s.next).esp0 := by
  rw [schedTick_eq] at h ⊢
  split_ifs at h ⊢
  · exact absurd rfl h
  · exact absurd rfl h
  · exact ⟨rfl, rfl, rfl⟩

/-! ## The initial frame -/

/-- The words `ws` lie below `top`, from the top down, and `sp` points to the last one. -/
def Frame (m : UInt32 → UInt32) (top sp : UInt32) (ws : List UInt32) : Prop :=
  sp = top - 4 * UInt32.ofNat ws.length ∧
    ∀ i < ws.length, m (top - 4 * UInt32.ofNat (i + 1)) = ws.getD i 0

theorem ofNat_mul_four_inj {i j : ℕ} (hi : i < 2 ^ 30) (hj : j < 2 ^ 30)
    (h : (4 : UInt32) * UInt32.ofNat i = 4 * UInt32.ofNat j) : i = j := by
  have hn := congrArg UInt32.toNat h
  simp only [UInt32.toNat_mul, UInt32.toNat_ofNat'] at hn
  rw [show (4 : UInt32).toNat = 4 from rfl, Nat.mod_eq_of_lt (show i < 2 ^ 32 by omega),
    Nat.mod_eq_of_lt (show j < 2 ^ 32 by omega), Nat.mod_eq_of_lt (by omega),
    Nat.mod_eq_of_lt (by omega)] at hn
  omega

/-- **Pushing words** stores them below the stack pointer and nothing else. -/
theorem push_spec (ws : List UInt32) (hws : ws.length < 2 ^ 30) (top : UInt32)
    (m : UInt32 → UInt32) :
    Frame (ws.foldl push (top, m)).2 top (ws.foldl push (top, m)).1 ws ∧
      ∀ a, (∀ i < ws.length, a ≠ top - 4 * UInt32.ofNat (i + 1)) →
        (ws.foldl push (top, m)).2 a = m a := by
  induction ws generalizing top m with
  | nil => exact ⟨⟨by simp, nofun⟩, fun _ _ => rfl⟩
  | cons w ws ih =>
    rw [List.length_cons] at hws
    obtain ⟨⟨hsp, hmem⟩, hother⟩ := ih (by omega) (top - 4) (Function.update m (top - 4) w)
    -- the words pushed after the first one lie one word lower
    have hstep : ∀ i, top - 4 - 4 * UInt32.ofNat i = top - 4 * UInt32.ofNat (i + 1) := by
      intro i
      rw [UInt32.ofNat_add]
      grind
    rw [List.foldl_cons]
    refine ⟨⟨hsp.trans (hstep _), fun i hi => ?_⟩, fun a ha => ?_⟩
    · cases i with
      | zero =>
        refine (hother _ fun j hj he => ?_).trans ?_
        · rw [hstep] at he
          have hj0 : (4 : UInt32) * UInt32.ofNat (0 + 1) = 4 * UInt32.ofNat (j + 1 + 1) := by grind
          exact absurd (ofNat_mul_four_inj (by omega) (by omega) hj0) (by omega)
        · exact Function.update_self ..
      | succ i =>
        rw [← hstep]
        exact hmem i (Nat.lt_of_succ_lt_succ hi)
    · rw [push, hother a fun i hi => ?_]
      · exact Function.update_of_ne (ha 0 (Nat.succ_pos _)) ..
      · rw [hstep]
        exact ha (i + 1) (Nat.succ_lt_succ hi)

/-- Words on two kernel stacks lie at different addresses. -/
theorem stackTop_apart {t u i j : ℕ} (ht : t < maxTasks) (hu : u < maxTasks) (htu : t ≠ u)
    (hi : i < 13) (hj : j < 13) :
    stackTop kstacks t - 4 * UInt32.ofNat (i + 1) ≠ stackTop kstacks u - 4 * UInt32.ofNat (j + 1) := by
  intro he
  have hsum : UInt32.ofNat t * kstackSize + 4 * UInt32.ofNat (j + 1) =
      UInt32.ofNat u * kstackSize + 4 * UInt32.ofNat (i + 1) := by
    unfold stackTop at he
    grind
  have hn := congrArg UInt32.toNat hsum
  have hmax : maxTasks = 4 := rfl
  simp only [UInt32.toNat_add, UInt32.toNat_mul, UInt32.toNat_ofNat', kstackSize,
    UInt32.reduceToNat] at hn
  omega

/-! ## The stack pointer a task resumes with -/

/-- No tick was made while the task was current. -/
def NoTickOf (kstacks : UInt32) (s : Scheduler) (t : ℕ) (cs : List Call) : Prop :=
  ∀ a e b, cs = a ++ .tick e :: b → (Machine.after (Scheduler.step kstacks) s a).curTask ≠ t

/-- The last tick made while the task was current was made with the stack pointer `e`. -/
def LastTick (kstacks : UInt32) (s : Scheduler) (t : ℕ) (cs : List Call) (e : UInt32) : Prop :=
  ∃ a b, cs = a ++ .tick e :: b ∧ (Machine.after (Scheduler.step kstacks) s a).curTask = t ∧
    NoTickOf kstacks (Machine.after (Scheduler.step kstacks) s (a ++ [.tick e])) t b

/-- The task was added, and `e` points to the frame that was built for it. -/
def AtFrame (kstacks : UInt32) (s : Scheduler) (t : ℕ) (cs : List Call) (e : UInt32) : Prop :=
  ∃ a entry userEsp b, cs = a ++ .addTask entry userEsp :: b ∧
    (schedAddTask kstacks entry userEsp (Machine.after (Scheduler.step kstacks) s a)).1.1 = t ∧
    Frame (Machine.after (Scheduler.step kstacks) s cs).mem (stackTop kstacks t) e
      (initialFrame entry userEsp)

/-- **The stack pointer a task resumes with** after the calls: the one of the last tick while it
was current, or the one of its initial frame. -/
def Resumes (kstacks : UInt32) (s : Scheduler) (t : ℕ) (cs : List Call) (e : UInt32) : Prop :=
  LastTick kstacks s t cs e ∨ NoTickOf kstacks s t cs ∧ AtFrame kstacks s t cs e

section Concat

variable {cs : List Call} {c : Call} {t : ℕ} {e : UInt32}

theorem NoTickOf.nil (s : Scheduler) (t : ℕ) : NoTickOf kstacks s t [] := by
  intro a e b h
  simp at h

theorem NoTickOf.concat (h : NoTickOf kstacks s t cs)
    (hc : ∀ e, c = .tick e → (Machine.after (Scheduler.step kstacks) s cs).curTask ≠ t) :
    NoTickOf kstacks s t (cs ++ [c]) := by
  intro a e b hab
  rcases List.eq_nil_or_concat b with rfl | ⟨b, d, rfl⟩
  · obtain ⟨rfl, hce⟩ := List.append_inj' hab rfl
    exact hc e (List.singleton_inj.mp hce)
  · rw [List.concat_eq_append, ← List.cons_append, ← List.append_assoc] at hab
    exact h a e b (List.append_inj' hab rfl).1

theorem LastTick.concat (h : LastTick kstacks s t cs e)
    (hc : ∀ e, c = .tick e → (Machine.after (Scheduler.step kstacks) s cs).curTask ≠ t) :
    LastTick kstacks s t (cs ++ [c]) e := by
  obtain ⟨a, b, rfl, ha, hb⟩ := h
  refine ⟨a, b ++ [c], by simp, ha, hb.concat fun f hf => ?_⟩
  have hne := hc f hf
  rwa [← Machine.after_append, List.append_assoc]

theorem LastTick.tick (h : (Machine.after (Scheduler.step kstacks) s cs).curTask = t) :
    LastTick kstacks s t (cs ++ [.tick e]) e :=
  ⟨cs, [], rfl, h, .nil _ t⟩

theorem AtFrame.concat (h : AtFrame kstacks s t cs e)
    (hmem : ∀ i < 13, (Machine.after (Scheduler.step kstacks) s (cs ++ [c])).mem
      (stackTop kstacks t - 4 * UInt32.ofNat (i + 1)) =
        (Machine.after (Scheduler.step kstacks) s cs).mem
          (stackTop kstacks t - 4 * UInt32.ofNat (i + 1))) :
    AtFrame kstacks s t (cs ++ [c]) e := by
  obtain ⟨a, entry, userEsp, b, hcs, ha, hsp, hframe⟩ := h
  refine ⟨a, entry, userEsp, b ++ [c], by simp [hcs], ha, hsp, fun i hi => ?_⟩
  rw [hmem i hi]
  exact hframe i hi

theorem Resumes.concat (h : Resumes kstacks s t cs e)
    (hc : ∀ e, c = .tick e → (Machine.after (Scheduler.step kstacks) s cs).curTask ≠ t)
    (hmem : ∀ i < 13, (Machine.after (Scheduler.step kstacks) s (cs ++ [c])).mem
      (stackTop kstacks t - 4 * UInt32.ofNat (i + 1)) =
        (Machine.after (Scheduler.step kstacks) s cs).mem
          (stackTop kstacks t - 4 * UInt32.ofNat (i + 1))) :
    Resumes kstacks s t (cs ++ [c]) e := by
  rcases h with h | ⟨hno, hframe⟩
  · exact .inl (h.concat hc)
  · exact .inr ⟨hno.concat hc, hframe.concat hmem⟩

end Concat

/-! ## What a run keeps -/

/-- The call is a tick. -/
def Call.isTick : Call → Bool
  | .tick _ => true
  | _ => false

/-- What the calls leave: the quantum runs on from tick to tick, each task has its kernel stack and
the stack pointer it resumes with, unless it is the first task and has not been left yet. -/
structure Kept (kstacks : UInt32) (s : Scheduler) (cs : List Call) (r : Scheduler) : Prop where
  current : r.Ok
  count : r.taskCount ≤ maxTasks
  quantum : r.ticksLeft = quantumTicks - (cs.countP Call.isTick : ℤ) % quantumTicks
  esp0 : ∀ t < r.taskCount, (r.tasks t).esp0 = stackTop kstacks t
  fresh : ∀ t, r.taskCount ≤ t → NoTickOf kstacks s t cs
  saved : ∀ t < r.taskCount, Resumes kstacks s t cs (r.tasks t).esp ∨
    NoTickOf kstacks s t cs ∧ t = r.curTask

section Kept

variable {cs : List Call} {r : Scheduler} (hr : Machine.after (Scheduler.step kstacks) s cs = r)
  (h : Kept kstacks s cs r)
include hr h

theorem Kept.tick (e : UInt32) : Kept kstacks s (cs ++ [.tick e]) (schedTick e r).2 := by
  have hcur : r.curTask < r.taskCount := h.current
  have hcount : (schedTick e r).2.taskCount = r.taskCount := by
    rcases tick_cases r e with ⟨-, -, hn, -⟩ | ⟨-, -, -, hn, -⟩ <;> exact hn
  have hafter : Machine.after (Scheduler.step kstacks) s (cs ++ [.tick e]) = (schedTick e r).2 := by
    rw [Machine.after_concat, hr]
    rfl
  have hok : (r.step kstacks (.tick e)).Ok := h.current.step (.tick e)
  refine ⟨hok, hcount ▸ h.count, ?_, fun t ht => ?_,
    fun t ht => ?_, fun t ht => .inl ?_⟩
  · rw [ticksLeft_tick, h.quantum, List.countP_append]
    have h1 : List.countP Call.isTick [.tick e] = 1 := rfl
    rw [h1, quantumTicks]
    push_cast
    split <;> omega
  · rw [esp0_tick]
    exact h.esp0 t (hcount ▸ ht)
  · rw [hcount] at ht
    refine (h.fresh t ht).concat fun _ _ => ?_
    rw [hr]
    omega
  · rw [hcount] at ht
    rw [esp_tick]
    split
    · next htc => exact .inl (.tick (by rw [hr, htc]))
    · next htc =>
      -- the task that ran is saved by this tick, the others were before it
      rcases h.saved t ht with hsaved | ⟨-, hcur'⟩
      · refine hsaved.concat (fun _ _ => by rw [hr]; exact Ne.symm htc) fun i _ => ?_
        rw [hafter, hr, mem_tick]
      · exact absurd hcur' htc

theorem Kept.addTask (entry userEsp : UInt32) : Kept kstacks s (cs ++ [.addTask entry userEsp])
    (schedAddTask kstacks entry userEsp r).2 := by
  have hafter : Machine.after (Scheduler.step kstacks) s (cs ++ [.addTask entry userEsp]) =
      (schedAddTask kstacks entry userEsp r).2 := by
    rw [Machine.after_concat, hr]
    rfl
  have hticks : (cs ++ [Call.addTask entry userEsp]).countP Call.isTick = cs.countP Call.isTick := by
    rw [List.countP_append]
    rfl
  have hnot : ∀ {q : Prop} (e : UInt32), Call.addTask entry userEsp = .tick e → q :=
    fun e he => by cases he
  by_cases hfull : r.taskCount ≥ maxTasks
  · have hsame : (schedAddTask kstacks entry userEsp r).2 = r := by
      rw [schedAddTask, if_pos hfull]
    rw [hsame] at hafter ⊢
    refine ⟨h.current, h.count, by rw [hticks, h.quantum], h.esp0,
      fun t ht => (h.fresh t ht).concat hnot, fun t ht => ?_⟩
    rcases h.saved t ht with hsaved | ⟨hno, hcur⟩
    · exact .inl (hsaved.concat hnot fun i _ => by rw [hafter, hr])
    · exact .inr ⟨hno.concat hnot, hcur⟩
  -- there is room: the frame of the new task is pushed on a stack of its own
  have hlt : r.taskCount < maxTasks := Nat.lt_of_not_le hfull
  obtain ⟨hframe, hother⟩ := push_spec (initialFrame entry userEsp) (show 13 < 2 ^ 30 by decide)
    (stackTop kstacks r.taskCount) r.mem
  have hidx : (schedAddTask kstacks entry userEsp r).1.1 = r.taskCount := by
    rw [schedAddTask, if_neg hfull]
  have hcount : (schedAddTask kstacks entry userEsp r).2.taskCount = r.taskCount + 1 := by
    rw [schedAddTask, if_neg hfull]
  have hmem : (schedAddTask kstacks entry userEsp r).2.mem =
      ((initialFrame entry userEsp).foldl push (stackTop kstacks r.taskCount, r.mem)).2 := by
    rw [schedAddTask, if_neg hfull]
  have hold : ∀ t ≠ r.taskCount,
      (schedAddTask kstacks entry userEsp r).2.tasks t = r.tasks t := by
    intro t ht
    rw [schedAddTask, if_neg hfull]
    exact Function.update_of_ne ht ..
  have hnew : (schedAddTask kstacks entry userEsp r).2.tasks r.taskCount =
      ⟨((initialFrame entry userEsp).foldl push (stackTop kstacks r.taskCount, r.mem)).1,
        stackTop kstacks r.taskCount, .ready, UInt32.ofNat r.taskCount, entry, userEsp⟩ := by
    rw [schedAddTask, if_neg hfull]
    exact Function.update_self ..
  have hcur : (schedAddTask kstacks entry userEsp r).2.curTask = r.curTask := by
    rw [schedAddTask, if_neg hfull]
    rfl
  have hok : (r.step kstacks (.addTask entry userEsp)).Ok := h.current.step (.addTask entry userEsp)
  refine ⟨hok, by rw [hcount]; exact hlt, ?_,
    fun t ht => ?_, fun t ht => ?_, fun t ht => ?_⟩
  · rw [hticks, ← h.quantum, schedAddTask, if_neg hfull]
    rfl
  · by_cases htn : t = r.taskCount
    · rw [htn, hnew]
    · rw [hold t htn]
      exact h.esp0 t (by omega)
  · exact (h.fresh t (by omega)).concat hnot
  · by_cases htn : t = r.taskCount
    · refine .inl (.inr ⟨(h.fresh t (Nat.le_of_eq htn.symm)).concat hnot, cs, entry, userEsp, [],
        rfl, ?_, ?_⟩)
      · rw [hr, hidx, htn]
      · rw [hafter, hmem, htn, hnew]
        exact hframe
    · rw [hold t htn, hcur]
      rcases h.saved t (by omega) with hsaved | ⟨hno, htc⟩
      · refine .inl (hsaved.concat hnot fun i hi => ?_)
        rw [hafter, hr, hmem]
        exact hother _ fun j hj => stackTop_apart (by omega) hlt htn hi hj
      · exact .inr ⟨hno.concat hnot, htc⟩

theorem Kept.killTask (id : UInt32) : Kept kstacks s (cs ++ [.killTask id]) (schedKillTask id r) := by
  have hafter : Machine.after (Scheduler.step kstacks) s (cs ++ [.killTask id]) =
      schedKillTask id r := by
    rw [Machine.after_concat, hr]
    rfl
  have hticks : (cs ++ [Call.killTask id]).countP Call.isTick = cs.countP Call.isTick := by
    rw [List.countP_append]
    rfl
  have hnot : ∀ {q : Prop} (e : UInt32), Call.killTask id = .tick e → q := fun e he => by cases he
  have hesp : ∀ t, ((schedKillTask id r).tasks t).esp = (r.tasks t).esp := by
    intro t
    rw [schedKillTask]
    split
    · exact field_setState (fun _ _ => rfl) r t id.toNat .dead
    · rfl
  have hesp0 : ∀ t, ((schedKillTask id r).tasks t).esp0 = (r.tasks t).esp0 := by
    intro t
    rw [schedKillTask]
    split
    · exact field_setState (fun _ _ => rfl) r t id.toNat .dead
    · rfl
  have hrest : (schedKillTask id r).taskCount = r.taskCount ∧
      (schedKillTask id r).curTask = r.curTask ∧ (schedKillTask id r).mem = r.mem ∧
      (schedKillTask id r).ticksLeft = r.ticksLeft := by
    rw [schedKillTask]
    split <;> exact ⟨rfl, rfl, rfl, rfl⟩
  obtain ⟨hcount, hcur, hmem, hleft⟩ := hrest
  have hok : (r.step kstacks (.killTask id)).Ok := h.current.step (.killTask id)
  refine ⟨hok, hcount ▸ h.count, ?_, fun t ht => ?_,
    fun t ht => ?_, fun t ht => ?_⟩
  · rw [hticks, hleft, h.quantum]
  · rw [hesp0]
    exact h.esp0 t (hcount ▸ ht)
  · exact (h.fresh t (hcount ▸ ht)).concat hnot
  · rw [hesp, hcur]
    rcases h.saved t (hcount ▸ ht) with hsaved | ⟨hno, htc⟩
    · exact .inl (hsaved.concat hnot fun i _ => by rw [hafter, hr, hmem])
    · exact .inr ⟨hno.concat hnot, htc⟩

end Kept

theorem Kept.step {cs : List Call} {r : Scheduler} {c : Call}
    (hr : Machine.after (Scheduler.step kstacks) s cs = r) (h : Kept kstacks s cs r)
    (hc : SparesCurrent r c) : Kept kstacks s (cs ++ [c]) (r.step kstacks c) := by
  cases c with
  | tick e => exact h.tick hr e
  | addTask entry userEsp => exact h.addTask hr entry userEsp
  | killTask id => exact h.killTask hr id
  | killCurrent => exact absurd rfl hc.1

theorem schedInit_kept (s₀ : Scheduler) :
    Kept kstacks (schedInit kstacks s₀) [] (schedInit kstacks s₀) where
  current := schedInit_ok s₀
  count := show 1 ≤ maxTasks by decide
  quantum := rfl
  esp0 t ht := by
    obtain rfl : t = 0 := Nat.lt_one_iff.mp ht
    simp [schedInit, Scheduler.setTask]
  fresh t _ := .nil _ t
  saved t ht := .inr ⟨.nil _ t, Nat.lt_one_iff.mp ht⟩

/-- What is kept holds after every run. -/
theorem kept_after {cs : List Call} (h : Kept kstacks s [] s)
    (hok : Machine.Admits (Scheduler.step kstacks) SparesCurrent s cs) :
    Kept kstacks s cs (Machine.after (Scheduler.step kstacks) s cs) := by
  induction cs using List.reverseRecOn with
  | nil => exact h
  | append_singleton cs c ih =>
    obtain ⟨hcs, hc, -⟩ := Machine.admits_append.mp hok
    rw [Machine.after_concat]
    exact (ih hcs).step rfl hc

/-! ## Round robin -/

/-- The scheduler after `sched_init` and the calls. -/
abbrev reached (kstacks : UInt32) (s₀ : Scheduler) (cs : List Call) : Scheduler :=
  Machine.after (Scheduler.step kstacks) (schedInit kstacks s₀) cs

/-- What holds after the calls. -/
structure RoundRobin (kstacks : UInt32) (s₀ : Scheduler) (cs : List Call) : Prop where
  /-- Exactly the current task runs. -/
  running : (reached kstacks s₀ cs).OneRunning
  /-- A tick that does not end a quantum returns its argument. -/
  stays : ∀ e, (cs.countP Call.isTick + 1 : ℤ) % quantumTicks ≠ 0 →
    (schedTick e (reached kstacks s₀ cs)).1 = e ∧
      (schedTick e (reached kstacks s₀ cs)).2.curTask = (reached kstacks s₀ cs).curTask
  /-- A tick that switches returns the stack pointer the task resumes with, and sets the `esp0` of
  the TSS to the top of its kernel stack. -/
  switches : ∀ e t, (schedTick e (reached kstacks s₀ cs)).2.curTask = t →
    t ≠ (reached kstacks s₀ cs).curTask →
      Resumes kstacks (schedInit kstacks s₀) t cs (schedTick e (reached kstacks s₀ cs)).1 ∧
        (schedTick e (reached kstacks s₀ cs)).2.tssEsp0 =
          ((schedTick e (reached kstacks s₀ cs)).2.tasks t).esp0 ∧
        ((schedTick e (reached kstacks s₀ cs)).2.tasks t).esp0 = stackTop kstacks t
  /-- From a turn of `t` until the call with which its next turn begins, every other task that
  lives throughout has one turn. -/
  once : ∀ a b c t, cs = a ++ b ++ [c] → (reached kstacks s₀ a).curTask = t →
    t ∉ turns kstacks (reached kstacks s₀ a) b →
    (reached kstacks s₀ (a ++ b)).turn kstacks c = [t] →
    ∀ u ≠ t, (∀ p, p <+: b → (reached kstacks s₀ (a ++ p)).Present u) →
      (turns kstacks (reached kstacks s₀ a) b).count u = 1

/-- **Every run from `sched_init` in which only other tasks are killed is round robin.** -/
theorem round_robin (kstacks : UInt32) (s₀ : Scheduler) {cs : List Call}
    (hok : Machine.Admits (Scheduler.step kstacks) SparesCurrent (schedInit kstacks s₀) cs) :
    RoundRobin kstacks s₀ cs := by
  have hinit : (schedInit kstacks s₀).OneRunning := schedInit_oneRunning s₀
  have hrun : ∀ p q, cs = p ++ q → (reached kstacks s₀ p).OneRunning := by
    rintro p q rfl
    exact Machine.invariant (fun _ _ hi hc => hi.step hc) hinit (Machine.admits_append.mp hok).1
  have hkept := kept_after (schedInit_kept s₀) hok
  have hself := hrun cs [] (List.append_nil _).symm
  refine ⟨hself, fun e he => ?_, fun e t ht hne => ?_, ?_⟩
  · apply tick_stays
    rw [hkept.quantum]
    unfold quantumTicks at he ⊢
    omega
  · subst ht
    obtain ⟨hcur, hret, htss⟩ := tick_switches hne
    have hlt : (reached kstacks s₀ cs).next < (reached kstacks s₀ cs).taskCount := hself.current.next
    rw [esp0_tick, hcur, hret, htss]
    refine ⟨?_, rfl, hkept.esp0 _ hlt⟩
    rcases hkept.saved _ hlt with hsaved | ⟨-, hsame⟩
    · exact hsaved
    · exact absurd (hcur.trans hsame) hne
  · rintro a b c t rfl ha hno hnext u hut hlive
    obtain ⟨hab, -⟩ := Machine.admits_append.mp hok
    obtain ⟨-, hb⟩ := Machine.admits_append.mp hab
    have hra := hrun a (b ++ [c]) (List.append_assoc ..)
    refine round_once hra ha hb hno (by rwa [← Machine.after_append]) hut fun p hp => ?_
    rw [← Machine.after_append]
    exact hlive p hp

/-- The theorem at a run that kills a task that is not the current one. -/
theorem round_robin_killOther :
    RoundRobin 0 .zero [.addTask 0xDEAD0000 0xBEEF0000, .tick 0xA000, .killTask 1] := by
  apply round_robin
  simp only [Machine.admits_cons, Machine.admits_nil, SparesCurrent]
  simp only [reduceCtorEq, false_implies, implies_true, not_false_eq_true, ne_eq, and_true, true_and]
  rintro id ⟨rfl⟩
  decide +kernel

end WarkRune.Sched
