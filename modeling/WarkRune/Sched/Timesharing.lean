import WarkRune.Sched.Interrupt

/-!
# Time sharing

The tasks share one processor: the timer takes it from one and hands it to the next. To the tasks
this is as if each had a processor of its own. The kernel refines a machine in which the registers
of a task are changed by its own work and by nothing else.

A task works on its registers and on its own stack. The paging keeps a task of ring 3 from the
kernel stacks, and in ring 0 a task uses the stack it entered the kernel on.

## Main definitions

* `Event`, `Kernel.step`: what happens to the kernel
* `Confined`: a task keeps to its stack
* `Cores`, `Cores.step`: the machine with a processor for each task
* `Runs`: the kernel runs what the machine does

## Main results

* `frame_saved`: the interrupt saves the registers on the stack of the current task
* `Runs.step`: every event keeps the relation
* `timesharing`: every run from `sched_init` is one of the machine
-/

namespace WarkRune.Sched

/-- What happens to the kernel. -/
inductive Event
  /-- The current task computes, and stores words on its stack. -/
  | work (f : Cpu → Cpu) (stores : List (UInt32 × UInt32))
  /-- The timer interrupts it. -/
  | timer (scratch : List (UInt32 × UInt32))
  | addTask (entry userEsp : UInt32)
  | killTask (id : UInt32)
  | killCurrent
  /-- `tss_set_esp0`, which `elf_exec` calls. -/
  | setEsp0 (esp0 : UInt32)

/-- The machine with a processor for each task: the scheduler says which of them works. -/
structure Cores where
  sched : Scheduler
  regs : ℕ → Cpu

section Steps

variable (kstacks : UInt32)

/-- The kernel. -/
def Kernel.step (k : Kernel) : Event → Kernel
  | .work f stores => ⟨f k.cpu, { k.sched with mem := store k.sched.mem stores }⟩
  | .timer scratch => timerHandler scratch k
  | .addTask entry userEsp => { k with sched := k.sched.step kstacks (.addTask entry userEsp) }
  | .killTask id => { k with sched := k.sched.step kstacks (.killTask id) }
  | .killCurrent => { k with sched := k.sched.step kstacks .killCurrent }
  | .setEsp0 esp0 => { k with sched := { k.sched with tssEsp0 := esp0 } }

/-- The current task keeps to its stack. In ring 0 it leaves room there for an interrupt, and so
does what the TSS is set to. -/
def Confined (k : Kernel) : Event → Prop
  | .work f stores => (∀ w ∈ stores, stackOf kstacks w.1 = k.sched.curTask) ∧
      (¬ (f k.cpu).User →
        (f k.cpu).ss = 0x10 ∧ Owned kstacks k.sched.curTask ((f k.cpu).esp - 44) 11)
  | .timer scratch => ∀ w ∈ scratch, stackOf kstacks w.1 = k.sched.curTask ∧
      ∀ j < k.cpu.frameLen, w.1 ≠ k.cpu.trapTop k.sched.tssEsp0 -
        4 * UInt32.ofNat k.cpu.frameLen + 4 * UInt32.ofNat j
  | .setEsp0 esp0 => Owned kstacks k.sched.curTask (esp0 - 52) 13
  | _ => True

/-- The machine: work changes the registers of the task that works, and nothing else does. -/
def Cores.step (c : Cores) : Event → Cores
  | .work f _ =>
    { c with regs := Function.update c.regs c.sched.curTask (f (c.regs c.sched.curTask)) }
  | .timer _ => { c with sched := c.sched.step kstacks (.tick 0) }
  | .addTask entry userEsp =>
    { sched := c.sched.step kstacks (.addTask entry userEsp)
      regs := if c.sched.taskCount ≥ maxTasks then c.regs
        else Function.update c.regs c.sched.taskCount (.start entry userEsp) }
  | .killTask id => { c with sched := c.sched.step kstacks (.killTask id) }
  | .killCurrent => { c with sched := c.sched.step kstacks .killCurrent }
  | .setEsp0 _ => c

end Steps

/-! ## Equal turns -/

/-- The tables agree on whose turn it is. -/
structure SameTurns (s s' : Scheduler) : Prop where
  count : s'.taskCount = s.taskCount
  cur : s'.curTask = s.curTask
  left : s'.ticksLeft = s.ticksLeft
  state : ∀ i, s'.state i = s.state i

variable {kstacks : UInt32} {s s' : Scheduler}

namespace SameTurns

theorem tick (h : SameTurns s s') (e e' : UInt32) :
    SameTurns (schedTick e s).2 (schedTick e' s').2 := by
  have hnext : s'.next = s.next := Scheduler.next_congr h.count h.cur h.state
  have hleft : (schedTick e' s').2.ticksLeft = (schedTick e s).2.ticksLeft := by
    rw [ticksLeft_tick, ticksLeft_tick, h.left]
  rcases tick_cases s e with ⟨hstay, hcur, hn, hstate⟩ | ⟨hq, hne, hcur, hn, hstate⟩
  · rcases tick_cases s' e' with ⟨-, hcur', hn', hstate'⟩ | ⟨hq', hne', -, -, -⟩
    · exact ⟨by rw [hn, hn', h.count], by rw [hcur, hcur', h.cur], hleft,
        fun i => by rw [hstate, hstate', h.state]⟩
    · rw [h.left] at hq'
      rw [hnext, h.cur] at hne'
      exact absurd hstay (not_or.mpr ⟨hq', hne'⟩)
  · rcases tick_cases s' e' with ⟨hstay', -, -, -⟩ | ⟨-, -, hcur', hn', hstate'⟩
    · rw [h.left, hnext, h.cur] at hstay'
      exact absurd hstay' (not_or.mpr ⟨hq, hne⟩)
    · exact ⟨by rw [hn, hn', h.count], by rw [hcur, hcur', hnext], hleft,
        fun i => by rw [hstate, hstate', hnext, h.cur, h.state]⟩

theorem setState (h : SameTurns s s') (i : ℕ) (x : TaskState) :
    SameTurns (s.setState i x) (s'.setState i x) :=
  ⟨h.count, h.cur, h.left, fun j => by
    rw [Scheduler.state_setState, Scheduler.state_setState, h.state]⟩

theorem addTask (h : SameTurns s s') (kstacks entry userEsp : UInt32) :
    SameTurns (schedAddTask kstacks entry userEsp s).2 (schedAddTask kstacks entry userEsp s').2 := by
  by_cases hfull : s.taskCount ≥ maxTasks
  · have hfull' : s'.taskCount ≥ maxTasks := h.count.symm ▸ hfull
    rw [schedAddTask, if_pos hfull, schedAddTask, if_pos hfull']
    exact h
  · have hfull' : ¬ s'.taskCount ≥ maxTasks := h.count.symm ▸ hfull
    rw [schedAddTask, if_neg hfull, schedAddTask, if_neg hfull']
    refine ⟨congrArg (· + 1) h.count, h.cur, h.left, fun i => ?_⟩
    have hset : ∀ (u : Scheduler) (t : Task), (u.setTask u.taskCount t).state i =
        if i = u.taskCount then t.state else u.state i := fun u t => u.state_setTask _ i t
    refine (hset s' _).trans (.trans ?_ (hset s _).symm)
    rw [h.count, h.state]

end SameTurns

/-! ## The relation -/

/-- **The kernel runs what the machine does**: the processor has the registers of the current task,
and those of every other one are saved on its stack. -/
structure Runs (kstacks : UInt32) (k : Kernel) (c : Cores) : Prop where
  turns : SameTurns k.sched c.sched
  current : k.sched.Ok
  count : k.sched.taskCount ≤ maxTasks
  cpu : k.cpu = c.regs k.sched.curTask
  /-- In ring 0 an interrupt has room on the stack. -/
  kernel : ¬ k.cpu.User →
    k.cpu.ss = 0x10 ∧ Owned kstacks k.sched.curTask (k.cpu.esp - 44) 11
  tss : Owned kstacks k.sched.curTask (k.sched.tssEsp0 - 52) 13
  esp0 : ∀ t < k.sched.taskCount, Owned kstacks t ((k.sched.tasks t).esp0 - 52) 13
  saved : ∀ t < k.sched.taskCount, t ≠ k.sched.curTask →
    Saved kstacks k.sched.mem t (k.sched.tasks t).esp (c.regs t)

/-! ## The interrupt -/

section Interrupt

variable {m : UInt32 → UInt32} {t : ℕ} {esp : UInt32} {r : Cpu}

/-- What is saved in ring 0 comes back with the stack it was saved on. -/
theorem Saved.kernel (h : Saved kstacks m t esp r) (hr : ¬ r.User) :
    r.ss = 0x10 ∧ Owned kstacks t (r.esp - 44) 11 := by
  obtain ⟨rfl, howned⟩ := h
  have hring : ¬ m (esp + 4 * UInt32.ofNat 9) &&& 3 = 3 := hr
  have hesp : (resume m esp).esp = esp + 44 := if_neg hring
  have hlen : (resume m esp).frameLen = 11 := if_neg hr
  rw [hesp, UInt32.add_sub_cancel]
  rw [hlen] at howned
  exact ⟨if_neg hring, howned⟩

/-- **The interrupt saves the registers on the stack of the task**, and touches no other stack. -/
theorem frame_saved {tssEsp0 top : UInt32} (htop : r.trapTop tssEsp0 = top)
    (hr : ¬ r.User → r.ss = 0x10 ∧ Owned kstacks t (r.esp - 44) 11)
    (htss : Owned kstacks t (tssEsp0 - 52) 13) (m : UInt32 → UInt32) :
    ((r.frame top).foldl push (top, m)).1 = top - 4 * UInt32.ofNat r.frameLen ∧
      Saved kstacks ((r.frame top).foldl push (top, m)).2 t (top - 4 * UInt32.ofNat r.frameLen) r ∧
      ∀ a, stackOf kstacks a ≠ t → ((r.frame top).foldl push (top, m)).2 a = m a := by
  have hlen := r.length_frame top
  have hle : r.frameLen ≤ 13 := by
    unfold Cpu.frameLen
    split <;> decide
  obtain ⟨hframe, hother⟩ := push_spec (r.frame top) (by omega) top m
  have hsp := hframe.1
  rw [hlen] at hsp
  have howned : Owned kstacks t (top - 4 * UInt32.ofNat r.frameLen) r.frameLen := by
    unfold Cpu.trapTop at htop
    by_cases hu : r.User
    · rw [if_pos hu] at htop
      rw [← htop, show r.frameLen = 13 from if_pos hu]
      exact htss
    · rw [if_neg hu] at htop
      rw [← htop, show r.frameLen = 11 from if_neg hu]
      exact (hr hu).2
  refine ⟨hsp, ⟨?_, howned⟩, fun a ha => hother a fun i hi he => ha ?_⟩
  · rw [← hsp]
    exact resume_frame hframe fun hu => ⟨(hr hu).1, htop.symm.trans (if_neg hu)⟩
  · rw [hlen] at hi
    have hword := howned (r.frameLen - 1 - i) (by omega)
    rw [word_address top (n := r.frameLen) (i := i) (by omega), ← he] at hword
    exact hword

end Interrupt

/-- A tick that does not switch. -/
theorem tick_goes_on {esp : UInt32} (h : (schedTick esp s).2.curTask = s.curTask) :
    (schedTick esp s).1 = esp ∧ (schedTick esp s).2.tssEsp0 = s.tssEsp0 := by
  rw [schedTick_eq] at h ⊢
  split_ifs at h ⊢ with hq hne
  · exact ⟨rfl, rfl⟩
  · exact ⟨rfl, rfl⟩
  · exact absurd h hne

/-- The stack pointer that a tick returns is the one that is stored for the task it goes on with. -/
theorem tick_esp (s : Scheduler) (esp : UInt32) : (schedTick esp s).1 =
    ((schedTick esp s).2.tasks (schedTick esp s).2.curTask).esp := by
  rw [esp_tick]
  by_cases hcur : (schedTick esp s).2.curTask = s.curTask
  · rw [if_pos hcur]
    exact (tick_goes_on hcur).1
  · obtain ⟨hnext, hesp, -⟩ := tick_switches hcur
    rw [if_neg hcur, hesp, hnext]

/-- **A tick goes on with a task that is saved.** -/
theorem runs_tick {c : Cores} {esp : UInt32} (hturns : SameTurns s c.sched) (hok : s.Ok)
    (hcount : s.taskCount ≤ maxTasks) (htss : Owned kstacks s.curTask (s.tssEsp0 - 52) 13)
    (hesp0 : ∀ t < s.taskCount, Owned kstacks t ((s.tasks t).esp0 - 52) 13)
    (hsaved : ∀ t < s.taskCount,
      Saved kstacks s.mem t (if t = s.curTask then esp else (s.tasks t).esp) (c.regs t)) :
    Runs kstacks ⟨resume (schedTick esp s).2.mem (schedTick esp s).1, (schedTick esp s).2⟩
      { c with sched := (schedTick 0 c.sched).2 } := by
  have hsame : (schedTick esp s).2.taskCount = s.taskCount := by
    rcases tick_cases s esp with ⟨-, -, hn, -⟩ | ⟨-, -, -, hn, -⟩ <;> exact hn
  have hok' : (s.step kstacks (.tick esp)).Ok := hok.step (.tick esp)
  have hsaved' : ∀ t < s.taskCount, Saved kstacks (schedTick esp s).2.mem t
      ((schedTick esp s).2.tasks t).esp (c.regs t) := fun t ht => by
    rw [mem_tick, esp_tick]
    exact hsaved t ht
  have hlt : (schedTick esp s).2.curTask < s.taskCount := by
    rw [← hsame]
    exact hok'
  have hself := hsaved' _ hlt
  have hcpu : resume (schedTick esp s).2.mem (schedTick esp s).1 =
      c.regs (schedTick esp s).2.curTask := by
    rw [tick_esp]
    exact hself.regs
  refine ⟨hturns.tick esp 0, hok', hsame ▸ hcount, hcpu, fun hu => ?_, ?_, fun t ht => ?_,
    fun t ht _ => hsaved' t (hsame ▸ ht)⟩
  · rw [hcpu] at hu ⊢
    exact hself.kernel hu
  · by_cases hcur : (schedTick esp s).2.curTask = s.curTask
    · rw [(tick_goes_on hcur).2, hcur]
      exact htss
    · obtain ⟨hnext, -, htss'⟩ := tick_switches hcur
      rw [htss', hnext]
      exact hesp0 _ hok.next
  · rw [esp0_tick]
    exact hesp0 t (hsame ▸ ht)

/-- **A task that is added** has the registers it starts with saved on a stack of its own. -/
theorem addTask_adds (kstacks : UInt32) (hlt : s.taskCount < maxTasks) (entry userEsp : UInt32) :
    ∃ task : Task, ∃ m, (schedAddTask kstacks entry userEsp s).2 =
        { s.setTask s.taskCount task with taskCount := s.taskCount + 1, mem := m } ∧
      task.esp0 = stackTop kstacks s.taskCount ∧
      Saved kstacks m s.taskCount task.esp (.start entry userEsp) ∧
      ∀ a, stackOf kstacks a ≠ s.taskCount → m a = s.mem a := by
  obtain ⟨hframe, hother⟩ := push_spec (initialFrame entry userEsp) (show 13 < 2 ^ 30 by decide)
    (stackTop kstacks s.taskCount) s.mem
  have howned : Owned kstacks s.taskCount (stackTop kstacks s.taskCount - 52) 13 :=
    owned_stackTop hlt
  generalize hp : (initialFrame entry userEsp).foldl push (stackTop kstacks s.taskCount, s.mem) = p
    at hframe hother
  have huser : (Cpu.start entry userEsp).User := show (0x1B : UInt32) &&& 3 = 3 by decide
  refine ⟨⟨p.1, stackTop kstacks s.taskCount, .ready, UInt32.ofNat s.taskCount, entry, userEsp⟩, p.2,
    ?_, rfl, ⟨resume_user huser hframe, ?_⟩, fun a ha => hother a fun i hi he => ha ?_⟩
  · rw [schedAddTask, if_neg (Nat.not_le.mpr hlt), ← hp]
  · rw [hframe.1, show (Cpu.start entry userEsp).frameLen = 13 from if_pos huser]
    exact howned
  · have hi' : i < 13 := hi
    have hword := howned (12 - i) (by omega)
    have haddr := word_address (stackTop kstacks s.taskCount) (n := 13) (i := i) (j := 12 - i)
      (by omega)
    rw [he, ← haddr]
    exact hword

/-! ## The steps -/

namespace Runs

variable {k : Kernel} {c : Cores} (h : Runs kstacks k c)
include h

theorem work {f : Cpu → Cpu} {stores : List (UInt32 × UInt32)}
    (hc : Confined kstacks k (.work f stores)) :
    Runs kstacks (k.step kstacks (.work f stores)) (c.step kstacks (.work f stores)) := by
  obtain ⟨hstores, hring⟩ := hc
  refine ⟨⟨h.turns.count, h.turns.cur, h.turns.left, h.turns.state⟩, h.current, h.count, ?_, hring,
    h.tss, h.esp0, fun t ht hne => ?_⟩
  · change f k.cpu =
      Function.update c.regs c.sched.curTask (f (c.regs c.sched.curTask)) k.sched.curTask
    rw [h.turns.cur, h.cpu, Function.update_self]
  · have hregs : (c.step kstacks (.work f stores)).regs t = c.regs t := by
      refine Function.update_of_ne ?_ ..
      rw [h.turns.cur]
      exact hne
    rw [hregs]
    refine (h.saved t ht hne).congr fun a ha => store_of_notMem fun w hw hwa => hne ?_
    rw [← ha, ← hwa]
    exact hstores w hw

/-- **The interrupt saves the current task**, and the others stay saved. -/
theorem saves {scratch : List (UInt32 × UInt32)} (hc : Confined kstacks k (.timer scratch)) :
    ∃ m esp, timerHandler scratch k =
        ⟨resume (schedTick esp { k.sched with mem := m }).2.mem
          (schedTick esp { k.sched with mem := m }).1, (schedTick esp { k.sched with mem := m }).2⟩ ∧
      ∀ t < k.sched.taskCount,
        Saved kstacks m t (if t = k.sched.curTask then esp else (k.sched.tasks t).esp) (c.regs t) := by
  obtain ⟨hsp, hsaved, hother⟩ := frame_saved rfl h.kernel h.tss k.sched.mem
  refine ⟨_, _, rfl, fun t ht => ?_⟩
  rw [hsp]
  by_cases htc : t = k.sched.curTask
  · rw [if_pos htc, htc, ← h.cpu]
    exact hsaved.congr_words fun j hj => store_of_notMem fun w hw => (hc w hw).2 j hj
  · rw [if_neg htc]
    refine (h.saved t ht htc).congr fun a ha => ?_
    rw [store_of_notMem, hother a (ha.symm ▸ htc)]
    rintro w hw rfl
    exact htc (ha.symm.trans (hc w hw).1)

theorem timer {scratch : List (UInt32 × UInt32)} (hc : Confined kstacks k (.timer scratch)) :
    Runs kstacks (k.step kstacks (.timer scratch)) (c.step kstacks (.timer scratch)) := by
  obtain ⟨m, esp, hk, hsaved⟩ := h.saves hc
  have hturns : SameTurns { k.sched with mem := m } c.sched :=
    ⟨h.turns.count, h.turns.cur, h.turns.left, h.turns.state⟩
  have hstep : k.step kstacks (.timer scratch) = timerHandler scratch k := rfl
  rw [hstep, hk]
  exact runs_tick hturns h.current h.count h.tss h.esp0 hsaved

theorem addTask (entry userEsp : UInt32) :
    Runs kstacks (k.step kstacks (.addTask entry userEsp))
      (c.step kstacks (.addTask entry userEsp)) := by
  have hturns := h.turns.addTask kstacks entry userEsp
  have hcount := h.turns.count
  have hcur : k.sched.curTask < k.sched.taskCount := h.current
  have hk : k.step kstacks (.addTask entry userEsp) =
      { k with sched := (schedAddTask kstacks entry userEsp k.sched).2 } := rfl
  have hc : c.step kstacks (.addTask entry userEsp) =
      ⟨(schedAddTask kstacks entry userEsp c.sched).2,
        if c.sched.taskCount ≥ maxTasks then c.regs
        else Function.update c.regs c.sched.taskCount (.start entry userEsp)⟩ := rfl
  rw [hk, hc, hcount]
  by_cases hfull : k.sched.taskCount ≥ maxTasks
  · have hsame : (schedAddTask kstacks entry userEsp k.sched).2 = k.sched := by
      rw [schedAddTask, if_pos hfull]
    rw [hsame] at hturns ⊢
    rw [if_pos hfull]
    exact ⟨hturns, h.current, h.count, h.cpu, h.kernel, h.tss, h.esp0, h.saved⟩
  have hlt : k.sched.taskCount < maxTasks := Nat.lt_of_not_le hfull
  obtain ⟨task, m, hadd, hesp0, hnew, hrest⟩ :=
    addTask_adds kstacks hlt entry userEsp
  rw [hadd] at hturns ⊢
  rw [if_neg hfull]
  have hold : ∀ t ≠ k.sched.taskCount,
      (k.sched.setTask k.sched.taskCount task).tasks t = k.sched.tasks t := fun t ht =>
    Function.update_of_ne ht ..
  have hlast : (k.sched.setTask k.sched.taskCount task).tasks k.sched.taskCount = task :=
    Function.update_self ..
  refine ⟨hturns, Nat.lt_succ_of_lt hcur, hlt, ?_, h.kernel, h.tss, fun t ht => ?_,
    fun t ht hne => ?_⟩
  · exact h.cpu.trans (Function.update_of_ne (Nat.ne_of_lt hcur) ..).symm
  · change t < k.sched.taskCount + 1 at ht
    change Owned kstacks t (((k.sched.setTask k.sched.taskCount task).tasks t).esp0 - 52) 13
    by_cases htn : t = k.sched.taskCount
    · rw [htn, hlast, hesp0]
      exact owned_stackTop hlt
    · rw [hold t htn]
      exact h.esp0 t (by omega)
  · change t < k.sched.taskCount + 1 at ht
    change Saved kstacks m t ((k.sched.setTask k.sched.taskCount task).tasks t).esp
      (Function.update c.regs k.sched.taskCount (.start entry userEsp) t)
    by_cases htn : t = k.sched.taskCount
    · rw [htn, hlast, Function.update_self]
      exact hnew
    · rw [hold t htn, Function.update_of_ne htn]
      exact (h.saved t (by omega) hne).congr fun a ha => hrest a (ha.symm ▸ htn)

/-- A task whose state is set. -/
theorem setState (i : ℕ) (x : TaskState) : Runs kstacks { k with sched := k.sched.setState i x }
    { c with sched := c.sched.setState i x } := by
  refine ⟨h.turns.setState i x, h.current, h.count, h.cpu, h.kernel, h.tss, fun t ht => ?_,
    fun t ht hne => ?_⟩
  · rw [field_setState (f := Task.esp0) fun _ _ => rfl]
    exact h.esp0 t ht
  · rw [field_setState (f := Task.esp) fun _ _ => rfl]
    exact h.saved t ht hne

theorem killTask (id : UInt32) :
    Runs kstacks (k.step kstacks (.killTask id)) (c.step kstacks (.killTask id)) := by
  have hk : k.step kstacks (.killTask id) = { k with sched := schedKillTask id k.sched } := rfl
  have hc : c.step kstacks (.killTask id) = { c with sched := schedKillTask id c.sched } := rfl
  rw [hk, hc, schedKillTask, schedKillTask, h.turns.count]
  split
  · exact h.setState id.toNat .dead
  · exact h

/-- **Every event keeps the relation.** -/
theorem step {e : Event} (he : Confined kstacks k e) :
    Runs kstacks (k.step kstacks e) (c.step kstacks e) := by
  cases e with
  | work f stores => exact h.work he
  | timer scratch => exact h.timer he
  | addTask entry userEsp => exact h.addTask entry userEsp
  | killTask id => exact h.killTask id
  | killCurrent =>
    have hkill := h.setState k.sched.curTask .dead
    have hc : c.step kstacks .killCurrent =
        { c with sched := c.sched.setState c.sched.curTask .dead } := rfl
    rw [hc, h.turns.cur]
    exact hkill
  | setEsp0 esp0 =>
    exact ⟨⟨h.turns.count, h.turns.cur, h.turns.left, h.turns.state⟩, h.current, h.count, h.cpu,
      h.kernel, he, h.esp0, h.saved⟩

end Runs

/-! ## Runs -/

/-- The kernel when `sched_init` returns. -/
def Kernel.boot (kstacks : UInt32) (r : Cpu) (s₀ : Scheduler) : Kernel := ⟨r, schedInit kstacks s₀⟩

/-- The machine when `sched_init` returns. -/
def Cores.boot (kstacks : UInt32) (r : Cpu) (s₀ : Scheduler) : Cores :=
  ⟨schedInit kstacks s₀, fun _ => r⟩

theorem runs_boot {r : Cpu} {s₀ : Scheduler} (hss : r.ss = 0x10)
    (hstack : Owned kstacks 0 (r.esp - 44) 11) (htss : Owned kstacks 0 (s₀.tssEsp0 - 52) 13) :
    Runs kstacks (.boot kstacks r s₀) (.boot kstacks r s₀) := by
  have hone : ∀ t < (schedInit kstacks s₀).taskCount, t = 0 := fun t ht => Nat.lt_one_iff.mp ht
  refine ⟨⟨rfl, rfl, rfl, fun _ => rfl⟩, schedInit_ok s₀, show 1 ≤ maxTasks by decide, rfl,
    fun _ => ⟨hss, hstack⟩, htss, fun t ht => ?_, fun t ht hne => absurd (hone t ht) hne⟩
  obtain rfl := hone t ht
  have hesp0 : ((schedInit kstacks s₀).tasks 0).esp0 = stackTop kstacks 0 := by
    simp [schedInit, Scheduler.setTask]
  change Owned kstacks 0 (((schedInit kstacks s₀).tasks 0).esp0 - 52) 13
  rw [hesp0]
  exact owned_stackTop (by decide)

/-- The kernel after `sched_init` and the events. -/
abbrev Kernel.run (kstacks : UInt32) (r : Cpu) (s₀ : Scheduler) (es : List Event) : Kernel :=
  Machine.after (Kernel.step kstacks) (.boot kstacks r s₀) es

/-- The machine after `sched_init` and the events. -/
abbrev Cores.run (kstacks : UInt32) (r : Cpu) (s₀ : Scheduler) (es : List Event) : Cores :=
  Machine.after (Cores.step kstacks) (.boot kstacks r s₀) es

/-- **Time sharing is transparent**: after every run from `sched_init` in which the tasks keep to
their stacks, the processor has the registers that the current task has on the machine with a
processor for each task, and every other task would come back with the ones it has there. -/
theorem timesharing {r : Cpu} {s₀ : Scheduler} (hss : r.ss = 0x10)
    (hstack : Owned kstacks 0 (r.esp - 44) 11) (htss : Owned kstacks 0 (s₀.tssEsp0 - 52) 13)
    {es : List Event}
    (hes : Machine.Admits (Kernel.step kstacks) (Confined kstacks) (.boot kstacks r s₀) es) :
    (Kernel.run kstacks r s₀ es).sched.curTask = (Cores.run kstacks r s₀ es).sched.curTask ∧
      (Kernel.run kstacks r s₀ es).cpu =
        (Cores.run kstacks r s₀ es).regs (Kernel.run kstacks r s₀ es).sched.curTask ∧
      ∀ t < (Kernel.run kstacks r s₀ es).sched.taskCount,
        t ≠ (Kernel.run kstacks r s₀ es).sched.curTask →
          resume (Kernel.run kstacks r s₀ es).sched.mem
              ((Kernel.run kstacks r s₀ es).sched.tasks t).esp =
            (Cores.run kstacks r s₀ es).regs t := by
  have hrun : Runs kstacks (Kernel.run kstacks r s₀ es) (Cores.run kstacks r s₀ es) :=
    Machine.simulates (fun _ _ _ h he => h.step he) (runs_boot hss hstack htss) hes
  exact ⟨hrun.turns.cur.symm, hrun.cpu, fun t ht hne => (hrun.saved t ht hne).regs⟩

/-- The timer may come at any time. -/
theorem admits_timers (k : Kernel) (n : ℕ) :
    Machine.Admits (Kernel.step kstacks) (Confined kstacks) k (List.replicate n (.timer [])) := by
  induction n generalizing k with
  | zero => exact Machine.admits_nil _
  | succ n ih => exact ⟨fun w hw => absurd hw List.not_mem_nil, ih _⟩

/-- The registers when the kernel starts. -/
def startRegs : Cpu := ⟨0, 0, 0, 0, 0, 0, 0, 0x90000, 0x8000, 2, 8, 0x10⟩

/-- A task is added, the first one computes, and the timer takes the processor from it. -/
def firstSwitch : List Event :=
  [.addTask 0xDEAD0000 0xBEEF0000, .work (fun c => { c with eax := 7 }) [(0x8FF00, 1)]] ++
    List.replicate 20 (.timer [])

/-- The theorem up to the first switch. -/
theorem timesharing_firstSwitch :
    (Kernel.run 0x100000 startRegs { Scheduler.zero with tssEsp0 := 0x9FFFC } firstSwitch).cpu =
      (Cores.run 0x100000 startRegs { Scheduler.zero with tssEsp0 := 0x9FFFC } firstSwitch).regs
        (Kernel.run 0x100000 startRegs { Scheduler.zero with tssEsp0 := 0x9FFFC }
          firstSwitch).sched.curTask := by
  refine (timesharing rfl ?_ ?_ (Machine.admits_append.mpr ⟨?_, admits_timers _ 20⟩)).2.1
  · unfold Owned
    decide +kernel
  · unfold Owned
    decide +kernel
  · rw [Machine.admits_cons, Machine.admits_cons]
    refine ⟨trivial, ⟨?_, fun _ => ⟨rfl, ?_⟩⟩, Machine.admits_nil _⟩
    · intro w hw
      rw [List.mem_singleton.mp hw]
      rfl
    · unfold Owned
      decide +kernel

end WarkRune.Sched
