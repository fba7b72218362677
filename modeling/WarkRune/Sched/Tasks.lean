import WarkRune.Machine.Run
import Mathlib.Logic.Function.Basic
import Mathlib.Data.Nat.Basic

/-!
# The preemptive scheduler

`sched_tick` runs on every timer interrupt: it counts the quantum down, and when the quantum ends
it looks for the next task round the table that is ready or running, and switches to it. Tasks
are added at the end of the table and never removed; killing one marks it dead.

The table and the counters are C arrays and ints. The table is a function of the index here, the
bound `MAX_TASKS` being the one `sched_add_task` checks, and a stack is the words at its
addresses. Where the linker placed `kstacks` is a parameter.

## Main definitions

* `Scheduler`: the task table, the counters, the stack words and the stack pointer of the TSS
* `schedInit`, `schedAddTask`, `schedKillCurrent`, `schedKillTask`, `schedTick`: the operations
* `Scheduler.step`: the operations as a machine

## Main results

* `Scheduler.Ok.step`: the current task is always one of the table's
* `tick_cases`: what a tick can do
-/

namespace WarkRune.Sched

/-- `MAX_TASKS`. -/
def maxTasks : ℕ := 4

/-- `QUANTUM_TICKS`. -/
def quantumTicks : ℤ := 20

/-- `KSTACK_SIZE`. -/
def kstackSize : UInt32 := 0x4000

inductive TaskState
  | dead
  | ready
  | running
  deriving DecidableEq

structure Task where
  esp : UInt32
  esp0 : UInt32
  state : TaskState
  id : UInt32
  entry : UInt32
  userEsp : UInt32

/-- The static variables of the scheduler, the words of the kernel stacks and the `esp0` of the
TSS. -/
structure Scheduler where
  tasks : ℕ → Task
  taskCount : ℕ
  curTask : ℕ
  ticksLeft : ℤ
  mem : UInt32 → UInt32
  tssEsp0 : UInt32

namespace Scheduler

def setTask (s : Scheduler) (i : ℕ) (t : Task) : Scheduler :=
  { s with tasks := Function.update s.tasks i t }

def setState (s : Scheduler) (i : ℕ) (x : TaskState) : Scheduler :=
  s.setTask i { s.tasks i with state := x }

/-- The state of a task. -/
def state (s : Scheduler) (i : ℕ) : TaskState := (s.tasks i).state

@[simp] theorem setTask_taskCount (s : Scheduler) (i : ℕ) (t : Task) :
    (s.setTask i t).taskCount = s.taskCount := rfl

@[simp] theorem setTask_curTask (s : Scheduler) (i : ℕ) (t : Task) :
    (s.setTask i t).curTask = s.curTask := rfl

@[simp] theorem setState_taskCount (s : Scheduler) (i : ℕ) (x : TaskState) :
    (s.setState i x).taskCount = s.taskCount := rfl

@[simp] theorem setState_curTask (s : Scheduler) (i : ℕ) (x : TaskState) :
    (s.setState i x).curTask = s.curTask := rfl

@[simp] theorem state_setTask (s : Scheduler) (i j : ℕ) (t : Task) :
    (s.setTask i t).state j = if j = i then t.state else s.state j := by
  by_cases h : j = i
  · rw [if_pos h, h]
    simp only [state, setTask, Function.update_self]
  · rw [if_neg h]
    simp only [state, setTask, Function.update_of_ne h]

@[simp] theorem state_setState (s : Scheduler) (i j : ℕ) (x : TaskState) :
    (s.setState i x).state j = if j = i then x else s.state j := by
  simp [setState]

/-- `s == TASK_READY || s == TASK_RUNNING`. -/
def Alive (s : Scheduler) (i : ℕ) : Prop := s.state i = .ready ∨ s.state i = .running

instance (s : Scheduler) (i : ℕ) : Decidable (s.Alive i) := inferInstanceAs (Decidable (_ ∨ _))

theorem not_alive {s : Scheduler} {i : ℕ} : ¬ s.Alive i ↔ s.state i = .dead := by
  unfold Alive
  cases s.state i <;> simp

end Scheduler

/-! ## The operations -/

section Operations

variable (kstacks : UInt32)

/-- `(uint32_t)kstacks[idx] + KSTACK_SIZE`. -/
def stackTop (idx : ℕ) : UInt32 := kstacks + UInt32.ofNat idx * kstackSize + kstackSize

/-- `sched_init`. -/
def schedInit (s : Scheduler) : Scheduler :=
  let task : Task := ⟨0, stackTop kstacks 0, .running, 0, 0, 0⟩
  { s.setTask 0 task with taskCount := 1, curTask := 0, ticksLeft := quantumTicks }

/-- `*--sp = w`. -/
def push (p : UInt32 × (UInt32 → UInt32)) (w : UInt32) : UInt32 × (UInt32 → UInt32) :=
  (p.1 - 4, Function.update p.2 (p.1 - 4) w)

/-- The words `sched_add_task` pushes: the frame `iret` pops, and eight zeros for `popa`. -/
def initialFrame (entry userEsp : UInt32) : List UInt32 :=
  [0x23, userEsp, 0x200, 0x1B, entry, 0, 0, 0, 0, 0, 0, 0, 0]

/-- `sched_add_task`: the index of the task, -1 when the table is full, and what is stored
through a non-null `esp0_out`. -/
def schedAddTask (entry userEsp : UInt32) (s : Scheduler) : (ℤ × Option UInt32) × Scheduler :=
  if s.taskCount ≥ maxTasks then ((-1, none), s)
  else
    let idx := s.taskCount
    let p := (initialFrame entry userEsp).foldl push (stackTop kstacks idx, s.mem)
    let task : Task := ⟨p.1, stackTop kstacks idx, .ready, UInt32.ofNat idx, entry, userEsp⟩
    ((idx, some (stackTop kstacks idx)),
      { s.setTask idx task with taskCount := s.taskCount + 1, mem := p.2 })

end Operations

/-- `sched_kill_current`. -/
def schedKillCurrent (s : Scheduler) : Scheduler := s.setState s.curTask .dead

/-- `sched_kill_task`. -/
def schedKillTask (id : UInt32) (s : Scheduler) : Scheduler :=
  if id.toNat < s.taskCount then s.setState id.toNat .dead else s

/-- The task the search of `sched_tick` ends with: the first one round the table that is ready or
running, else the current one. -/
def Scheduler.next (s : Scheduler) : ℕ :=
  (((List.range' 1 s.taskCount).map fun i => (s.curTask + i) % s.taskCount).find?
    fun candidate => s.Alive candidate).getD s.curTask

/-- `sched_tick`: the stack pointer to resume with. -/
def schedTick (curEsp : UInt32) (s : Scheduler) : UInt32 × Scheduler :=
  let s := s.setTask s.curTask { s.tasks s.curTask with esp := curEsp }
  if s.ticksLeft - 1 > 0 then (curEsp, { s with ticksLeft := s.ticksLeft - 1 })
  else
    let s := { s with ticksLeft := quantumTicks }
    let next := s.next
    if next = s.curTask then (curEsp, s)
    else
      let s := (s.setState s.curTask .ready).setState next .running
      ((s.tasks next).esp, { s with curTask := next, tssEsp0 := (s.tasks next).esp0 })

/-- A call of the scheduler. -/
inductive Call
  | tick (curEsp : UInt32)
  | addTask (entry userEsp : UInt32)
  | killTask (id : UInt32)
  | killCurrent

/-- The scheduler as a machine. -/
def Scheduler.step (kstacks : UInt32) (s : Scheduler) : Call → Scheduler
  | .tick curEsp => (schedTick curEsp s).2
  | .addTask entry userEsp => (schedAddTask kstacks entry userEsp s).2
  | .killTask id => schedKillTask id s
  | .killCurrent => schedKillCurrent s

/-! ## What a call can do -/

section Calls

variable {kstacks : UInt32} {s : Scheduler}

/-- The current task is one of the table's. -/
def Scheduler.Ok (s : Scheduler) : Prop := s.curTask < s.taskCount

/-- The tick ends the quantum. -/
def Scheduler.Expires (s : Scheduler) (c : Call) : Prop := (∃ esp, c = .tick esp) ∧ s.ticksLeft - 1 ≤ 0

theorem Scheduler.Ok.next (h : s.Ok) : s.next < s.taskCount := by
  unfold Scheduler.next
  cases hf : ((List.range' 1 s.taskCount).map fun i => (s.curTask + i) % s.taskCount).find?
      fun candidate => s.Alive candidate with
  | none => exact h
  | some k =>
    obtain ⟨i, -, rfl⟩ := List.mem_map.mp (List.mem_of_find?_eq_some hf)
    exact Nat.mod_lt _ (Nat.zero_lt_of_lt h)

/-- The search meets every task. -/
theorem Scheduler.Ok.exists_candidate (h : s.Ok) {k : ℕ} (hk : k < s.taskCount) :
    k ∈ (List.range' 1 s.taskCount).map fun i => (s.curTask + i) % s.taskCount := by
  have hc : s.curTask < s.taskCount := h
  rw [List.mem_map]
  by_cases hlt : s.curTask < k
  · refine ⟨k - s.curTask, List.mem_range'_1.mpr ⟨by omega, by omega⟩, ?_⟩
    rw [Nat.add_sub_cancel' (Nat.le_of_lt hlt), Nat.mod_eq_of_lt hk]
  · -- the search wraps round the end of the table
    refine ⟨k + s.taskCount - s.curTask, List.mem_range'_1.mpr ⟨by omega, by omega⟩, ?_⟩
    rw [show s.curTask + (k + s.taskCount - s.curTask) = k + s.taskCount by omega,
      Nat.add_mod_right, Nat.mod_eq_of_lt hk]

/-- The search ends with a task that is ready or running when there is one. -/
theorem Scheduler.Ok.next_alive (h : s.Ok) {k : ℕ} (hk : k < s.taskCount) (ha : s.Alive k) :
    s.Alive s.next := by
  unfold Scheduler.next
  cases hf : ((List.range' 1 s.taskCount).map fun i => (s.curTask + i) % s.taskCount).find?
      fun candidate => s.Alive candidate with
  | none =>
    have hn := List.find?_eq_none.mp hf k (h.exists_candidate hk)
    simp [ha] at hn
  | some j => simpa using List.find?_some hf

/-- A task the search ends with, other than the current one, is ready or running. -/
theorem Scheduler.alive_next (hne : s.next ≠ s.curTask) : s.Alive s.next := by
  unfold Scheduler.next at hne ⊢
  cases hf : ((List.range' 1 s.taskCount).map fun i => (s.curTask + i) % s.taskCount).find?
      fun candidate => s.Alive candidate with
  | none =>
    rw [hf] at hne
    exact absurd rfl hne
  | some j => simpa using List.find?_some hf

/-- The search depends on the states of the tasks only. -/
theorem Scheduler.next_congr {t : Scheduler} (hcount : t.taskCount = s.taskCount)
    (hcur : t.curTask = s.curTask) (hstate : ∀ i, t.state i = s.state i) : t.next = s.next := by
  have ha : (fun i => decide (t.Alive i)) = fun i => decide (s.Alive i) := by
    funext i
    exact decide_eq_decide.mpr (by rw [Scheduler.Alive, Scheduler.Alive, hstate])
  unfold Scheduler.next
  rw [ha, hcount, hcur]

/-- The state once the stack pointer of the current task is stored. -/
def Scheduler.save (s : Scheduler) (esp : UInt32) : Scheduler :=
  s.setTask s.curTask { s.tasks s.curTask with esp }

@[simp] theorem Scheduler.save_state (s : Scheduler) (esp : UInt32) (i : ℕ) :
    (s.save esp).state i = s.state i := by
  rw [save, state_setTask]
  split
  · next h => rw [h]; rfl
  · rfl

/-- **A tick**, by what it does to the state it starts from. -/
theorem schedTick_eq (s : Scheduler) (esp : UInt32) :
    schedTick esp s = if s.ticksLeft - 1 > 0 then
        (esp, { s.save esp with ticksLeft := s.ticksLeft - 1 })
      else if s.next = s.curTask then (esp, { s.save esp with ticksLeft := quantumTicks })
      else ((s.tasks s.next).esp,
        { ((s.save esp).setState s.curTask .ready).setState s.next .running with
          ticksLeft := quantumTicks
          curTask := s.next
          tssEsp0 := (s.tasks s.next).esp0 }) := by
  have hnext : { s.save esp with ticksLeft := quantumTicks }.next = s.next :=
    Scheduler.next_congr rfl rfl (s.save_state esp)
  have htick : schedTick esp s = if s.ticksLeft - 1 > 0 then
        (esp, { s.save esp with ticksLeft := s.ticksLeft - 1 })
      else
        let u := { s.save esp with ticksLeft := quantumTicks }
        if u.next = s.curTask then (esp, u)
        else
          let v := (u.setState s.curTask .ready).setState u.next .running
          ((v.tasks u.next).esp, { v with curTask := u.next, tssEsp0 := (v.tasks u.next).esp0 }) :=
    rfl
  rw [htick]
  dsimp only
  rw [hnext]
  refine if_congr Iff.rfl rfl (ite_congr rfl (fun _ => rfl) fun hne => ?_)
  -- the switch leaves the stack pointers of the next task alone
  have htask : (({ s.save esp with ticksLeft := quantumTicks }.setState s.curTask .ready).setState
      s.next .running).tasks s.next = { s.tasks s.next with state := .running } := by
    simp only [Scheduler.setState, Scheduler.setTask, Scheduler.save, Function.update_self,
      Function.update_of_ne hne]
  rw [htask]
  rfl

/-- **What a tick can do**: it lets the current task go on, or switches to the task the search
ends with. -/
theorem tick_cases (s : Scheduler) (esp : UInt32) :
    (s.ticksLeft - 1 > 0 ∨ s.next = s.curTask) ∧ (schedTick esp s).2.curTask = s.curTask ∧
        (schedTick esp s).2.taskCount = s.taskCount ∧
        (∀ i, (schedTick esp s).2.state i = s.state i) ∨
      ¬ s.ticksLeft - 1 > 0 ∧ s.next ≠ s.curTask ∧ (schedTick esp s).2.curTask = s.next ∧
        (schedTick esp s).2.taskCount = s.taskCount ∧
        ∀ i, (schedTick esp s).2.state i =
          if i = s.next then .running else if i = s.curTask then .ready else s.state i := by
  rw [schedTick_eq]
  by_cases hq : s.ticksLeft - 1 > 0
  · rw [if_pos hq]
    exact .inl ⟨.inl hq, rfl, rfl, s.save_state esp⟩
  rw [if_neg hq]
  by_cases hn : s.next = s.curTask
  · rw [if_pos hn]
    exact .inl ⟨.inr hn, rfl, rfl, s.save_state esp⟩
  · rw [if_neg hn]
    refine .inr ⟨hq, hn, rfl, rfl, fun i => ?_⟩
    have hstate := Scheduler.state_setState ((s.save esp).setState s.curTask .ready) s.next i .running
    rw [Scheduler.state_setState (s.save esp), Scheduler.save_state] at hstate
    exact hstate

/-- Every call keeps the current task in the table. -/
theorem Scheduler.Ok.step (h : s.Ok) (c : Call) : (s.step kstacks c).Ok := by
  unfold Scheduler.Ok at h ⊢
  cases c with
  | tick esp =>
    rcases tick_cases s esp with ⟨-, hc, hn, -⟩ | ⟨-, -, hc, hn, -⟩
    · simp only [Scheduler.step, hc, hn, h]
    · simp only [Scheduler.step, hc, hn, Scheduler.Ok.next h]
  | addTask entry userEsp =>
    simp only [Scheduler.step, schedAddTask]
    split
    · exact h
    · exact Nat.lt_succ_of_lt h
  | killTask id =>
    simp only [Scheduler.step, schedKillTask]
    split <;> exact h
  | killCurrent => exact h

theorem schedInit_ok (s : Scheduler) : (schedInit kstacks s).Ok := Nat.zero_lt_one

end Calls

end WarkRune.Sched
