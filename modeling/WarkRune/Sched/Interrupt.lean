import WarkRune.Sched.Contexts

/-!
# The timer interrupt

The processor pushes where it was, on the stack of the TSS when it comes from ring 3 and on its own
otherwise. `timer_handler` pushes the general registers behind that and calls `sched_tick` with the
stack pointer; it goes on with the stack pointer that is returned, and pops from there.

A stack is the words at its addresses, as in the model of the scheduler. What the calls of the
handler write on the stack below the registers is listed with the interrupt.

## Main definitions

* `Cpu`: the registers
* `Cpu.frame`: the words that an interrupt saves
* `resume`: what `popad` and `iret` make of the words on a stack
* `timerHandler`: the handler

## Main results

* `resume_frame`: what has been saved is resumed
* `Saved.congr`: what is saved on a stack depends on that stack only
-/

namespace WarkRune.Sched

/-- The registers. -/
structure Cpu where
  eax : UInt32
  ecx : UInt32
  edx : UInt32
  ebx : UInt32
  ebp : UInt32
  esi : UInt32
  edi : UInt32
  esp : UInt32
  eip : UInt32
  eflags : UInt32
  cs : UInt32
  ss : UInt32
  deriving DecidableEq

/-- The processor, and what the scheduler acts on. -/
structure Kernel where
  cpu : Cpu
  sched : Scheduler

namespace Cpu

/-- The processor runs in ring 3. -/
def User (c : Cpu) : Prop := c.cs &&& 3 = 3

instance decidableUser (c : Cpu) : Decidable c.User := inferInstanceAs (Decidable (c.cs &&& 3 = 3))

/-- What an interrupt pushes. -/
def trapFrame (c : Cpu) : List UInt32 :=
  if c.User then [c.ss, c.esp, c.eflags, c.cs, c.eip] else [c.eflags, c.cs, c.eip]

/-- Where an interrupt begins to push. -/
def trapTop (c : Cpu) (tssEsp0 : UInt32) : UInt32 := if c.User then tssEsp0 else c.esp

/-- What an interrupt and `pushad` push from `top` on. -/
def frame (c : Cpu) (top : UInt32) : List UInt32 :=
  c.trapFrame ++
    [c.eax, c.ecx, c.edx, c.ebx, top - 4 * UInt32.ofNat c.trapFrame.length, c.ebp, c.esi, c.edi]

/-- The number of words that are pushed. -/
def frameLen (c : Cpu) : ℕ := if c.User then 13 else 11

/-- The registers that `sched_add_task` prepares. -/
def start (entry userEsp : UInt32) : Cpu :=
  ⟨0, 0, 0, 0, 0, 0, 0, userEsp, entry, 0x200, 0x1B, 0x23⟩

theorem length_frame (c : Cpu) (top : UInt32) : (c.frame top).length = c.frameLen := by
  unfold frame frameLen trapFrame
  split
  · rfl
  · rfl

end Cpu

/-- `popad` and `iret` from the stack pointer `esp`: a return to ring 3 takes the stack with it. -/
def resume (m : UInt32 → UInt32) (esp : UInt32) : Cpu :=
  let w := fun k => m (esp + 4 * UInt32.ofNat k)
  let user := w 9 &&& 3 = 3
  { edi := w 0, esi := w 1, ebp := w 2, ebx := w 4, edx := w 5, ecx := w 6, eax := w 7
    eip := w 8, cs := w 9, eflags := w 10
    esp := if user then w 11 else esp + 44
    ss := if user then w 12 else 0x10 }

/-- Words stored at addresses. -/
def store (m : UInt32 → UInt32) (ws : List (UInt32 × UInt32)) : UInt32 → UInt32 :=
  ws.foldl (fun m w => Function.update m w.1 w.2) m

/-- `timer_handler`, whose calls leave `scratch` on the stack. -/
def timerHandler (scratch : List (UInt32 × UInt32)) (k : Kernel) : Kernel :=
  let top := k.cpu.trapTop k.sched.tssEsp0
  let p := (k.cpu.frame top).foldl push (top, k.sched.mem)
  let r := schedTick p.1 { k.sched with mem := store p.2 scratch }
  ⟨resume r.2.mem r.1, r.2⟩

/-! ## Saving and resuming -/

variable {m m' : UInt32 → UInt32} {esp top : UInt32} {c : Cpu}

theorem store_of_notMem {ws : List (UInt32 × UInt32)} {a : UInt32} (h : ∀ w ∈ ws, w.1 ≠ a) :
    store m ws a = m a := by
  unfold store
  induction ws generalizing m with
  | nil => rfl
  | cons w ws ih =>
    rw [List.foldl_cons, ih fun v hv => h v (List.mem_cons_of_mem w hv)]
    exact Function.update_of_ne (h w List.mem_cons_self).symm ..

/-- Words counted from the stack pointer up and from the top down. -/
theorem word_address (top : UInt32) {n i j : ℕ} (h : n = j + (i + 1)) :
    top - 4 * UInt32.ofNat n + 4 * UInt32.ofNat j = top - 4 * UInt32.ofNat (i + 1) := by
  rw [h, UInt32.ofNat_add j (i + 1)]
  grind

/-- The words of a frame from the stack pointer up. -/
theorem Frame.word {ws : List UInt32} (h : Frame m top esp ws) {k : ℕ} (hk : k < ws.length) :
    m (esp + 4 * UInt32.ofNat k) = ws.getD (ws.length - 1 - k) 0 := by
  obtain ⟨hsp, hmem⟩ := h
  have haddr := word_address top (n := ws.length) (i := ws.length - 1 - k) (j := k) (by omega)
  rw [hsp, haddr]
  exact hmem (ws.length - 1 - k) (by omega)

/-- The words that come back in ring 3. The stack pointer that `pushad` pushes is not popped. -/
theorem resume_user {x : UInt32} (hu : c.User) (h : Frame m top esp [c.ss, c.esp, c.eflags, c.cs,
    c.eip, c.eax, c.ecx, c.edx, c.ebx, x, c.ebp, c.esi, c.edi]) : resume m esp = c := by
  have hword : ∀ k < 13, m (esp + 4 * UInt32.ofNat k) = [c.ss, c.esp, c.eflags, c.cs, c.eip,
      c.eax, c.ecx, c.edx, c.ebx, x, c.ebp, c.esi, c.edi].getD (12 - k) 0 := fun _ hk => h.word hk
  have hcs : m (esp + 4 * UInt32.ofNat 9) = c.cs := hword 9 (by decide)
  have hring : c.cs &&& 3 = 3 := hu
  unfold resume
  simp only [hcs, if_pos hring]
  rw [hword 0 (by decide), hword 1 (by decide), hword 2 (by decide),
    hword 4 (by decide), hword 5 (by decide), hword 6 (by decide),
    hword 7 (by decide), hword 8 (by decide), hword 10 (by decide),
    hword 11 (by decide), hword 12 (by decide)]
  rfl

/-- The words that come back in ring 0, where the stack is the one that was pushed on. -/
theorem resume_kernel {x : UInt32} (hu : ¬ c.User) (hss : c.ss = 0x10) (htop : top = c.esp)
    (h : Frame m top esp [c.eflags, c.cs, c.eip, c.eax, c.ecx, c.edx, c.ebx, x, c.ebp, c.esi,
      c.edi]) : resume m esp = c := by
  have hword : ∀ k < 11, m (esp + 4 * UInt32.ofNat k) = [c.eflags, c.cs, c.eip, c.eax, c.ecx,
      c.edx, c.ebx, x, c.ebp, c.esi, c.edi].getD (10 - k) 0 := fun _ hk => h.word hk
  have hcs : m (esp + 4 * UInt32.ofNat 9) = c.cs := hword 9 (by decide)
  have hring : ¬ c.cs &&& 3 = 3 := hu
  have hesp : esp + 44 = c.esp := by
    rw [h.1, ← htop]
    exact UInt32.sub_add_cancel ..
  unfold resume
  simp only [hcs, if_neg hring, hesp, ← hss]
  rw [hword 0 (by decide), hword 1 (by decide), hword 2 (by decide),
    hword 4 (by decide), hword 5 (by decide), hword 6 (by decide),
    hword 7 (by decide), hword 8 (by decide), hword 10 (by decide)]
  rfl

/-- **What has been saved is resumed**, in ring 3 from wherever it is saved and in ring 0 from the
stack that it runs on. -/
theorem resume_frame (h : Frame m top esp (c.frame top))
    (hc : ¬ c.User → c.ss = 0x10 ∧ top = c.esp) : resume m esp = c := by
  unfold Cpu.frame Cpu.trapFrame at h
  by_cases hu : c.User
  · simp only [if_pos hu] at h
    exact resume_user hu h
  · simp only [if_neg hu] at h
    exact resume_kernel hu (hc hu).1 (hc hu).2 h

/-! ## The stacks -/

section Stacks

variable (kstacks : UInt32) {t n : ℕ}

/-- The task on whose stack an address lies. Everything outside of the kernel stacks of the other
tasks is the first one's. -/
def stackOf (a : UInt32) : ℕ :=
  let i := (a - kstacks).toNat / kstackSize.toNat
  if i < maxTasks then i else 0

/-- The `n` words from `esp` up are on the stack of the task. -/
def Owned (t : ℕ) (esp : UInt32) (n : ℕ) : Prop :=
  ∀ k < n, stackOf kstacks (esp + 4 * UInt32.ofNat k) = t

/-- The registers `c` of the task are saved on its stack, at `esp`. -/
structure Saved (m : UInt32 → UInt32) (t : ℕ) (esp : UInt32) (c : Cpu) : Prop where
  regs : resume m esp = c
  owned : Owned kstacks t esp c.frameLen

variable {kstacks}

theorem Owned.mono (h : Owned kstacks t esp n) {j : ℕ} (hj : j ≤ n) : Owned kstacks t esp j :=
  fun k hk => h k (Nat.lt_of_lt_of_le hk hj)

/-- What is saved depends on its words only. -/
theorem Saved.congr_words (h : Saved kstacks m t esp c)
    (hm : ∀ k < c.frameLen, m' (esp + 4 * UInt32.ofNat k) = m (esp + 4 * UInt32.ofNat k)) :
    Saved kstacks m' t esp c := by
  obtain ⟨rfl, howned⟩ := h
  have hle : 11 ≤ (resume m esp).frameLen := by
    unfold Cpu.frameLen
    split <;> decide
  have hlow : ∀ k < 11, m' (esp + 4 * UInt32.ofNat k) = m (esp + 4 * UInt32.ofNat k) :=
    fun k hk => hm k (Nat.lt_of_lt_of_le hk hle)
  have hsame : resume m' esp = resume m esp := by
    have hcs : m' (esp + 4 * UInt32.ofNat 9) = m (esp + 4 * UInt32.ofNat 9) := hlow 9 (by decide)
    by_cases hu : (resume m esp).User
    · have hlen : (resume m esp).frameLen = 13 := if_pos hu
      rw [hlen] at hm
      unfold resume
      simp only [hm 0 (by decide), hm 1 (by decide), hm 2 (by decide),
        hm 4 (by decide), hm 5 (by decide), hm 6 (by decide), hm 7 (by decide),
        hm 8 (by decide), hcs, hm 10 (by decide), hm 11 (by decide),
        hm 12 (by decide)]
    · have hring : ¬ m (esp + 4 * UInt32.ofNat 9) &&& 3 = 3 := hu
      unfold resume
      simp only [hlow 0 (by decide), hlow 1 (by decide), hlow 2 (by decide), hlow 4 (by decide),
        hlow 5 (by decide), hlow 6 (by decide), hlow 7 (by decide), hlow 8 (by decide), hcs,
        hlow 10 (by decide), if_neg hring]
  exact ⟨hsame, howned⟩

/-- **What is saved on a stack depends on that stack only.** -/
theorem Saved.congr (h : Saved kstacks m t esp c)
    (hm : ∀ a, stackOf kstacks a = t → m' a = m a) : Saved kstacks m' t esp c :=
  h.congr_words fun k hk => hm _ (h.owned k hk)

/-- The frame of a task lies on its kernel stack. -/
theorem owned_stackTop (ht : t < maxTasks) : Owned kstacks t (stackTop kstacks t - 52) 13 := by
  intro k hk
  have hoff : stackTop kstacks t - 52 + 4 * UInt32.ofNat k - kstacks =
      UInt32.ofNat (t * 16384 + (16332 + 4 * k)) := by
    have hcast : UInt32.ofNat (t * 16384 + (16332 + 4 * k)) =
        UInt32.ofNat t * 16384 + (16332 + 4 * UInt32.ofNat k) := by
      rw [UInt32.ofNat_add, UInt32.ofNat_add, UInt32.ofNat_mul, UInt32.ofNat_mul]
      rfl
    rw [hcast]
    unfold stackTop kstackSize
    grind
  have hmax : maxTasks = 4 := rfl
  have hdiv : (t * 16384 + (16332 + 4 * k)) / 16384 = t := by omega
  unfold stackOf
  rw [hoff, UInt32.toNat_ofNat', Nat.mod_eq_of_lt (by omega), show kstackSize.toNat = 16384 from rfl]
  simp only [hdiv, if_pos ht]

end Stacks

end WarkRune.Sched
