import WarkRune.Sched.Interrupt

/-!
# The assembly stubs

A program asks the kernel with `int 0x80`. `syscall_stub` saves the registers as the timer interrupt
does, passes five of them to `syscall_handler`, and stores what that returns where `popad` takes
`eax` from. To the program a system call is an instruction that changes `eax`.

`elf_exec` runs a program between `ksetjmp` and `klongjmp`. `klongjmp` takes back the registers that
`ksetjmp` put into the buffer, and returns. The address it returns to is the one on the stack:
`ksetjmp` keeps a copy of it in the buffer, which nothing reads.

## Main definitions

* `syscallStub`: the stub of the system calls, around any handler
* `ksetjmp`, `klongjmp`: a context is kept, and taken back
* `Continues`: the processor goes on behind a call

## Main results

* `resume_eq_iff`: which words of a frame have to be there when it is popped
* `syscallStub_returns_iff`: a system call changes `eax` only, as long as its frame is kept
* `klongjmp_resumes_iff`: `klongjmp` resumes where `ksetjmp` returned if and only if the return
  address of `ksetjmp` is still on the stack
-/

namespace WarkRune.Sched

variable {m m' : UInt32 → UInt32} {esp : UInt32} {c c' : Cpu}

/-! ## The words of a frame -/

/-- The words that registers come back from, the one of `eax` apart. The stack pointer that `pushad`
pushes is not popped. -/
def Cpu.popped (c : Cpu) : List ℕ := [0, 1, 2, 4, 5, 6, 8, 9, 10] ++ if c.User then [11, 12] else []

/-- A frame that gives back the registers and another `eax`. -/
theorem resume_eq_iff : resume m' esp = { resume m esp with eax := m' (esp + 28) } ↔
    ∀ k ∈ (resume m esp).popped, m' (esp + 4 * UInt32.ofNat k) = m (esp + 4 * UInt32.ofNat k) := by
  have hiff : (m (esp + 4 * UInt32.ofNat 9) &&& 3 = 3) ↔ (resume m esp).User := Iff.rfl
  unfold Cpu.popped
  by_cases hu : (resume m esp).User
  · simp only [if_pos hu, List.cons_append, List.nil_append, List.forall_mem_cons]
    have hring := hiff.mpr hu
    constructor
    · intro h
      have hcs : m' (esp + 4 * UInt32.ofNat 9) = m (esp + 4 * UInt32.ofNat 9) := congrArg Cpu.cs h
      have hring' : m' (esp + 4 * UInt32.ofNat 9) &&& 3 = 3 := by rw [hcs, hring]
      have hesp := congrArg Cpu.esp h
      have hstack := congrArg Cpu.ss h
      simp only [resume, if_pos hring, if_pos hring'] at hesp hstack
      exact ⟨congrArg Cpu.edi h, congrArg Cpu.esi h, congrArg Cpu.ebp h, congrArg Cpu.ebx h,
        congrArg Cpu.edx h, congrArg Cpu.ecx h, congrArg Cpu.eip h, hcs, congrArg Cpu.eflags h,
        hesp, hstack, fun _ hk => absurd hk List.not_mem_nil⟩
    · intro ⟨h0, h1, h2, h4, h5, h6, h8, h9, h10, h11, h12, _⟩
      unfold resume
      simp only [h0, h1, h2, h4, h5, h6, h8, h9, h10, h11, h12]
      rfl
  · simp only [if_neg hu, List.append_nil, List.forall_mem_cons]
    have hring : ¬ m (esp + 4 * UInt32.ofNat 9) &&& 3 = 3 := fun h => hu (hiff.mp h)
    constructor
    · intro h
      exact ⟨congrArg Cpu.edi h, congrArg Cpu.esi h, congrArg Cpu.ebp h, congrArg Cpu.ebx h,
        congrArg Cpu.edx h, congrArg Cpu.ecx h, congrArg Cpu.eip h, congrArg Cpu.cs h,
        congrArg Cpu.eflags h, fun _ hk => absurd hk List.not_mem_nil⟩
    · intro ⟨h0, h1, h2, h4, h5, h6, h8, h9, h10, _⟩
      unfold resume
      simp only [h0, h1, h2, h4, h5, h6, h8, h9, h10, if_neg hring]
      rfl

/-- What is pushed lies below the words that were there. -/
theorem push_keeps {ws : List UInt32} (hws : ws.length < 2 ^ 28) {k : ℕ} (hk : k < 2 ^ 28) :
    (ws.foldl push (esp, m)).2 (esp + 4 * UInt32.ofNat k) = m (esp + 4 * UInt32.ofNat k) := by
  refine (push_spec ws (by omega) esp m).2 _ fun i hi h => ?_
  have hzero : (4 : UInt32) * UInt32.ofNat (k + (i + 1)) = 4 * UInt32.ofNat 0 := by
    rw [UInt32.ofNat_add]
    grind
  exact absurd (ofNat_mul_four_inj (by omega) (by omega) hzero) (by omega)

/-! ## System calls -/

section Syscall

/-- `syscall_handler`: what it returns and stores for `num`, `a`, `b`, `c` and `d`. -/
abbrev Handler := UInt32 → UInt32 → UInt32 → UInt32 → UInt32 → (UInt32 → UInt32) →
  UInt32 × (UInt32 → UInt32)

/-- The stack behind `pushad`. -/
def Cpu.trapped (c : Cpu) (tssEsp0 : UInt32) (m : UInt32 → UInt32) :
    UInt32 × (UInt32 → UInt32) :=
  (c.frame (c.trapTop tssEsp0)).foldl push (c.trapTop tssEsp0, m)

/-- The stack when `syscall_handler` is called: `d` is the `esi` that `pushad` has pushed. -/
def Cpu.arguments (c : Cpu) (tssEsp0 : UInt32) (m : UInt32 → UInt32) :
    UInt32 × (UInt32 → UInt32) :=
  let p := c.trapped tssEsp0 m
  [p.2 (p.1 + 4), c.edx, c.ecx, c.ebx, c.eax].foldl push p

/-- `syscall_stub`, from `int 0x80` to `iret`. -/
def syscallStub (handler : Handler) (tssEsp0 : UInt32) (c : Cpu) (m : UInt32 → UInt32) :
    Cpu × (UInt32 → UInt32) :=
  let esp := (c.trapped tssEsp0 m).1
  let q := c.arguments tssEsp0 m
  let r := handler (q.2 q.1) (q.2 (q.1 + 4)) (q.2 (q.1 + 8)) (q.2 (q.1 + 12)) (q.2 (q.1 + 16)) q.2
  let m' := Function.update r.2 (esp + 28) r.1
  (resume m' esp, m')

variable {tssEsp0 : UInt32}

/-- What the stub has pushed would be resumed. -/
theorem resume_trapped (hss : ¬ c.User → c.ss = 0x10) :
    resume (c.trapped tssEsp0 m).2 (c.trapped tssEsp0 m).1 = c := by
  have hlen := c.length_frame (c.trapTop tssEsp0)
  have hle : c.frameLen ≤ 13 := by
    unfold Cpu.frameLen
    split <;> decide
  refine resume_frame (push_spec _ (by omega) _ m).1 fun hu => ⟨hss hu, if_neg hu⟩

/-- The call that the stub makes: the arguments are the registers of the program. -/
def Cpu.request (c : Cpu) (handler : Handler) (tssEsp0 : UInt32) (m : UInt32 → UInt32) :
    UInt32 × (UInt32 → UInt32) :=
  handler c.eax c.ebx c.ecx c.edx c.esi (c.arguments tssEsp0 m).2

theorem syscallStub_eq {handler : Handler} (hss : ¬ c.User → c.ss = 0x10) :
    syscallStub handler tssEsp0 c m =
      let r := c.request handler tssEsp0 m
      let m' := Function.update r.2 ((c.trapped tssEsp0 m).1 + 28) r.1
      (resume m' (c.trapped tssEsp0 m).1, m') := by
  have hesi : (c.trapped tssEsp0 m).2 ((c.trapped tssEsp0 m).1 + 4) = c.esi :=
    congrArg Cpu.esi (resume_trapped hss)
  have hargs := (push_spec [(c.trapped tssEsp0 m).2 ((c.trapped tssEsp0 m).1 + 4), c.edx, c.ecx,
    c.ebx, c.eax] (by decide : 5 < 2 ^ 30) (c.trapped tssEsp0 m).1 (c.trapped tssEsp0 m).2).1
  have hword : ∀ k < 5, (c.arguments tssEsp0 m).2 ((c.arguments tssEsp0 m).1 +
      4 * UInt32.ofNat k) = [c.esi, c.edx, c.ecx, c.ebx, c.eax].getD (4 - k) 0 := by
    intro k hk
    rw [← hesi]
    exact hargs.word hk
  have h0 : (c.arguments tssEsp0 m).2 (c.arguments tssEsp0 m).1 = c.eax := by
    have h := hword 0 (by decide)
    rwa [show (4 : UInt32) * UInt32.ofNat 0 = 0 from rfl, UInt32.add_zero] at h
  have h1 : (c.arguments tssEsp0 m).2 ((c.arguments tssEsp0 m).1 + 4) = c.ebx :=
    hword 1 (by decide)
  have h2 : (c.arguments tssEsp0 m).2 ((c.arguments tssEsp0 m).1 + 8) = c.ecx :=
    hword 2 (by decide)
  have h3 : (c.arguments tssEsp0 m).2 ((c.arguments tssEsp0 m).1 + 12) = c.edx :=
    hword 3 (by decide)
  have h4 : (c.arguments tssEsp0 m).2 ((c.arguments tssEsp0 m).1 + 16) = c.esi :=
    hword 4 (by decide)
  unfold syscallStub Cpu.request
  simp only [h0, h1, h2, h3, h4]

/-- **A system call changes `eax` only**: the handler gets five registers of the program, and the
program goes on with all of its registers and with what the handler returns in `eax`, if and only if
the handler leaves the words alone that the other registers come back from. -/
theorem syscallStub_returns_iff {handler : Handler} (hss : ¬ c.User → c.ss = 0x10) :
    (syscallStub handler tssEsp0 c m).1 =
        { c with eax := (c.request handler tssEsp0 m).1 } ↔
      ∀ k ∈ c.popped, (c.request handler tssEsp0 m).2 ((c.trapped tssEsp0 m).1 +
          4 * UInt32.ofNat k) =
        (c.arguments tssEsp0 m).2 ((c.trapped tssEsp0 m).1 + 4 * UInt32.ofNat k) := by
  have hback : resume (c.trapped tssEsp0 m).2 (c.trapped tssEsp0 m).1 = c := resume_trapped hss
  generalize hp : c.trapped tssEsp0 m = p at hback
  have hsmall : ∀ k ∈ c.popped, k < 13 ∧ k ≠ 7 := by
    unfold Cpu.popped
    split <;> decide
  have hkept : ∀ k ∈ c.popped, (c.arguments tssEsp0 m).2 (p.1 + 4 * UInt32.ofNat k) =
      p.2 (p.1 + 4 * UInt32.ofNat k) := by
    intro k hk
    have hlt := (hsmall k hk).1
    unfold Cpu.arguments
    rw [hp]
    refine push_keeps ?_ (by omega)
    exact (by decide : 5 < 2 ^ 28)
  rw [syscallStub_eq hss, hp]
  have hiff := @resume_eq_iff p.2 (Function.update (c.request handler tssEsp0 m).2 (p.1 + 28)
    (c.request handler tssEsp0 m).1) p.1
  rw [hback, Function.update_self] at hiff
  refine hiff.trans (forall₂_congr fun k hk => ?_)
  obtain ⟨hlt, hne⟩ := hsmall k hk
  rw [hkept k hk, Function.update_of_ne]
  intro h
  have hinj : (4 : UInt32) * UInt32.ofNat k = 4 * UInt32.ofNat 7 := (UInt32.add_right_inj _).mp h
  exact hne (ofNat_mul_four_inj (by omega) (by omega) hinj)

/-- A program of ring 3 that asks for the sum of two of its registers. -/
def asking : Cpu := ⟨40, 0, 0, 2, 5, 6, 7, 0x803FF0, 0x3000100, 0x202, 0x1B, 0x23⟩

/-- The theorem for a handler that stores nothing. -/
theorem syscallStub_returns_sum :
    (syscallStub (fun num a _ _ _ m => (num + a, m)) 0x9FFFC asking fun _ => 0).1 =
      { asking with eax := 42 } :=
  (syscallStub_returns_iff (by decide)).mpr fun _ _ => rfl

end Syscall

/-! ## Contexts -/

section Contexts

/-- `ksetjmp`, called with the stack pointer at the return address. The arithmetic flags are left
out. -/
def ksetjmp (c : Cpu) (m : UInt32 → UInt32) : Cpu × (UInt32 → UInt32) :=
  let buf := m (c.esp + 4)
  let m₁ := store m [(buf, c.ebx), (buf + 4, c.esi), (buf + 8, c.edi), (buf + 12, c.ebp),
    (buf + 16, c.esp)]
  let m₂ := store m₁ [(buf + 20, m₁ c.esp)]
  ({ c with eax := 0, ecx := m₁ c.esp, eip := m₂ c.esp, esp := c.esp + 4 }, m₂)

/-- `klongjmp`. -/
def klongjmp (c : Cpu) (m : UInt32 → UInt32) : Cpu :=
  let buf := m (c.esp + 4)
  let esp := m (buf + 16)
  { c with
    ebx := m buf, esi := m (buf + 4), edi := m (buf + 8), ebp := m (buf + 12), eax := 1
    eip := m esp, esp := esp + 4 }

/-- `r` goes on where `c` does, with the registers that a call keeps. -/
structure Continues (c r : Cpu) : Prop where
  eip : r.eip = c.eip
  esp : r.esp = c.esp
  ebx : r.ebx = c.ebx
  esi : r.esi = c.esi
  edi : r.edi = c.edi
  ebp : r.ebp = c.ebp

/-- What `ksetjmp` leaves in the buffer. -/
theorem ksetjmp_buffer : (ksetjmp c m).2 (m (c.esp + 4)) = c.ebx ∧
    (ksetjmp c m).2 (m (c.esp + 4) + 4) = c.esi ∧ (ksetjmp c m).2 (m (c.esp + 4) + 8) = c.edi ∧
    (ksetjmp c m).2 (m (c.esp + 4) + 12) = c.ebp ∧
    (ksetjmp c m).2 (m (c.esp + 4) + 16) = c.esp := by
  simp only [ksetjmp, store, List.foldl_cons, List.foldl_nil]
  generalize m (c.esp + 4) = buf
  refine ⟨?_, ?_, ?_, ?_, ?_⟩ <;> grind [Function.update_apply]

/-- **`klongjmp` resumes where `ksetjmp` returned if and only if the return address of `ksetjmp` is
still on the stack**, whatever ran in between and left the buffer alone. `ksetjmp` returns 0 and
`klongjmp` makes it return 1. -/
theorem klongjmp_resumes_iff (hbuf : m' (c'.esp + 4) = m (c.esp + 4))
    (hkept : ∀ k < 5, m' (m (c.esp + 4) + 4 * UInt32.ofNat k) =
      (ksetjmp c m).2 (m (c.esp + 4) + 4 * UInt32.ofNat k)) :
    ((ksetjmp c m).1.eax = 0 ∧ (klongjmp c' m').eax = 1) ∧
      (Continues (ksetjmp c m).1 (klongjmp c' m') ↔ m' c.esp = (ksetjmp c m).2 c.esp) := by
  obtain ⟨hebx, hesi, hedi, hebp, hesp⟩ := ksetjmp_buffer (c := c) (m := m)
  rw [← hbuf] at hkept hebx hesi hedi hebp hesp
  have hzero := hkept 0 (by decide)
  rw [show (4 : UInt32) * UInt32.ofNat 0 = 0 from rfl, UInt32.add_zero] at hzero
  have hebx' : (klongjmp c' m').ebx = c.ebx := hzero.trans hebx
  have hesi' : (klongjmp c' m').esi = c.esi := (hkept 1 (by decide)).trans hesi
  have hedi' : (klongjmp c' m').edi = c.edi := (hkept 2 (by decide)).trans hedi
  have hebp' : (klongjmp c' m').ebp = c.ebp := (hkept 3 (by decide)).trans hebp
  have hsaved : m' (m' (c'.esp + 4) + 16) = c.esp := (hkept 4 (by decide)).trans hesp
  have heip : (klongjmp c' m').eip = m' c.esp := congrArg m' hsaved
  have hesp' : (klongjmp c' m').esp = c.esp + 4 := congrArg (· + 4) hsaved
  exact ⟨⟨rfl, rfl⟩, fun h => heip.symm.trans h.eip,
    fun h => ⟨heip.trans h, hesp', hebx', hesi', hedi', hebp'⟩⟩

/-- `ksetjmp` is called with the buffer at `0x5000`. -/
def calling : Cpu := ⟨0, 0, 0, 1, 2, 3, 4, 0x8FFF0, 0x8000, 2, 8, 0x10⟩

def callingStack : UInt32 → UInt32 :=
  store (fun _ => 0) [(0x8FFF0, 0x8123), (0x8FFF4, 0x5000)]

/-- The theorem for a return address that has been overwritten: the call of `jump_usermode` stores its
arguments there. -/
theorem klongjmp_elsewhere : ¬ Continues (ksetjmp calling callingStack).1
    (klongjmp { calling with esp := 0x8FE00 }
      (store (ksetjmp calling callingStack).2 [(0x8FE04, 0x5000), (0x8FFF0, 0x3000100)])) := by
  intro h
  refine absurd ((klongjmp_resumes_iff ?_ ?_).2.mp h) ?_
  · decide +kernel
  · decide +kernel
  · decide +kernel

end Contexts

end WarkRune.Sched
