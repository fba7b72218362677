import WarkRune.Fat12.Session
import WarkRune.Syscall.Handler

/-!
# What the system calls write

The pointers in the arguments of a call, with the lengths the call takes them to have, are its
extents. A call is confined when it stores at user addresses only, and stores nothing at all as soon
as one of its extents reaches out of user space. All calls are confined but two: `kfree` takes any
pointer with the magic number in front of it, and `kmem_info` takes any second pointer.

## Main definitions

* `Request.extents`: the pointers and lengths of a call
* `Confined`: the stores of a call stay in user space
* `Sealed`: the pointer that is freed, and the second output of `kmem_info`, are in user space

## Main results

* `validUserPtr_iff`: what the check of a pointer decides
* `erase_kfree`, `returns_fdReadTo`: what `kfree` and `fd_read` do beside their stores
* `within_syscallHandler`: the events of a sealed call
* `confined_iff`: a call is confined exactly when it is sealed
-/

namespace WarkRune.Syscall

open Bytes (Memory)
open Fat12 (asInt)
open Traced (Within)
open WarkRune.Memory (Heap kmemInfo kmemInfoRound blockMagic headerSize)
open Ipc (FDType fdRead keyRound readPipe)

/-- An address of user space. -/
def UserAddr (x : ℕ) : Prop := 1 ≤ x ∧ x < userSpaceEnd

/-- The `n` bytes at the pointer are in user space. -/
def Inside (p : BitVec 32) (n : ℕ) : Prop := UserAddr p.toNat ∧ p.toNat + n ≤ userSpaceEnd

/-- The pointers `SYS_MEM` gets and the lengths they are used with. -/
def memExtents (a b c : BitVec 32) : List (BitVec 32 × ℕ) :=
  if a = 1 then [(b, 0)].filter fun p => p.1 ≠ 0
  else if a = 2 ∨ a = 3 then [(b, 4), (c, 4)].filter fun p => p.1 ≠ 0
  else []

/-- The pointers `SYS_FS` gets and the lengths they are used with. -/
def fsExtents (a b c d : BitVec 32) : List (BitVec 32 × ℕ) :=
  if a = 0 then [(b, 0), (c, d.toNat)] else if a.toNat ≤ 4 then [(b, 0)] else []

/-- The pointers among the arguments of a call, with the lengths they are used with; a string has
length 0. The pointers of `SYS_MEM` that are null are no outputs. -/
def Request.extents (r : Request) : List (BitVec 32 × ℕ) :=
  match r.num.toNat with
  | 0 | 4 | 9 => [(r.a, 0)]
  | 2 | 3 => [(r.b, r.c.toNat)]
  | 7 => [(r.a, 8)]
  | 8 => [(r.a, 20)]
  | 10 => memExtents r.a r.b r.c
  | 13 => if r.a = 1 then [(r.b, r.c.toNat)] else []
  | 14 => fsExtents r.a r.b r.c r.d
  | 15 => if r.a = 4 then [(r.b, 0)] else []
  | 16 => [(r.b, 0)]
  | _ => []

/-- **The stores of a call stay in user space**: each is at a user address, and there is none when
an extent of the call reaches out. -/
structure Confined (sv : Services) (r : Request) (s : Kernel) : Prop where
  user : ∀ x, (syscallHandler sv r).Emits s x → UserAddr x
  silent : (∃ p ∈ r.extents, ¬ Inside p.1 p.2) → ∀ x, ¬ (syscallHandler sv r).Emits s x

/-- The list of the blocks of the heap comes to an end. -/
def ListEnds (h : Heap) : Prop := ∃ n, (h.next)^[n] h.head = 0

/-- **The condition**: a pointer that is freed with the magic number in front of it is in user space
and above address 8, and the second output of `kmem_info` is in user space when the call gets to
it. -/
structure Sealed (r : Request) (s : Kernel) : Prop where
  freed : r.num = 10 → r.a = 1 → r.b ≠ 0 →
    s.heap.magic ((r.b.toNat + 2 ^ 32 - headerSize) % 2 ^ 32) = blockMagic →
      8 < r.b.toNat ∧ r.b.toNat < userSpaceEnd
  second : r.num = 10 → r.a = 2 → validUserPtr r.b 8 = true → r.c ≠ 0 → ListEnds s.heap →
    validUserPtr r.c 4 = true

/-! ## Pointers -/

/-- **What `valid_user_ptr` decides.** -/
theorem validUserPtr_iff {p n : BitVec 32} : validUserPtr p n = true ↔ Inside p n.toNat := by
  have hend : (BitVec.ofNat 32 userSpaceEnd).toNat = userSpaceEnd := by decide
  have hp := p.isLt
  have hn := n.isLt
  have hzero : p = 0 ↔ p.toNat = 0 := ⟨fun h => h ▸ rfl, fun h => BitVec.eq_of_toNat_eq h⟩
  unfold validUserPtr Inside UserAddr
  split_ifs with hout hlen
  · refine iff_of_false nofun ?_
    rcases hout with h | h
    · have := BitVec.le_def.mp h
      omega
    · have := hzero.mp h
      omega
  all_goals
    obtain ⟨hlt, hne⟩ := not_or.mp hout
    replace hlt := BitVec.lt_def.mp (BitVec.not_le.mp hlt)
    rw [hzero] at hne
    have hsub : (BitVec.ofNat 32 userSpaceEnd - p).toNat = userSpaceEnd - p.toNat := by
      rw [BitVec.toNat_sub_of_le (BitVec.le_def.mpr (by omega)), hend]
  · refine iff_of_false nofun ?_
    have := BitVec.lt_def.mp hlen.2
    omega
  · refine iff_of_true rfl ?_
    rw [not_and_or, BitVec.not_lt, BitVec.not_lt, BitVec.le_def, BitVec.le_def, hsub] at hlen
    rw [hend] at hlt
    have hz : (0 : BitVec 32).toNat = 0 := rfl
    omega

variable {Q : ℕ → Prop} {s : Kernel}

/-! ## Stores -/

theorem within_putByte {a v : ℕ} (h : Q (a % 2 ^ 32)) : (putByte a v).Within s Q :=
  (Within.lift _).bind fun _ _ _ => .emit h

theorem within_putBytes {a : ℕ} {bs : List UInt8}
    (h : ∀ i, i < bs.length → Q ((a + i) % 2 ^ 32)) : (putBytes a bs).Within s Q := by
  induction bs generalizing a s with
  | nil => exact .pure _
  | cons b bs ih =>
    refine (within_putByte (h 0 (Nat.succ_pos _))).bind fun _ s' _ => ih fun i hi => ?_
    rw [Nat.add_right_comm, Nat.add_assoc]
    exact h (i + 1) (Nat.succ_lt_succ hi)

theorem emits_putByte {a v : ℕ} : (putByte a v).Emits s (a % 2 ^ 32) :=
  Traced.emits_bind.mpr (.inr ⟨(), _, Exec.returns_modify.mpr rfl, Traced.emits_emit.mpr rfl⟩)

theorem emits_putBytes {a : ℕ} {b : UInt8} {bs : List UInt8} :
    (putBytes a (b :: bs)).Emits s (a % 2 ^ 32) :=
  Traced.emits_bind.mpr (.inl emits_putByte)

/-- The addresses of the bytes at a pointer that is inside. -/
def At (p : BitVec 32) (n : ℕ) (x : ℕ) : Prop := p.toNat ≤ x ∧ x < p.toNat + n

theorem Inside.at_user {p : BitVec 32} {n x : ℕ} (h : Inside p n) (hx : At p n x) : UserAddr x :=
  ⟨h.1.1.trans hx.1, hx.2.trans_le h.2⟩

theorem Inside.mod {p : BitVec 32} {n i : ℕ} (h : Inside p n) (hi : i < n) :
    At p n ((p.toNat + i) % 2 ^ 32) := by
  have := h.2
  unfold userSpaceEnd at this
  rw [Nat.mod_eq_of_lt (by omega)]
  exact ⟨Nat.le_add_right .., by omega⟩

/-- A length that is inside is not negative. -/
theorem Inside.toInt {p n : BitVec 32} (h : Inside p n.toNat) : n.toInt = n.toNat := by
  obtain ⟨⟨hpos, -⟩, hle⟩ := h
  unfold userSpaceEnd at hle
  exact BitVec.toInt_eq_toNat_of_lt (by omega)

/-- Bytes stored at a pointer that is inside. -/
theorem Inside.putBytes {p : BitVec 32} {n : ℕ} {bs : List UInt8} (h : Inside p n)
    (hbs : bs.length ≤ n) (hQ : ∀ x, At p n x → Q x) :
    (putBytes p.toNat bs).Within s Q :=
  within_putBytes fun _ hi => hQ _ (h.mod (hi.trans_le hbs))

/-! ## Calls that store nothing -/

section Silent

variable {sv : Services} {a b c d : BitVec 32}

theorem within_textAt (p : BitVec 32) : (textAt p).Within s Q :=
  (Within.lift _).bind fun _ _ _ => .pure _

theorem within_copyKpath (p : BitVec 32) : (copyKpath p).Within s Q :=
  (Within.lift _).bind fun _ _ _ => .pure _

theorem within_sysPrint : (sysPrint sv a b).Within s Q := by
  refine .ite (fun _ => .pure _) fun _ => ?_
  refine (Within.lift _).bind fun y _ _ => (Within.lift _).bind fun _ _ _ => ?_
  exact (within_textAt a).bind fun text _ _ => (Within.lift _).bind fun _ _ _ => .pure _

theorem within_sysExit : (sysExit sv).Within s Q := (Within.lift _).bind fun _ _ _ => .pure _

theorem within_sysWrite : (sysWrite a b c).Within s Q := by
  refine .ite (fun _ => .pure _) fun _ => (Within.lift _).bind fun _ _ _ => ?_
  exact (Within.lift _).bind fun _ _ _ => .pure _

theorem within_sysOpen : (sysOpen sv a).Within s Q := by
  refine .ite (fun _ => .pure _) fun _ => (within_copyKpath a).bind fun path _ _ => ?_
  refine (Within.lift _).bind fun _ _ _ => (Within.lift _).bind fun r _ _ => ?_
  exact (Within.lift _).bind fun _ _ _ => .pure _

theorem within_sysClose : (sysClose a).Within s Q := (Within.lift _).bind fun _ _ _ => .pure _

theorem within_sysReadKey : (sysReadKey sv).Within s Q :=
  (Within.lift _).bind fun _ _ _ => .pure _

theorem within_sysShmem : (sysShmem a b c).Within s Q := by
  refine .ite (fun _ => .pure _) fun _ => (Within.lift _).bind fun _ _ _ => ?_
  refine .ite (fun _ => .lift _) fun _ => .ite (fun _ => .pure _) fun _ => ?_
  exact .ite (fun _ => (Within.lift _).bind fun _ _ _ => .pure _) fun _ => .pure _

theorem within_sysDraw : (sysDraw sv a b c d).Within s Q := by
  have hone {α : Type} (m : Exec Kernel α) (f : α → BitVec 32) :
      (liftM m >>= fun x => pure (f x) : Sys (BitVec 32)).Within s Q :=
    (Within.lift _).bind fun _ _ _ => .pure _
  refine .ite (fun _ => (Within.lift _).bind fun _ _ _ => (Within.lift _).bind fun _ _ _ => .pure _)
    fun _ => .ite (fun _ => hone _ _) fun _ => .ite (fun _ => hone _ _) fun _ =>
    .ite (fun _ => hone _ _) fun _ => .ite (fun _ => ?_) fun _ =>
    .ite (fun _ => hone _ _) fun _ => .ite (fun _ => hone _ _) fun _ => .pure _
  exact (within_textAt b).bind fun _ _ _ => (Within.lift _).bind fun _ _ _ => .pure _

theorem within_sysExec : (sysExec sv b).Within s Q := by
  refine .ite (fun _ => .pure _) fun _ => (within_copyKpath b).bind fun path _ _ => ?_
  exact (Within.lift _).bind fun _ _ _ => (Within.lift _).bind fun _ _ _ => .pure _

theorem within_fsOp {name : String} {op : Fat12.Path → Exec Kernel Bool} :
    (fsOp sv b name op).Within s Q := by
  refine .ite (fun _ => .pure _) fun _ => (within_copyKpath b).bind fun path _ _ => ?_
  exact (Within.lift _).bind fun _ _ _ => (Within.lift _).bind fun _ _ _ => .pure _

end Silent

/-! ## Calls that store -/

/-- A pipe gives no more than it is asked for. -/
theorem length_readPipe_le {size : ℕ} {p : Ipc.Pipe} : (readPipe size p).1.length ≤ size := by
  induction size generalizing p with
  | zero => exact Nat.le_refl _
  | succ size ih =>
    rw [readPipe]
    split_ifs
    · exact Nat.succ_le_succ ih
    · exact Nat.zero_le _

/-- A round of `fd_read` on the console reads at most one key. -/
theorem keyRound_cases {size : ℕ} {out : List UInt8} {x : List UInt8 ⊕ List UInt8}
    {i i' : Ipc.State} (h : (keyRound size out).Returns i x i') :
    ∃ new, x.elim id id = out ++ new ∧ (new = [] ∨ new.length = 1 ∧ out.length < size) := by
  rw [keyRound] at h
  split_ifs at h with hlt
  · simp only [Exec.returns_bind, Exec.returns_get, Exec.returns_modify] at h
    obtain ⟨_, _, ⟨rfl, rfl⟩, _, _, rfl, h⟩ := h
    split_ifs at h
    · rw [(Exec.returns_pure.mp h).1]
      exact ⟨[], (List.append_nil _).symm, .inl rfl⟩
    · rw [(Exec.returns_pure.mp h).1]
      exact ⟨_, rfl, .inr ⟨rfl, hlt⟩⟩
    · rw [(Exec.returns_pure.mp h).1]
      exact ⟨_, rfl, .inr ⟨rfl, hlt⟩⟩
  · rw [(Exec.returns_pure.mp h).1]
    exact ⟨[], (List.append_nil _).symm, .inl rfl⟩

/-- The keys read so far, after a round of `fd_read` on the console. -/
theorem length_keyRound_le {size : ℕ} {out : List UInt8} {x : List UInt8 ⊕ List UInt8}
    {i i' : Ipc.State} (h : (keyRound size out).Returns i x i') (ho : out.length ≤ size) :
    (x.elim id id).length ≤ size := by
  obtain ⟨new, hx, rfl | ⟨hnew, hlt⟩⟩ := keyRound_cases h
  · rwa [hx, List.append_nil]
  · rw [hx, List.length_append, hnew]
    exact hlt

/-- `fd_read` on anything but the console stores no more than it was asked for. -/
theorem length_fdRead_le {fd : ℤ} {size : ℕ} {r : ℤ × List UInt8} {i i' : Ipc.State}
    (h : (fdRead fd size).Returns i r i')
    (hc : ¬ (i.IsOpen fd ∧ (i.fds fd.toNat).type = .stdin)) : r.2.length ≤ size := by
  have hnil {n : ℤ} {t t' : Ipc.State} (h : (pure (n, []) : Ipc.Fd _).Returns t r t') :
      r.2.length ≤ size := by
    rw [(Exec.returns_pure.mp h).1]
    exact Nat.zero_le _
  simp only [fdRead, Exec.returns_bind, Exec.returns_get] at h
  obtain ⟨_, _, ⟨rfl, rfl⟩, h⟩ := h
  rename_i i
  by_cases ho : i.IsOpen fd
  · rw [if_pos ho] at h
    split at h
    · exact absurd ⟨ho, ‹_›⟩ hc
    · by_cases hp : (i.pipes (i.fds fd.toNat).pipeId.toNat).count = 0 ∧
          (i.pipes (i.fds fd.toNat).pipeId.toNat).writeClosed = true
      · rw [if_pos hp] at h
        exact hnil h
      · rw [if_neg hp] at h
        obtain ⟨_, _, -, h⟩ := Exec.returns_bind.mp h
        rw [(Exec.returns_pure.mp h).1]
        exact length_readPipe_le
    · obtain ⟨t, h, -⟩ := Exec.returns_on.mp h
      exact Fat12.fat12Read_length h
    · exact hnil h
  · rw [if_neg ho] at h
    exact hnil h

section Stores

variable {a b c d p : BitVec 32} {n : ℕ}

/-- A round on the console stores inside the buffer. -/
theorem within_keyStep {out : List UInt8} (h : Inside p n) (ho : out.length ≤ n)
    (hQ : ∀ x, At p n x → Q x) : (keyStep p.toNat n out).Within s Q := by
  refine (Within.lift _).bind fun x s' hr => .bind (within_putBytes fun i hi => ?_) fun _ _ _ => .pure _
  obtain ⟨t, hround, -⟩ := Exec.returns_on.mp hr
  have hlen := length_keyRound_le hround ho
  rw [List.length_drop] at hi
  rw [Nat.add_assoc]
  exact hQ _ (h.mod (by omega))

/-- **`fd_read` stores inside the buffer.** -/
theorem within_fdReadTo {fd : ℤ} (h : Inside p n) (hQ : ∀ x, At p n x → Q x) :
    (fdReadTo fd p.toNat n).Within s Q := by
  refine (Within.lift _).bind fun t t' ht => ?_
  obtain ⟨rfl, rfl⟩ := Exec.returns_get.mp ht
  refine .ite (fun _ => ?_) fun hc => (Within.lift _).bind fun r s' hr => ?_
  · refine .bind (.loop (fun out => out.length ≤ n) (fun out _ ho => within_keyStep h ho hQ) ?_
      (Nat.zero_le _)) fun _ _ _ => .pure _
    intro out s out' s' ho hr
    simp only [keyStep, Traced.erase_bind, Exec.returns_bind] at hr
    obtain ⟨x, s₁, hx, _, s₂, -, he⟩ := hr
    obtain ⟨t, hround, -⟩ := Exec.returns_on.mp hx
    cases (Exec.returns_pure.mp he).1
    exact length_keyRound_le hround ho
  · obtain ⟨t, hread, -⟩ := Exec.returns_on.mp hr
    exact (h.putBytes (length_fdRead_le hread hc) hQ).bind fun _ _ _ => .pure _

theorem within_sysRead (hQ : Inside b c.toNat → ∀ x, At b c.toNat x → Q x) :
    (sysRead a b c).Within s Q := by
  refine .ite (fun _ => .pure _) fun hv => ?_
  have h := validUserPtr_iff.mp (by simpa using hv)
  exact (within_fdReadTo h (hQ h)).bind fun _ _ _ => .pure _

theorem within_sysPipe (hQ : Inside a 8 → ∀ x, At a 8 x → Q x) : (sysPipe a).Within s Q := by
  refine .ite (fun _ => .pure _) fun hv => ?_
  have h : Inside a 8 := validUserPtr_iff.mp (by simpa using (not_or.mp hv).2)
  have hlen (u v : BitVec 32) : (wordBytes u ++ wordBytes v).length ≤ 8 := Nat.le_refl 8
  refine (Within.lift _).bind fun t _ _ => (Within.lift _).bind fun _ _ _ => ?_
  split
  · exact .pure _
  · exact (h.putBytes (hlen ..) (hQ h)).bind fun _ _ _ => .pure _

theorem within_sysMouse (hQ : Inside a 20 → ∀ x, At a 20 x → Q x) : (sysMouse a).Within s Q := by
  refine .ite (fun _ => .pure _) fun hv => ?_
  have h : Inside a 20 := validUserPtr_iff.mp (by simpa using (not_or.mp hv).2)
  refine (Within.lift _).bind fun t _ _ => ?_
  exact (h.putBytes (MouseState.length_bytes _).le (hQ h)).bind fun _ _ _ => .pure _

theorem within_sysTime (sv : Services) (hQ : a = 1 → Inside b c.toNat → ∀ x, At b c.toNat x → Q x) :
    (sysTime sv a b c).Within s Q := by
  refine .ite (fun _ => (Within.lift _).bind fun _ _ _ => .pure _) fun _ => .ite (fun ha => ?_)
    fun _ => .ite (fun _ => (Within.lift _).bind fun _ _ _ => .pure _) fun _ => .pure _
  refine .ite (fun _ => .pure _) fun hv => ?_
  have h := validUserPtr_iff.mp (by simpa using hv)
  refine .bind ((Within.lift _).bind fun _ _ _ => ?_) fun _ _ _ => .pure _
  refine .ite (fun _ => .pure _) fun hcap => ?_
  -- the text has twenty bytes, and the capacity is not below twenty
  rw [h.toInt] at hcap
  refine h.putBytes ?_ (hQ ha h)
  change 20 ≤ c.toNat
  omega

/-- A byte of a listing is stored inside the buffer. -/
theorem within_lsPut {pos : ℕ} {v : UInt8} (h : Inside p n) (hQ : ∀ x, At p n x → Q x) :
    (lsPut p.toNat n pos v).Within s Q := by
  refine .ite (fun hlt => ?_) fun _ => .pure _
  exact (within_putByte (hQ _ (h.mod (by omega)))).bind fun _ _ _ => .pure _

theorem within_lsCb {pos : ℕ} {e : Fat12.Listed} (h : Inside p n) (hQ : ∀ x, At p n x → Q x) :
    (lsCb p.toNat n pos e).Within s Q := by
  refine .ite (fun _ => .pure _) fun _ => .bind ?_ fun _ _ _ => .bind ?_ fun _ _ _ => ?_
  · exact .ite (fun _ => within_lsPut h hQ) fun _ => .pure _
  · exact .foldlM (fun _ _ _ => within_lsPut h hQ) _ _
  · exact within_lsPut h hQ

theorem within_sysLs (hQ : Inside b 0 → Inside c d.toNat → ∀ x, At c d.toNat x → Q x) :
    (sysLs b c d).Within s Q := by
  refine .ite (fun _ => .pure _) fun hv => ?_
  obtain ⟨hb, hc⟩ := not_or.mp hv
  have h₁ : Inside b 0 := validUserPtr_iff.mp (by simpa using hb)
  have h₂ : Inside c d.toNat := validUserPtr_iff.mp (by simpa using hc)
  have hint := h₂.toInt
  refine (within_copyKpath b).bind fun path _ _ => (Within.lift _).bind fun t _ _ => ?_
  refine (Within.lift _).bind fun l _ _ => .bind ?_ fun pos _ _ => .bind ?_ fun _ _ _ => .pure _
  · rw [hint]
    exact .foldlM (fun _ _ _ => within_lsCb h₂ (hQ h₁ h₂)) _ _
  · refine .ite (fun hpos => within_putByte (hQ h₁ h₂ _ (h₂.mod ?_))) fun _ => .pure _
    omega

theorem within_sysFs (sv : Services)
    (hQ : a = 0 → Inside b 0 → Inside c d.toNat → ∀ x, At c d.toNat x → Q x) :
    (sysFs sv a b c d).Within s Q :=
  .ite (fun ha => within_sysLs (hQ ha)) fun _ => .ite (fun _ => within_fsOp) fun _ =>
    .ite (fun _ => within_fsOp) fun _ => .ite (fun _ => within_fsOp) fun _ =>
    .ite (fun _ => within_fsOp) fun _ => .pure _

end Stores

/-! ## The heap -/

/-- A round of `kmem_info`: at null it ends, at a block it goes on with the next one. -/
theorem returns_kmemInfoRound {h h' : Heap} {acc : ℕ × ℕ} {cur : ℕ}
    {x : ((ℕ × ℕ) × ℕ) ⊕ (ℕ × ℕ)} (hr : (kmemInfoRound (acc, cur)).Returns h x h') :
    h' = h ∧ (cur = 0 ∧ x = .inr acc ∨ cur ≠ 0 ∧ ∃ acc', x = .inl (acc', h.next cur)) := by
  simp only [kmemInfoRound, Exec.returns_bind, Exec.returns_get] at hr
  obtain ⟨_, _, ⟨rfl, rfl⟩, hr⟩ := hr
  split_ifs at hr with hcur hfree
  · obtain ⟨rfl, rfl⟩ := Exec.returns_pure.mp hr
    exact ⟨rfl, .inl ⟨hcur, rfl⟩⟩
  · obtain ⟨rfl, rfl⟩ := Exec.returns_pure.mp hr
    exact ⟨rfl, .inr ⟨hcur, _, rfl⟩⟩
  · obtain ⟨rfl, rfl⟩ := Exec.returns_pure.mp hr
    exact ⟨rfl, .inr ⟨hcur, _, rfl⟩⟩

theorem halts_kmemInfoRound (h : Heap) (b : (ℕ × ℕ) × ℕ) : (kmemInfoRound b).Halts h := by
  refine Exec.Halts.bind ⟨h, h, Exec.returns_get.mpr ⟨rfl, rfl⟩⟩ fun h' _ _ => ?_
  split_ifs <;> exact ⟨_, _, Exec.returns_pure.mpr ⟨rfl, rfl⟩⟩

/-- **`kmem_info` returns exactly when the list of blocks ends.** -/
theorem halts_kmemInfo {h : Heap} : kmemInfo.Halts h ↔ ListEnds h := by
  constructor
  · rintro ⟨r, h', hr⟩
    obtain ⟨_, _, hg, hr⟩ := Exec.returns_bind.mp hr
    obtain ⟨rfl, rfl⟩ := Exec.returns_get.mp hg
    rename_i h
    refine hr.loop_induct (P := fun b h _ _ => ∃ n, h.next^[n] b.2 = 0) ?_ ?_
    · rintro ⟨acc, cur⟩ h a h' hb
      rcases (returns_kmemInfoRound hb).2 with ⟨rfl, -⟩ | ⟨-, acc', hx⟩
      · exact ⟨0, rfl⟩
      · cases hx
    · rintro ⟨acc, cur⟩ h b' h₁ a h' hb ⟨n, hn⟩
      obtain ⟨rfl, ⟨-, hx⟩ | ⟨-, acc', hx⟩⟩ := returns_kmemInfoRound hb
      · cases hx
      · cases hx
        exact ⟨n + 1, hn⟩
  · rintro ⟨n, hn⟩
    -- by induction on the number of blocks up to the end
    have hloop (k : ℕ) (acc : ℕ × ℕ) (cur : ℕ) (hk : h.next^[k] cur = 0) :
        (Exec.loop kmemInfoRound (acc, cur)).Halts h := by
      induction k generalizing acc cur with
      | zero =>
        obtain ⟨x, h', hx⟩ := halts_kmemInfoRound h (acc, cur)
        obtain ⟨rfl, ⟨-, rfl⟩ | ⟨hcur, -⟩⟩ := returns_kmemInfoRound hx
        · exact ⟨_, _, hx.loop_done⟩
        · exact absurd hk hcur
      | succ k ih =>
        obtain ⟨x, h', hx⟩ := halts_kmemInfoRound h (acc, cur)
        obtain ⟨rfl, ⟨-, rfl⟩ | ⟨-, acc', rfl⟩⟩ := returns_kmemInfoRound hx
        · exact ⟨_, _, hx.loop_done⟩
        · obtain ⟨r, h'', hr⟩ := ih acc' _ hk
          exact ⟨r, h'', hx.loop_next hr⟩
    exact Exec.Halts.bind ⟨h, h, Exec.returns_get.mpr ⟨rfl, rfl⟩⟩ fun h₁ h₂ hg => by
      obtain ⟨rfl, rfl⟩ := Exec.returns_get.mp hg
      exact hloop n _ _ hn

section Heap

variable {b c : BitVec 32}

/-- The address of the flag that `kfree` clears. -/
theorem flag_eq : ((b.toNat + 2 ^ 32 - headerSize) % 2 ^ 32 + 8) % 2 ^ 32 =
    (b.toNat + 2 ^ 32 - 8) % 2 ^ 32 := by
  unfold headerSize
  omega

/-- **What `kfree` stores**: the flag in the header, if there is one. -/
theorem within_kfree (hQ : b ≠ 0 →
    s.heap.magic ((b.toNat + 2 ^ 32 - headerSize) % 2 ^ 32) = blockMagic →
      Q ((b.toNat + 2 ^ 32 - 8) % 2 ^ 32)) : (kfree b.toNat).Within s Q := by
  refine (Within.lift _).bind fun t t' ht => ?_
  obtain ⟨rfl, rfl⟩ := Exec.returns_get.mp ht
  refine .ite (fun _ => .pure _) fun hb => .ite (fun _ => .pure _) fun hm => ?_
  refine (within_putByte ?_).bind fun _ _ _ => .lift _
  rw [flag_eq]
  exact hQ (fun h => hb (h ▸ rfl)) (not_not.mp hm)

theorem emits_kfree (hb : b ≠ 0)
    (hm : s.heap.magic ((b.toNat + 2 ^ 32 - headerSize) % 2 ^ 32) = blockMagic) :
    (kfree b.toNat).Emits s ((b.toNat + 2 ^ 32 - 8) % 2 ^ 32) := by
  have hb' : b.toNat ≠ 0 := fun h => hb (BitVec.eq_of_toNat_eq h)
  refine Traced.emits_bind.mpr (.inr ⟨s, s, Exec.returns_get.mpr ⟨rfl, rfl⟩, ?_⟩)
  rw [if_neg hb', if_neg (not_not.mpr hm), ← flag_eq]
  exact Traced.emits_bind.mpr (.inl emits_putByte)

/-- **What `kmem_info` stores**: both words, once it has walked the list. -/
theorem within_kmemInfoTo (hQ : ListEnds s.heap →
    ∀ p ∈ [b, c], p ≠ 0 → ∀ i, i < 4 → Q ((p.toNat + i) % 2 ^ 32)) :
    (kmemInfoTo b c).Within s Q := by
  refine (Within.lift _).bind fun r t ht => ?_
  obtain ⟨h', hr, -⟩ := Exec.returns_on.mp ht
  have hend := halts_kmemInfo.mp hr.halts
  refine .bind (.ite (fun hb => within_putBytes ?_) fun _ => .pure _) fun _ _ _ =>
    .ite (fun hc => within_putBytes ?_) fun _ => .pure _
  · exact hQ hend b (by simp) hb
  · exact hQ hend c (by simp) hc

theorem emits_kmemInfoTo (hb : b ≠ 0) (hend : ListEnds s.heap) :
    (kmemInfoTo b c).Emits s (b.toNat % 2 ^ 32) := by
  obtain ⟨r, h', hr⟩ := halts_kmemInfo.mpr hend
  refine Traced.emits_bind.mpr (.inr ⟨r, _, Exec.returns_on.mpr ⟨h', hr, rfl⟩, ?_⟩)
  refine Traced.emits_bind.mpr (.inl ?_)
  rw [if_pos hb]
  exact emits_putBytes

/-- The operation that reports the frames stores where it has checked. -/
theorem within_sysPmmInfo (hQ : (∀ p ∈ [b, c], p ≠ 0 → Inside p 4) →
    ∀ p ∈ [b, c], p ≠ 0 → ∀ x, At p 4 x → Q x) : (sysPmmInfo b c).Within s Q := by
  refine .ite (fun _ => .pure _) fun hb => .ite (fun _ => .pure _) fun hc => ?_
  have hone {p : BitVec 32} (h : ¬ (p ≠ 0 ∧ !validUserPtr p 4)) (h0 : p ≠ 0) : Inside p 4 := by
    have hv : validUserPtr p 4 = true := by
      by_contra hv
      exact h ⟨h0, by simpa using hv⟩
    exact validUserPtr_iff.mp hv
  have hin : ∀ p ∈ [b, c], p ≠ 0 → Inside p 4 := by
    intro p hp
    rcases List.mem_cons.mp hp with rfl | hp
    · exact hone hb
    · obtain rfl := List.mem_singleton.mp hp
      exact hone hc
  have hput (p : BitVec 32) (v : BitVec 32) (t : Kernel) (hp : p ∈ [b, c]) (h0 : p ≠ 0) :
      (putBytes p.toNat (wordBytes v)).Within t Q :=
    (hin p hp h0).putBytes (length_wordBytes v).le (hQ hin p hp h0)
  refine (Within.lift _).bind fun t _ _ => ?_
  refine .bind (.ite (fun h => hput _ _ _ (by simp) h) fun _ => .pure _) fun _ _ _ => ?_
  exact .bind (.ite (fun h => hput _ _ _ (by simp) h) fun _ => .pure _) fun _ _ _ => .pure _

end Heap

/-! ## The stores and the operations -/

/-- **`kfree` is the operation of the heap.** -/
theorem erase_kfree (ptr : ℕ) :
    (kfree ptr).erase = (WarkRune.Memory.kfree ptr).on Kernel.heapPart := by
  ext n s : 3
  have hheap : Kernel.heapPart.get s = s.heap := rfl
  simp only [kfree, WarkRune.Memory.kfree, putByte, Traced.erase_bind, Traced.erase_get,
    Traced.erase_ite, Traced.erase_pure, Traced.erase_modify, Traced.erase_emit,
    Traced.erase_liftM, Exec.on, Exec.run_bind, Exec.run_get, Option.bind_some, hheap]
  by_cases hp : ptr = 0
  · rw [if_pos hp, if_pos hp]
    rfl
  · rw [if_neg hp, if_neg hp]
    split
    · rfl
    · rfl

/-- Bytes stored one by one. -/
theorem returns_putBytes {a : ℕ} {bs : List UInt8} {s' : Kernel} {u : Unit} :
    (putBytes a bs).erase.Returns s u s' ↔
      s' = s.setMem (s.mem.storeBytes a (bs.map UInt8.toBitVec)) := by
  induction bs generalizing a s with
  | nil => exact ⟨fun h => (Exec.returns_pure.mp h).2, fun h => Exec.returns_pure.mpr ⟨rfl, h⟩⟩
  | cons b bs ih =>
    simp only [putBytes, putByte, Traced.erase_bind, Traced.erase_modify, Traced.erase_emit,
      Exec.returns_bind, Exec.returns_modify, Exec.returns_pure, ih]
    constructor
    · rintro ⟨_, _, ⟨_, _, rfl, -, rfl⟩, rfl⟩
      rfl
    · rintro rfl
      exact ⟨(), _, ⟨(), _, rfl, trivial, rfl⟩, rfl⟩

/-- The wait for keys stores what it reads. -/
theorem returns_keyLoop {buf size : ℕ} {out res : List UInt8} {s' : Kernel}
    (h : (Traced.loop (keyStep buf size) out).erase.Returns s res s') :
    ∃ new i, res = out ++ new ∧ (Exec.loop (keyRound size) out).Returns s.ipc res i ∧
      s' = Kernel.setMem (s.mem.storeBytes (buf + out.length) (new.map UInt8.toBitVec))
        { s with ipc := i } := by
  -- one round stores its new bytes behind those read so far
  have hstep {out : List UInt8} {s s' : Kernel} {x : List UInt8 ⊕ List UInt8}
      (h : (keyStep buf size out).erase.Returns s x s') :
      ∃ new i, x.elim id id = out ++ new ∧ (keyRound size out).Returns s.ipc x i ∧
        s' = Kernel.setMem (s.mem.storeBytes (buf + out.length) (new.map UInt8.toBitVec))
          { s with ipc := i } := by
    simp only [keyStep, Traced.erase_bind, Exec.returns_bind, returns_putBytes] at h
    obtain ⟨y, s₁, hy, _, s₂, rfl, he⟩ := h
    obtain ⟨i, hround, rfl⟩ := Exec.returns_on.mp hy
    obtain ⟨rfl, rfl⟩ := Exec.returns_pure.mp he
    obtain ⟨new, hnew, -⟩ := keyRound_cases hround
    refine ⟨new, i, hnew, hround, ?_⟩
    rw [hnew, List.drop_left]
    rfl
  rw [Traced.erase_loop] at h
  refine h.loop_induct (P := fun out s res s' => ∃ new i, res = out ++ new ∧
    (Exec.loop (keyRound size) out).Returns s.ipc res i ∧
      s' = Kernel.setMem (s.mem.storeBytes (buf + out.length) (new.map UInt8.toBitVec))
        { s with ipc := i }) ?_ ?_
  · intro out s res s' hr
    obtain ⟨new, i, hx, hround, hs⟩ := hstep hr
    exact ⟨new, i, hx, hround.loop_done, hs⟩
  · rintro out s out' s₁ res s' hr ⟨new', i', rfl, hloop, rfl⟩
    obtain ⟨new, i, hx, hround, rfl⟩ := hstep hr
    obtain rfl : out' = out ++ new := hx
    refine ⟨new ++ new', i', List.append_assoc .., hround.loop_next hloop, ?_⟩
    rw [List.map_append, Bytes.Memory.storeBytes_append, List.length_map, List.length_append,
      ← Nat.add_assoc]
    rfl

/-- **`fd_read` into a buffer stores the bytes that `fd_read` reads.** -/
theorem returns_fdReadTo {fd n : ℤ} {buf size : ℕ} {s' : Kernel}
    (h : (fdReadTo fd buf size).erase.Returns s n s') :
    ∃ out i, (fdRead fd size).Returns s.ipc (n, out) i ∧
      s' = Kernel.setMem (s.mem.storeBytes buf (out.map UInt8.toBitVec)) { s with ipc := i } := by
  simp only [fdReadTo, Traced.erase_bind, Traced.erase_get, Traced.erase_ite, Exec.returns_bind,
    Exec.returns_get] at h
  obtain ⟨_, _, ⟨rfl, rfl⟩, h⟩ := h
  rename_i s
  split_ifs at h with hc
  · obtain ⟨out, s₁, hloop, he⟩ := Exec.returns_bind.mp h
    obtain ⟨rfl, rfl⟩ := Exec.returns_pure.mp he
    obtain ⟨new, i, rfl, hread, rfl⟩ := returns_keyLoop hloop
    refine ⟨_, i, ?_, rfl⟩
    simp only [fdRead, Exec.returns_bind, Exec.returns_get]
    refine ⟨_, _, ⟨rfl, rfl⟩, ?_⟩
    rw [if_pos hc.1, hc.2]
    exact Exec.returns_bind.mpr ⟨_, _, hread, Exec.returns_pure.mpr ⟨rfl, rfl⟩⟩
  · simp only [Exec.returns_bind, returns_putBytes] at h
    obtain ⟨r, s₁, hr, _, s₂, rfl, he⟩ := h
    obtain ⟨i, hread, rfl⟩ := Exec.returns_on.mp hr
    obtain ⟨rfl, rfl⟩ := Exec.returns_pure.mp he
    exact ⟨r.2, i, hread, rfl⟩

/-! ## All calls -/

variable {sv : Services} {r : Request}

/-- What a confined call may store at. -/
def Allowed (r : Request) (x : ℕ) : Prop := UserAddr x ∧ ∀ p ∈ r.extents, Inside p.1 p.2

theorem confined_iff_within : Confined sv r s ↔ (syscallHandler sv r).Within s (Allowed r) := by
  constructor
  · refine fun h x hx => ⟨h.user x hx, fun p hp => ?_⟩
    by_contra hout
    exact h.silent ⟨p, hp, hout⟩ x hx
  · refine fun h => ⟨fun x hx => (h x hx).1, ?_⟩
    rintro ⟨p, hp, hout⟩ x hx
    exact hout ((h x hx).2 p hp)

theorem allowed_of_at {p : BitVec 32} {n : ℕ} (he : r.extents = [(p, n)]) (h : Inside p n) (x : ℕ)
    (hx : At p n x) : Allowed r x := by
  refine ⟨h.at_user hx, fun q hq => ?_⟩
  rw [he] at hq
  obtain rfl := List.mem_singleton.mp hq
  exact h

theorem num_eq {k : ℕ} (h : r.num.toNat = k) : r.num = .ofNat 32 k := by
  rw [← h, BitVec.ofNat_toNat, BitVec.setWidth_eq]

theorem mem_memExtents {p : BitVec 32 × ℕ} {a b c : BitVec 32} (ha : a = 2 ∨ a = 3) :
    p ∈ memExtents a b c ↔ (p = (b, 4) ∨ p = (c, 4)) ∧ p.1 ≠ 0 := by
  have h1 : a ≠ 1 := by rcases ha with rfl | rfl <;> decide
  rw [memExtents, if_neg h1, if_pos ha]
  simp

/-- The output words of `SYS_MEM`, once both are known to be inside. -/
theorem allowed_of_outputs (hn : r.num.toNat = 10) (ha : r.a = 2 ∨ r.a = 3)
    (hin : ∀ p ∈ [r.b, r.c], p ≠ 0 → Inside p 4) (p : BitVec 32) (hp : p ∈ [r.b, r.c]) (h0 : p ≠ 0)
    (x : ℕ) (hx : At p 4 x) : Allowed r x := by
  refine ⟨(hin p hp h0).at_user hx, fun q hq => ?_⟩
  have he : r.extents = memExtents r.a r.b r.c := by
    unfold Request.extents
    rw [hn]
    rfl
  rw [he, mem_memExtents ha] at hq
  rcases hq with ⟨rfl | rfl, hq⟩
  · exact hin _ (by simp) hq
  · exact hin _ (by simp) hq

/-- **The events of a sealed `SYS_MEM`.** -/
theorem within_sysMem (hn : r.num.toNat = 10) (h : Sealed r s) :
    (sysMem r.a r.b r.c).Within s (Allowed r) := by
  refine .ite (fun _ => (Within.lift _).bind fun _ _ _ => .pure _) fun _ => .ite (fun ha => ?_)
    fun _ => .ite (fun ha => ?_) fun _ => .ite (fun ha => ?_) fun _ => .pure _
  · refine (within_kfree fun hb hm => ?_).bind fun _ _ _ => .pure _
    obtain ⟨hlo, hhi⟩ := h.freed (num_eq hn) ha hb hm
    have hx : (r.b.toNat + 2 ^ 32 - 8) % 2 ^ 32 = r.b.toNat - 8 := by
      unfold userSpaceEnd at hhi
      omega
    have he : r.extents = [(r.b, 0)].filter fun p => p.1 ≠ 0 := by
      unfold Request.extents memExtents
      rw [hn, ha]
      rfl
    have huser : UserAddr (r.b.toNat - 8) := ⟨Nat.sub_pos_of_lt hlo, by omega⟩
    rw [hx]
    refine ⟨huser, fun p hp => ?_⟩
    rw [he] at hp
    obtain rfl := List.mem_singleton.mp (List.mem_of_mem_filter hp)
    exact ⟨⟨Nat.one_le_of_lt hlo, hhi⟩, hhi.le⟩
  · refine .ite (fun _ => .pure _) fun hv => ?_
    replace hv : validUserPtr r.b 8 = true := by simpa using hv
    refine .bind (within_kmemInfoTo fun hend => ?_) fun _ _ _ => .pure _
    have hin : ∀ p ∈ [r.b, r.c], p ≠ 0 → Inside p 4 := by
      intro p hp h0
      rcases List.mem_cons.mp hp with rfl | hp
      · have hb := validUserPtr_iff.mp hv
        exact ⟨hb.1, (Nat.add_le_add_left (by decide) _).trans hb.2⟩
      · obtain rfl := List.mem_singleton.mp hp
        exact validUserPtr_iff.mp (h.second (num_eq hn) ha hv h0 hend)
    exact fun p hp h0 i hi => allowed_of_outputs hn (.inl ha) hin p hp h0 _ ((hin p hp h0).mod hi)
  · exact within_sysPmmInfo fun hin => allowed_of_outputs hn (.inr ha) hin

/-- **The events of a sealed call.** -/
theorem within_syscallHandler (h : Sealed r s) :
    (syscallHandler sv r).Within s (Allowed r) := by
  unfold syscallHandler
  split
  · exact within_sysPrint
  · exact within_sysExit
  · rename_i hn
    refine within_sysRead fun hin => allowed_of_at ?_ hin
    unfold Request.extents
    rw [hn]
    rfl
  · exact within_sysWrite
  · exact within_sysOpen
  · exact within_sysClose
  · exact within_sysReadKey
  · rename_i hn
    refine within_sysPipe fun hin => allowed_of_at ?_ hin
    unfold Request.extents
    rw [hn]
    rfl
  · rename_i hn
    refine within_sysMouse fun hin => allowed_of_at ?_ hin
    unfold Request.extents
    rw [hn]
    rfl
  · exact within_sysShmem
  · exact within_sysMem ‹_› h
  · exact .lift _
  · exact .lift _
  · rename_i hn
    refine within_sysTime sv fun ha hin => allowed_of_at ?_ hin
    unfold Request.extents
    rw [hn]
    exact if_pos ha
  · rename_i hn
    refine within_sysFs sv fun ha hb hc x hx => ⟨hc.at_user hx, fun p hp => ?_⟩
    have he : r.extents = [(r.b, 0), (r.c, r.d.toNat)] := by
      unfold Request.extents
      rw [hn]
      exact if_pos ha
    rw [he] at hp
    rcases List.mem_cons.mp hp with rfl | hp
    · exact hb
    · obtain rfl := List.mem_singleton.mp hp
      exact hc
  · exact within_sysDraw
  · exact within_sysExec
  · exact .pure _

theorem syscallHandler_mem (hn : r.num = 10) : syscallHandler sv r = sysMem r.a r.b r.c := by
  rw [syscallHandler, hn]
  rfl

theorem extents_mem (hn : r.num = 10) : r.extents = memExtents r.a r.b r.c := by
  rw [Request.extents, hn]
  rfl

/-- A free of a pointer with the magic number in front of it stores in the header. -/
theorem emits_free (sv : Services) (hn : r.num = 10) (ha : r.a = 1) (hb : r.b ≠ 0)
    (hm : s.heap.magic ((r.b.toNat + 2 ^ 32 - headerSize) % 2 ^ 32) = blockMagic) :
    (syscallHandler sv r).Emits s ((r.b.toNat + 2 ^ 32 - 8) % 2 ^ 32) := by
  rw [syscallHandler_mem hn, ha, sysMem, if_neg (by decide), if_pos rfl]
  exact Traced.emits_bind.mpr (.inl (emits_kfree hb hm))

/-- `kmem_info` stores at its first output. -/
theorem emits_memInfo (sv : Services) (hn : r.num = 10) (ha : r.a = 2)
    (hv : validUserPtr r.b 8 = true) (hend : ListEnds s.heap) :
    (syscallHandler sv r).Emits s (r.b.toNat % 2 ^ 32) := by
  have hb : r.b ≠ 0 := by
    intro h
    rw [h] at hv
    exact absurd hv (by decide)
  rw [syscallHandler_mem hn, ha, sysMem, if_neg (by decide), if_neg (by decide), if_pos rfl, hv,
    if_neg (by decide)]
  exact Traced.emits_bind.mpr (.inl (emits_kmemInfoTo hb hend))

/-- **A call stores at user addresses only, and stores nothing when its pointers reach out, exactly
when it is sealed.** -/
theorem confined_iff (sv : Services) (r : Request) (s : Kernel) :
    Confined sv r s ↔ Sealed r s := by
  refine ⟨fun h => ⟨fun hn ha hb hm => ?_, fun hn ha hv hc hend => ?_⟩,
    fun h => confined_iff_within.mpr (within_syscallHandler h)⟩
  · have hstore := emits_free sv hn ha hb hm
    have hin := (confined_iff_within.mp h _ hstore).2 (r.b, 0) (by
      rw [extents_mem hn, ha, memExtents, if_pos rfl]
      simpa using hb)
    obtain ⟨hlo, hhi⟩ := h.user _ hstore
    obtain ⟨⟨hpos, hlt⟩, -⟩ := hin
    refine ⟨?_, hlt⟩
    unfold userSpaceEnd at hhi
    omega
  · have hstore := emits_memInfo sv hn ha hv hend
    refine validUserPtr_iff.mpr ((confined_iff_within.mp h _ hstore).2 (r.c, 4) ?_)
    rw [extents_mem hn, mem_memExtents (.inl ha)]
    exact ⟨.inr rfl, hc⟩

/-! ## A call that is not confined -/

/-- A system that does nothing beside the calls. -/
def idle : Services where
  getY := pure 0
  setY _ := pure ()
  fillScreen _ := pure ()
  fbPresent := pure ()
  drawRect _ _ _ _ _ := pure ()
  printxy _ _ _ _ := pure ()
  print _ _ := pure ()
  serialPuts _ := pure ()
  readKey := pure 97
  serialShellPoll := pure ()
  shellUpdateCursor := pure ()
  elfExit := pure ()
  elfExec _ := pure []
  schedCurrentTask := pure none
  schedKillTask _ := pure ()
  schedYield := pure ()
  acpiShutdown := pure ()
  acpiReboot := pure ()
  pitUptimeMs := pure 0
  pitSleep _ := pure ()

/-- A machine after boot: the heap is one free block. -/
def bootKernel : Kernel where
  ipc := Ipc.fdInit .zero
  heap := (((⟨fun _ => 0, 0x100000, 0x108000, 0x108000, true⟩ : Heap).setMagic 0x108000
    blockMagic).setSize 0x108000 0x7FFF0).setFree 0x108000 1
  shmem := WarkRune.Memory.smallShmem
  mouse := ⟨0, 0, false, false, false, 0, 0, 0⟩
  rtc := ⟨0, 0, 0, 0, 0, 0⟩
  lsEntry := .zero

/-- `SYS_MEM` with the operation 2 stores the free bytes at the start of the framebuffer. -/
theorem not_confined_kmemInfo :
    ¬ Confined idle ⟨10, 2, 0x1000000, 0xFD000000, 0⟩ bootKernel := by
  intro h
  exact absurd (h.user 0xFD000000 ⟨4, by decide +kernel⟩).2 (by decide)

end WarkRune.Syscall
