import WarkRune.Ipc.Fd

/-!
# Pipes are bounded queues

The loops of `fd_read` and `fd_write` are those of a ring buffer, so the bytes of a pipe are a
queue of at most 512: a write adds as many as fit, a read takes the first ones away.

## Main definitions

* `pending s pid`: the bytes of a pipe
* `ReadEnd`, `Ends`: a descriptor is the read end of a pipe, two are its ends
* `PipeOp`: a write, a read or a close of a pipe
* `accepted`, `delivered`: the bytes that a run of these wrote and read

## Main results

* `readPipe_spec`, `writePipe_spec`: the loops give and take bytes of the queue
* `ReadEnd.read`, `Ends.write`, `Ends.close`: what the operations do to the queue
* `pipe_fifo`: over every run, what was read and what is pending is what was written
-/

namespace WarkRune.Ipc

open Queue (RingBuffer offer poll)
open Fat12 (asInt)

variable {s s' : State}

/-! ## The loops -/

/-- **Reading a pipe** takes the first bytes of its queue away. -/
theorem readPipe_spec (size : ℕ) {p : Pipe} (h : p.Ok pipeBuf) :
    (readPipe size p).1 = (poll (p.contents pipeBuf) size).1 ∧
      (readPipe size p).2.contents pipeBuf = (poll (p.contents pipeBuf) size).2 ∧
      (readPipe size p).2.Ok pipeBuf ∧ (readPipe size p).2.writeClosed = p.writeClosed := by
  induction size generalizing p with
  | zero => exact ⟨rfl, rfl, h, rfl⟩
  | succ size ih =>
    by_cases hc : p.count > 0
    · have hq := RingBuffer.contents_pop h hc
      have hr := ih (p := { p with readPos := (p.readPos + 1) % pipeBuf, count := p.count - 1 })
        (h.pop hc)
      rw [readPipe, if_pos hc, hq, Queue.poll_succ]
      exact ⟨congrArg _ hr.1, hr.2⟩
    · have h0 : p.count = 0 := by omega
      rw [readPipe, if_neg hc, RingBuffer.contents_of_count_eq_zero h0, Queue.poll_nil]
      exact ⟨rfl, rfl, h, rfl⟩

/-- **Writing a pipe** adds as many bytes to its queue as fit. -/
theorem writePipe_spec (src : List UInt8) {p : Pipe} (h : p.Ok pipeBuf) :
    (writePipe src p).1 = (offer pipeBuf (p.contents pipeBuf) src).1 ∧
      (writePipe src p).2.contents pipeBuf = (offer pipeBuf (p.contents pipeBuf) src).2 ∧
      (writePipe src p).2.Ok pipeBuf ∧ (writePipe src p).2.writeClosed = p.writeClosed := by
  induction src generalizing p with
  | nil => exact ⟨rfl, by rw [Queue.offer_nil]; rfl, h, rfl⟩
  | cons b src ih =>
    by_cases hc : p.count < pipeBuf
    · have hq := RingBuffer.contents_push h hc b
      have hr := ih (p := { p with
        buf := Function.update p.buf p.writePos b
        writePos := (p.writePos + 1) % pipeBuf
        count := p.count + 1 }) (h.push hc b)
      change _ = (offer _ (p.push pipeBuf b |>.contents pipeBuf) src).1 ∧
        _ = (offer _ (p.push pipeBuf b |>.contents pipeBuf) src).2 ∧ _ at hr
      rw [hq] at hr
      rw [writePipe, if_pos hc, Queue.offer_cons (by rwa [RingBuffer.length_contents])]
      exact ⟨congrArg (· + 1) hr.1, hr.2⟩
    · have hfull : pipeBuf ≤ (p.contents pipeBuf).length := by
        rw [RingBuffer.length_contents]
        exact Nat.le_of_not_lt hc
      rw [writePipe, if_neg hc, Queue.offer_full hfull]
      exact ⟨rfl, rfl, h, rfl⟩

/-! ## The ends of a pipe -/

/-- The bytes of a pipe that were written and not read. -/
def pending (s : State) (pid : ℕ) : List UInt8 := (s.pipes pid).contents pipeBuf

/-- The descriptor `rfd` is the read end of the pipe. -/
structure ReadEnd (s : State) (pid rfd : ℕ) : Prop where
  rfd_lt : rfd < fdMax
  reader : s.fds rfd = ⟨true, .pipeRead, -1, pid⟩
  ok : (s.pipes pid).Ok pipeBuf

/-- The descriptors `rfd` and `wfd` are the ends of the pipe, and the write end may be closed. -/
structure Ends (s : State) (pid rfd wfd : ℕ) (closed : Bool) : Prop extends ReadEnd s pid rfd where
  ne : rfd ≠ wfd
  wfd_lt : wfd < fdMax
  writer : s.fds wfd = if closed then closedFd else ⟨true, .pipeWrite, -1, pid⟩
  flag : (s.pipes pid).writeClosed = closed

theorem allocFd_spec {fd : ℕ} (h : s.allocFd = some fd) :
    fd < fdMax ∧ 3 ≤ fd ∧ (s.fds fd).used = false := by
  have hm := List.mem_range'_1.mp (List.mem_of_find?_eq_some h)
  have hf := List.find?_some h
  refine ⟨?_, hm.1, by simpa using hf⟩
  have : fdMax = 32 := rfl
  omega

theorem allocPipe_spec {pid : ℕ} (h : s.allocPipe = some pid) :
    pid < pipeMax ∧ (s.pipes pid).used = false :=
  ⟨List.mem_range.mp (List.mem_of_find?_eq_some h), by simpa using List.find?_some h⟩

theorem setFd_setFd (s : State) (fd : ℕ) (f g : FileDesc) :
    (s.setFd fd f).setFd fd g = s.setFd fd g :=
  congrArg (fun fds => { s with fds }) (Function.update_idem ..)

theorem setFd_self (s : State) (fd : ℕ) : s.setFd fd (s.fds fd) = s :=
  congrArg (fun fds => { s with fds }) (Function.update_eq_self ..)

/-- The state once `fd_pipe` has taken the pipe and the descriptors. -/
def State.withPipe (s : State) (pid rfd wfd : ℕ) : State :=
  ((s.setPipe pid ((s.pipes pid).reset true)).setFd rfd ⟨true, .pipeRead, -1, pid⟩).setFd wfd
    ⟨true, .pipeWrite, -1, pid⟩

/-- **What `fd_pipe` can do**: it fails and changes nothing, or takes an unused pipe and two
unused descriptors. -/
theorem fdPipe_cases (s : State) : fdPipe s = (none, s) ∨
    ∃ pid rfd wfd, fdPipe s = (some (rfd, wfd), s.withPipe pid rfd wfd) ∧ pid < pipeMax ∧
      (s.pipes pid).used = false ∧ rfd < fdMax ∧ wfd < fdMax ∧ rfd ≠ wfd ∧
      (s.fds rfd).used = false ∧ (s.fds wfd).used = false := by
  unfold fdPipe
  cases hp : s.allocPipe with
  | none => exact .inl rfl
  | some pid =>
    obtain ⟨hpid, hpu⟩ := allocPipe_spec hp
    cases hr : s.allocFd with
    | none => exact .inl rfl
    | some rfd =>
      obtain ⟨hrlt, -, hru⟩ := allocFd_spec hr
      dsimp only
      cases hw : (s.setFd rfd { s.fds rfd with used := true }).allocFd with
      | none =>
        left
        have hback : { s.fds rfd with used := false } = s.fds rfd := by
          rw [← hru]
        dsimp only
        rw [setFd_setFd, State.setFd_fds, Function.update_self]
        exact congrArg (Prod.mk none) ((congrArg (s.setFd rfd) hback).trans (setFd_self s rfd))
      | some wfd =>
        obtain ⟨hwlt, -, hwu⟩ := allocFd_spec hw
        -- the second search does not find the first descriptor again, as that is marked
        have hne : rfd ≠ wfd := by
          rintro rfl
          simp at hwu
        rw [State.setFd_fds, Function.update_of_ne hne.symm] at hwu
        refine .inr ⟨pid, rfd, wfd, ?_, hpid, hpu, hrlt, hwlt, hne, hru, hwu⟩
        have hfds : ((s.setFd rfd { s.fds rfd with used := true }).setPipe pid
            ((s.pipes pid).reset true)).setFd rfd ⟨true, .pipeRead, -1, pid⟩ =
              (s.setPipe pid ((s.pipes pid).reset true)).setFd rfd ⟨true, .pipeRead, -1, pid⟩ :=
          setFd_setFd (s.setPipe pid ((s.pipes pid).reset true)) rfd _ _
        exact congrArg (fun u : State => (some (rfd, wfd), u.setFd wfd ⟨true, .pipeWrite, -1, pid⟩))
          hfds

/-- A new pipe is empty, and its ends are open. -/
theorem ends_withPipe (s : State) {pid rfd wfd : ℕ} (hr : rfd < fdMax) (hw : wfd < fdMax)
    (hne : rfd ≠ wfd) :
    Ends (s.withPipe pid rfd wfd) pid rfd wfd false ∧ pending (s.withPipe pid rfd wfd) pid = [] := by
  have hpipe : (s.withPipe pid rfd wfd).pipes pid = (s.pipes pid).reset true :=
    Function.update_self ..
  refine ⟨⟨⟨hr, ?_, ?_⟩, hne, hw, Function.update_self .., ?_⟩, ?_⟩
  · exact (Function.update_of_ne hne ..).trans (Function.update_self ..)
  · rw [hpipe]
    exact ⟨Nat.zero_lt_succ 511, Nat.zero_le _, rfl⟩
  · rw [hpipe]
    rfl
  · rw [pending, hpipe]
    exact RingBuffer.contents_of_count_eq_zero rfl

/-- Closing a descriptor that is no file. -/
theorem returns_fdClose_of_ne {fd : ℤ} {u : Unit} (ho : s.IsOpen fd)
    (ht : (s.fds fd.toNat).type ≠ .file) : (fdClose fd).Returns s u s' ↔
      s' = (s.releasePipe (s.fds fd.toNat)).setFd fd.toNat closedFd := by
  have hclose : (fdClose fd).Returns s u s' ↔ (modify fun t : State =>
      (t.releasePipe (s.fds fd.toNat)).setFd fd.toNat closedFd : Fd PUnit).Returns s u s' := by
    simp only [fdClose, Exec.returns_bind, Exec.returns_get]
    constructor
    · rintro ⟨_, _, ⟨rfl, rfl⟩, hr⟩
      rwa [if_pos ho, if_neg ht] at hr
    · intro hr
      refine ⟨s, s, ⟨rfl, rfl⟩, ?_⟩
      rwa [if_pos ho, if_neg ht]
  rw [hclose, Exec.returns_modify]

/-! ## What the operations do to the queue -/

theorem asInt_of_le {n : ℕ} (hn : n ≤ pipeBuf) : asInt n = n := by
  have : pipeBuf = 512 := rfl
  rw [asInt, if_pos (by omega)]

section Reading

variable {pid rfd : ℕ} (h : ReadEnd s pid rfd)
include h

theorem ReadEnd.isOpen : s.IsOpen rfd :=
  ⟨Int.natCast_nonneg _, by exact_mod_cast h.rfd_lt, by rw [Int.toNat_natCast, h.reader]⟩

theorem ReadEnd.length_le : (pending s pid).length ≤ pipeBuf := by
  rw [pending, RingBuffer.length_contents]
  exact h.ok.count_le

/-- **`fd_read` takes the first bytes away**, and touches nothing but the pipe. -/
theorem ReadEnd.read (size : ℕ) : ∃ s', (fdRead rfd size).Returns s
    (((poll (pending s pid) size).1.length : ℕ), (poll (pending s pid) size).1) s' ∧
      ReadEnd s' pid rfd ∧ pending s' pid = (poll (pending s pid) size).2 ∧ s'.fds = s.fds ∧
      (s'.pipes pid).writeClosed = (s.pipes pid).writeClosed := by
  have hpid : (s.fds (rfd : ℤ).toNat).pipeId.toNat = pid := by
    rw [Int.toNat_natCast, h.reader]
    rfl
  have htype : (s.fds (rfd : ℤ).toNat).type = .pipeRead := by
    rw [Int.toNat_natCast, h.reader]
  obtain ⟨hout, hrest, hok, hflag⟩ := readPipe_spec size h.ok
  -- the end of the file: the pipe is empty and nobody can write to it
  by_cases hend : (s.pipes pid).count = 0 ∧ (s.pipes pid).writeClosed = true
  · have hnil : pending s pid = [] := RingBuffer.contents_of_count_eq_zero hend.1
    rw [hnil, Queue.poll_nil]
    refine ⟨s, ?_, h, hnil, rfl, rfl⟩
    simp only [fdRead, Exec.returns_bind, Exec.returns_get]
    refine ⟨s, s, ⟨rfl, rfl⟩, ?_⟩
    rw [if_pos h.isOpen]
    simp only [htype, hpid, if_pos hend]
    exact Exec.returns_pure.mpr ⟨rfl, rfl⟩
  · have hpipe : (s.setPipe pid (readPipe size (s.pipes pid)).2).pipes pid =
        (readPipe size (s.pipes pid)).2 := Function.update_self ..
    refine ⟨s.setPipe pid (readPipe size (s.pipes pid)).2, ?_,
      ⟨h.rfd_lt, h.reader, by rwa [hpipe]⟩, ?_, rfl, by rwa [hpipe]⟩
    · simp only [fdRead, Exec.returns_bind, Exec.returns_get]
      refine ⟨s, s, ⟨rfl, rfl⟩, ?_⟩
      rw [if_pos h.isOpen]
      simp only [htype, hpid, if_neg hend]
      refine Exec.returns_bind.mpr ⟨(), _, Exec.returns_modify.mpr rfl, ?_⟩
      rw [Exec.returns_pure, hout]
      refine ⟨?_, rfl⟩
      rw [asInt_of_le]
      · rfl
      · exact ((s.pipes pid).contents pipeBuf).length_take_le' size |>.trans h.length_le
    · rw [pending, hpipe, hrest]
      rfl

end Reading

section Ops

variable {pid rfd wfd : ℕ} {closed : Bool} (h : Ends s pid rfd wfd closed)
include h

theorem Ends.setPipe {p : Pipe} (hp : p.Ok pipeBuf) (hflag : p.writeClosed = closed) :
    Ends (s.setPipe pid p) pid rfd wfd closed := by
  have hpipe : (s.setPipe pid p).pipes pid = p := Function.update_self ..
  exact ⟨⟨h.rfd_lt, h.reader, by rwa [hpipe]⟩, h.ne, h.wfd_lt, h.writer, by rwa [hpipe]⟩

/-- **`fd_read` takes the first bytes away.** -/
theorem Ends.read (size : ℕ) : ∃ s', (fdRead rfd size).Returns s
    (((poll (pending s pid) size).1.length : ℕ), (poll (pending s pid) size).1) s' ∧
      Ends s' pid rfd wfd closed ∧ pending s' pid = (poll (pending s pid) size).2 := by
  obtain ⟨s', hr, h', hq, hfds, hflag⟩ := h.toReadEnd.read size
  exact ⟨s', hr, ⟨h', h.ne, h.wfd_lt, hfds ▸ h.writer, hflag.trans h.flag⟩, hq⟩

theorem Ends.write_isOpen (hc : closed = false) : s.IsOpen wfd :=
  ⟨Int.natCast_nonneg _, by exact_mod_cast h.wfd_lt, by rw [Int.toNat_natCast, h.writer, hc]; rfl⟩

/-- **`fd_write` adds the bytes that fit** while the write end is open. -/
theorem Ends.write (hc : closed = false) (src : List UInt8) : ∃ s',
    (fdWrite wfd src).Returns s ((offer pipeBuf (pending s pid) src).1 : ℕ) s' ∧
      Ends s' pid rfd wfd closed ∧ pending s' pid = (offer pipeBuf (pending s pid) src).2 := by
  have hwriter : s.fds (wfd : ℤ).toNat = ⟨true, .pipeWrite, -1, pid⟩ := by
    rw [Int.toNat_natCast, h.writer, hc]
    rfl
  have hpid : (s.fds (wfd : ℤ).toNat).pipeId.toNat = pid := by
    rw [hwriter]
    rfl
  have htype : (s.fds (wfd : ℤ).toNat).type = .pipeWrite := by rw [hwriter]
  obtain ⟨hn, hrest, hok, hflag⟩ := writePipe_spec src h.ok
  refine ⟨s.setPipe pid (writePipe src (s.pipes pid)).2, ?_, h.setPipe hok (hflag.trans h.flag), ?_⟩
  · simp only [fdWrite, Exec.returns_bind, Exec.returns_get]
    refine ⟨s, s, ⟨rfl, rfl⟩, ?_⟩
    rw [if_pos (h.write_isOpen hc)]
    simp only [htype, hpid, h.flag, hc, Bool.false_eq_true, ↓reduceIte]
    refine Exec.returns_bind.mpr ⟨(), _, Exec.returns_modify.mpr rfl, ?_⟩
    rw [Exec.returns_pure, hn]
    refine ⟨?_, rfl⟩
    rw [asInt_of_le]
    · rfl
    · exact (Nat.min_le_right _ _).trans (Nat.sub_le _ _)
  · rw [pending, State.setPipe_pipes, Function.update_self, hrest]
    rfl

theorem Ends.not_isOpen (hc : closed = true) : ¬ s.IsOpen wfd := by
  rintro ⟨-, -, hu⟩
  rw [Int.toNat_natCast, h.writer, hc] at hu
  cases hu

/-- Behind a close of the write end nothing is stored. -/
theorem Ends.write_closed (hc : closed = true) (src : List UInt8) :
    (fdWrite wfd src).Returns s (-1) s := by
  simp only [fdWrite, Exec.returns_bind, Exec.returns_get]
  refine ⟨s, s, ⟨rfl, rfl⟩, ?_⟩
  rw [if_neg (h.not_isOpen hc)]
  exact Exec.returns_pure.mpr ⟨rfl, rfl⟩

/-- **Closing the write end keeps the queue.** -/
theorem Ends.close : ∃ s', (fdClose wfd).Returns s () s' ∧ Ends s' pid rfd wfd true ∧
    pending s' pid = pending s pid := by
  cases hc : closed with
  | true =>
    refine ⟨s, ?_, hc ▸ h, rfl⟩
    simp only [fdClose, Exec.returns_bind, Exec.returns_get]
    refine ⟨s, s, ⟨rfl, rfl⟩, ?_⟩
    rw [if_neg (h.not_isOpen hc)]
    exact Exec.returns_pure.mpr ⟨rfl, rfl⟩
  | false =>
    have hwriter : s.fds (wfd : ℤ).toNat = ⟨true, .pipeWrite, -1, pid⟩ := by
      rw [Int.toNat_natCast, h.writer, hc]
      rfl
    -- the read end is open, so the pipe stays in use
    have hreader : s.anyEnd .pipeRead pid = true := by
      rw [State.anyEnd, List.any_eq_true]
      exact ⟨rfd, List.mem_range.mpr h.rfd_lt, by rw [h.reader]; simp⟩
    have hrelease : s.releasePipe ⟨true, .pipeWrite, -1, pid⟩ =
        s.setPipe pid { s.pipes pid with writeClosed := true } := by
      have hany : (s.setPipe pid { s.pipes pid with writeClosed := true }).anyEnd .pipeRead pid =
          true := hreader
      rw [State.releasePipe]
      simp only [Int.toNat_natCast, hany, ↓reduceIte]
      rw [if_pos ⟨trivial, Int.natCast_nonneg _⟩]
    refine ⟨(s.setPipe pid { s.pipes pid with writeClosed := true }).setFd wfd closedFd, ?_, ?_, ?_⟩
    · rw [returns_fdClose_of_ne (h.write_isOpen hc) (by rw [hwriter]; intro hf; cases hf), hwriter,
        hrelease, Int.toNat_natCast]
    · refine ⟨⟨h.rfd_lt, ?_, ?_⟩, h.ne, h.wfd_lt, Function.update_self .., ?_⟩
      · exact (Function.update_of_ne h.ne ..).trans h.reader
      · rw [State.setFd_pipes, State.setPipe_pipes, Function.update_self]
        exact h.ok
      · rw [State.setFd_pipes, State.setPipe_pipes, Function.update_self]
    · rw [pending, State.setFd_pipes, State.setPipe_pipes, Function.update_self]
      rfl

end Ops

/-! ## Runs -/

/-- A use of a pipe. -/
inductive PipeOp
  | write (src : List UInt8)
  | read (size : ℕ)
  | close
  deriving DecidableEq

/-- The call: a read of the read end, or a write or close of the write end. -/
def PipeOp.call (rfd wfd : ℕ) : PipeOp → Call
  | .write src => .write wfd src
  | .read size => .read rfd size
  | .close => .close wfd

/-- The bytes the writes accepted. -/
def accepted (tr : List (PipeOp × Reply)) : List UInt8 :=
  tr.flatMap fun
    | (.write src, .int n) => src.take n.toNat
    | _ => []

/-- The bytes the reads returned. -/
def delivered (tr : List (PipeOp × Reply)) : List UInt8 :=
  tr.flatMap fun
    | (.read _, .bytes _ out) => out
    | _ => []

theorem accepted_cons (x : PipeOp × Reply) (tr : List (PipeOp × Reply)) :
    accepted (x :: tr) = accepted [x] ++ accepted tr := by
  simp [accepted]

theorem delivered_cons (x : PipeOp × Reply) (tr : List (PipeOp × Reply)) :
    delivered (x :: tr) = delivered [x] ++ delivered tr := by
  simp [delivered]

section Run

variable {pid rfd wfd : ℕ} {closed : Bool}

/-- **One call keeps the queue**: what was pending and is accepted is delivered or pending. -/
theorem Ends.step (h : Ends s pid rfd wfd closed) {op : PipeOp} {r : Reply}
    (hc : (op.call rfd wfd).exec.Returns s r s') :
    Ends s' pid rfd wfd (closed || decide (op = .close)) ∧
      pending s pid ++ accepted [(op, r)] = delivered [(op, r)] ++ pending s' pid := by
  cases op with
  | write src =>
    rw [decide_eq_false (fun he => by cases he), Bool.or_false]
    simp only [PipeOp.call, Call.exec, Exec.returns_bind, Exec.returns_pure] at hc
    obtain ⟨n, s₁, hw, rfl, rfl⟩ := hc
    cases closed with
    | true =>
      obtain ⟨rfl, rfl⟩ := hw.det (h.write_closed rfl src)
      exact ⟨h, by simp [accepted, delivered]⟩
    | false =>
      obtain ⟨s₂, hw₂, h₂, hq⟩ := h.write rfl src
      obtain ⟨rfl, rfl⟩ := hw.det hw₂
      refine ⟨h₂, ?_⟩
      rw [hq]
      simp only [accepted, delivered, offer, List.flatMap_cons, List.flatMap_nil, List.append_nil,
        List.nil_append, Int.toNat_natCast, List.append_cancel_left_eq]
      rw [Nat.min_comm, ← List.take_take, List.take_length]
  | read size =>
    rw [decide_eq_false (fun he => by cases he), Bool.or_false]
    simp only [PipeOp.call, Call.exec, Exec.returns_bind, Exec.returns_pure] at hc
    obtain ⟨⟨n, out⟩, s₁, hr, rfl, rfl⟩ := hc
    obtain ⟨s₂, hr₂, h₂, hq⟩ := h.read size
    obtain ⟨he, rfl⟩ := hr.det hr₂
    obtain ⟨rfl, rfl⟩ := Prod.mk.inj he
    refine ⟨h₂, ?_⟩
    rw [hq]
    simp [accepted, delivered, poll]
  | close =>
    rw [decide_eq_true rfl, Bool.or_true]
    simp only [PipeOp.call, Call.exec, Exec.returns_bind, Exec.returns_pure] at hc
    obtain ⟨_, s₁, hx, rfl, rfl⟩ := hc
    obtain ⟨s₂, hx₂, h₂, hq⟩ := h.close
    obtain ⟨-, rfl⟩ := hx.det hx₂
    exact ⟨h₂, by simp [accepted, delivered, hq]⟩

/-- **A run keeps the queue.** -/
theorem Ends.run (h : Ends s pid rfd wfd closed) {tr : List (PipeOp × Reply)}
    (hrun : Run s (tr.map fun x => (x.1.call rfd wfd, x.2)) s') :
    Ends s' pid rfd wfd (closed || tr.any fun x => decide (x.1 = .close)) ∧
      pending s pid ++ accepted tr = delivered tr ++ pending s' pid := by
  induction tr generalizing s closed with
  | nil =>
    cases hrun
    exact ⟨by rwa [List.any_nil, Bool.or_false], by simp [accepted, delivered]⟩
  | cons x tr ih =>
    obtain ⟨op, r⟩ := x
    cases hrun with
    | cons hc hrest =>
      obtain ⟨h₁, hq₁⟩ := h.step hc
      obtain ⟨h₂, hq₂⟩ := ih h₁ hrest
      rw [List.any_cons, ← Bool.or_assoc]
      refine ⟨h₂, ?_⟩
      rw [accepted_cons, delivered_cons, ← List.append_assoc, hq₁, List.append_assoc, hq₂,
        List.append_assoc]

/-- **Pipes are bounded queues**: after every run of writes, reads and closes on the ends of a new
pipe, what was read and what is pending is what was accepted; a read returns the first pending
bytes; and a write, while its end is open, accepts the bytes that fit. -/
theorem pipe_fifo {s₀ : State} (hp : Call.pipe.exec.Returns s (.ends (some (rfd, wfd))) s₀)
    {tr : List (PipeOp × Reply)} (hrun : Run s₀ (tr.map fun x => (x.1.call rfd wfd, x.2)) s') :
    ∃ q : List UInt8, delivered tr ++ q = accepted tr ∧ q.length ≤ 512 ∧
      (∀ size, ∃ s₂, (fdRead rfd size).Returns s' ((min size q.length : ℕ), q.take size) s₂) ∧
      (∀ src, .close ∉ tr.map Prod.fst → ∃ s₂,
        (fdWrite wfd src).Returns s' (min src.length (512 - q.length) : ℕ) s₂) ∧
      ∀ src, .close ∈ tr.map Prod.fst → (fdWrite wfd src).Returns s' (-1) s' := by
  simp only [Call.exec, Exec.returns_bind, Exec.returns_get, Exec.returns_set,
    Exec.returns_pure] at hp
  obtain ⟨_, s, ⟨rfl, rfl⟩, _, _, rfl, hends, rfl⟩ := hp
  rcases fdPipe_cases s with hnone | ⟨pid, r, w, hsome, -, -, hr, hw, hne, -, -⟩
  · rw [hnone] at hends
    cases hends
  rw [hsome] at hends hrun
  injection hends with hrw
  obtain ⟨rfl, rfl⟩ := Prod.mk.inj (Option.some.inj hrw)
  have hnew : Ends (s.withPipe pid rfd wfd) pid rfd wfd false ∧
      pending (s.withPipe pid rfd wfd) pid = [] :=
    ends_withPipe s hr hw hne
  obtain ⟨h₀, hq₀⟩ := hnew
  obtain ⟨h, hq⟩ := h₀.run hrun
  rw [hq₀, List.nil_append] at hq
  rw [Bool.false_or] at h
  have hclose : (tr.any fun x => decide (x.1 = .close)) = decide (.close ∈ tr.map Prod.fst) := by
    rw [Bool.eq_iff_iff, List.any_eq_true, decide_eq_true_iff, List.mem_map]
    simp only [decide_eq_true_eq]
  rw [hclose] at h
  refine ⟨pending s' pid, hq.symm, h.length_le, fun size => ?_, fun src hno => ?_, fun src hyes => ?_⟩
  · obtain ⟨s₂, hread, -⟩ := h.read size
    rw [poll, List.length_take] at hread
    exact ⟨s₂, hread⟩
  · obtain ⟨s₂, hwrite, -⟩ := h.write (decide_eq_false hno) src
    exact ⟨s₂, hwrite⟩
  · exact h.write_closed (decide_eq_true hyes) src

end Run

/-- The theorem at a pipe that is written, read in part and closed. -/
theorem pipe_fifo_threeBytes : ∃ s₀ s' q,
    Call.pipe.exec.Returns (fdInit .zero) (.ends (some (3, 4))) s₀ ∧
      Run s₀ [(.write 4 [1, 2, 3], .int 3), (.read 3 2, .bytes 2 [1, 2]), (.close 4, .unit)] s' ∧
      [1, 2] ++ q = [1, 2, 3] ∧ ∃ s₂, (fdRead 3 9).Returns s' ((min 9 q.length : ℕ), q.take 9) s₂ := by
  have h : (runAll 2 [.pipe, .write 4 [1, 2, 3], .read 3 2, .close 4] (fdInit .zero)).map Prod.fst =
      some [.ends (some (3, 4)), .int 3, .bytes 2 [1, 2], .unit] := by
    decide +kernel
  obtain ⟨⟨rs, s'⟩, hall, rfl⟩ := Option.map_eq_some_iff.mp h
  have hrun := run_of_runAll hall
  cases hrun with
  | cons hp hrest =>
    let tr : List (PipeOp × Reply) :=
      [(.write [1, 2, 3], .int 3), (.read 2, .bytes 2 [1, 2]), (.close, .unit)]
    have hrest' : Run _ (tr.map fun x => (x.1.call 3 4, x.2)) s' := hrest
    obtain ⟨q, hq, -, hread, -⟩ := pipe_fifo hp hrest'
    exact ⟨_, s', q, hp, hrest, hq, hread 9⟩

end WarkRune.Ipc
