import WarkRune.Fat12.Write
import WarkRune.Ipc.Descriptors

/-!
# What a write reports

`fd_write` answers with a number of bytes, and a program that goes on behind them takes them for
delivered. A pipe and a file answer with the bytes they take. The console prints at most 256 bytes
and answers with the length it was given.

## Main definitions

* `Rings`: the ring buffers of all pipes are well formed
* `FileReady`: a FAT12 descriptor on a working disk whose clusters hold the file
* `Delivered`: bytes have reached the sink of a descriptor, and nothing else has changed

## Main results

* `Run.rings`: every run from `fd_init` keeps the ring buffers well formed
* `fdWrite_delivers_iff`: when the bytes that `fd_write` reports are the bytes it delivered
-/

namespace WarkRune.Ipc

open Exec (Always)
open Fat12 (Path Driver asInt cString)
open Queue (offer)

variable {s s' : State}

/-! ## The ring buffers over a run -/

/-- The ring buffers of all pipes are well formed. -/
def Rings (s : State) : Prop := ∀ pid < pipeMax, (s.pipes pid).Ok pipeBuf

/-- The ring buffers stay well formed. -/
def KeepsRings (s s' : State) : Prop := Rings s → Rings s'

instance : Std.Refl KeepsRings := ⟨fun _ h => h⟩

instance : IsTrans State KeepsRings := ⟨fun _ _ _ h₁ h₂ h => h₂ (h₁ h)⟩

theorem rings_of_pipes (hr : Rings s) (h : s'.pipes = s.pipes) : Rings s' := by
  intro pid hpid
  rw [h]
  exact hr pid hpid

theorem Rings.setPipe (hr : Rings s) {pid : ℕ} {p : Pipe}
    (hp : pid < pipeMax → p.Ok pipeBuf) : Rings (s.setPipe pid p) := by
  intro k hk
  by_cases hkp : k = pid
  · subst hkp
    rw [State.setPipe_pipes, Function.update_self]
    exact hp hk
  · rw [State.setPipe_pipes, Function.update_of_ne hkp]
    exact hr k hk

/-- The driver has no pipes. -/
theorem keepsRings_on {α : Type} (m : Fat12.Fat α) : Always KeepsRings (m.on State.fatPart) := by
  intro s a s' h hr
  obtain ⟨t, -, rfl⟩ := Exec.returns_on.mp h
  exact hr

theorem keepsRings_installFd (fat : ℤ) : Always KeepsRings (installFd fat) := by
  refine .ite (.pure _) (.bind .get fun s => ?_)
  cases s.allocFd with
  | none => exact .bind (keepsRings_on _) fun _ => .pure _
  | some fd => exact .bind (.modify fun _ hr => hr) fun _ => .pure _

theorem keepsRings_fdCreate (path : Path) : Always KeepsRings (fdCreate path) :=
  .bind (keepsRings_on _) fun fat => keepsRings_installFd fat

theorem keepsRings_fdPipe (s : State) : KeepsRings s (fdPipe s).2 := by
  intro hr
  rcases fdPipe_cases s with h | ⟨pid, rfd, wfd, h, -⟩
  · rwa [h]
  · rw [h]
    refine rings_of_pipes (hr.setPipe fun _ => ?_) rfl
    exact ⟨Nat.zero_lt_succ 511, Nat.zero_le _, rfl⟩

theorem keepsRings_keyRound (size : ℕ) (out : List UInt8) :
    Always KeepsRings (keyRound size out) := by
  refine .ite (.bind .get fun s => .bind (.modify fun _ hr => hr) fun _ => ?_) (.pure _)
  exact .ite (.pure _) (.ite (.pure _) (.pure _))

theorem keepsRings_fdRead (fd : ℤ) (size : ℕ) : Always KeepsRings (fdRead fd size) := by
  intro s a s' h
  simp only [fdRead, Exec.returns_bind, Exec.returns_get] at h
  obtain ⟨_, s, ⟨rfl, rfl⟩, h⟩ := h
  by_cases ho : s.IsOpen fd
  · rw [if_pos ho] at h
    split at h
    · exact Always.bind (.loop (keepsRings_keyRound size) _) (fun _ => .pure _) _ _ _ h
    · split at h
      · exact Always.pure _ _ _ _ h
      · obtain ⟨_, s₁, hm, h⟩ := Exec.returns_bind.mp h
        obtain rfl := Exec.returns_modify.mp hm
        obtain ⟨-, rfl⟩ := Exec.returns_pure.mp h
        exact fun hr => hr.setPipe fun hpid => (readPipe_spec size (hr _ hpid)).2.2.1
    · exact keepsRings_on _ _ _ _ h
    · exact Always.pure _ _ _ _ h
  · rw [if_neg ho] at h
    exact Always.pure _ _ _ _ h

theorem keepsRings_fdWrite (fd : ℤ) (src : List UInt8) : Always KeepsRings (fdWrite fd src) := by
  intro s a s' h
  simp only [fdWrite, Exec.returns_bind, Exec.returns_get] at h
  obtain ⟨_, s, ⟨rfl, rfl⟩, h⟩ := h
  by_cases ho : s.IsOpen fd
  · rw [if_pos ho] at h
    split at h
    · exact Always.bind (.modify fun _ hr => hr) (fun _ => .pure _) _ _ _ h
    · exact Always.bind (.modify fun _ hr => hr) (fun _ => .pure _) _ _ _ h
    · split at h
      · exact Always.pure _ _ _ _ h
      · obtain ⟨_, s₁, hm, h⟩ := Exec.returns_bind.mp h
        obtain rfl := Exec.returns_modify.mp hm
        obtain ⟨-, rfl⟩ := Exec.returns_pure.mp h
        exact fun hr => hr.setPipe fun hpid => (writePipe_spec src (hr _ hpid)).2.2.1
    · exact keepsRings_on _ _ _ _ h
    · exact Always.pure _ _ _ _ h
  · rw [if_neg ho] at h
    exact Always.pure _ _ _ _ h

/-- The release of a pipe changes its flags only. -/
theorem Rings.releasePipe (hr : Rings s) (f : FileDesc) : Rings (s.releasePipe f) := by
  have hflag (b : Bool) : Rings (s.setPipe f.pipeId.toNat
      { s.pipes f.pipeId.toNat with writeClosed := b }) := hr.setPipe fun hpid => hr _ hpid
  have hfree {t : State} (ht : Rings t) : Rings (t.setPipe f.pipeId.toNat
      { t.pipes f.pipeId.toNat with used := false }) := ht.setPipe fun hpid => ht _ hpid
  unfold State.releasePipe
  dsimp only
  split_ifs
  · exact hflag true
  · exact hfree (hflag true)
  · exact hr
  · exact hfree hr
  · exact hr

theorem keepsRings_fdClose (fd : ℤ) : Always KeepsRings (fdClose fd) := by
  intro s u s' h hr
  by_cases ho : s.IsOpen fd
  · obtain ⟨s₁, rfl, h₁⟩ := (returns_fdClose ho).mp h
    have hr₁ : Rings s₁ := by
      split at h₁
      · exact keepsRings_on _ _ _ _ h₁ hr
      · exact h₁ ▸ hr
    exact rings_of_pipes (hr₁.releasePipe _) rfl
  · rwa [(returns_fdClose_of_not ho).mp h]

/-- **Every call keeps the ring buffers well formed.** -/
theorem Call.keepsRings (c : Call) : Always KeepsRings c.exec := by
  cases c with
  | openPath path =>
    exact .bind (.bind (keepsRings_on _) fun fat => keepsRings_installFd fat) fun _ => .pure _
  | create path => exact .bind (keepsRings_fdCreate path) fun _ => .pure _
  | createCase path =>
    refine .bind (.bind (keepsRings_fdCreate path) fun fd => .ite (.pure _) ?_) fun _ => .pure _
    exact .ite (keepsRings_fdCreate _) (.pure _)
  | pipe =>
    intro s r s' h
    simp only [Call.exec, Exec.returns_bind, Exec.returns_get, Exec.returns_set,
      Exec.returns_pure] at h
    obtain ⟨_, s, ⟨rfl, rfl⟩, _, _, rfl, -, rfl⟩ := h
    exact keepsRings_fdPipe s
  | read fd size => exact .bind (keepsRings_fdRead fd size) fun _ => .pure _
  | write fd src => exact .bind (keepsRings_fdWrite fd src) fun _ => .pure _
  | flush fd => exact .bind (.bind .get fun s => .ite (keepsRings_on _) (.pure _)) fun _ => .pure _
  | close fd => exact .bind (keepsRings_fdClose fd) fun _ => .pure _
  | size fd => exact .bind (.bind .get fun s => .ite (keepsRings_on _) (.pure _)) fun _ => .pure _

/-- **Every run from `fd_init` keeps the ring buffers well formed.** -/
theorem Run.rings {s₀ : State} {cs : List (Call × Reply)} (h : Run (fdInit s₀) cs s) : Rings s := by
  refine h.induct (I := Rings) (fun s c r s' hr hc => c.keepsRings s r s' hc hr) fun pid hpid => ?_
  rw [show (fdInit s₀).pipes pid = (s₀.pipes pid).reset false from if_pos hpid]
  exact ⟨Nat.zero_lt_succ 511, Nat.zero_le _, rfl⟩

/-! ## Writes -/

/-- The console: standard output and the output of errors. -/
def FDType.IsConsole (type : FDType) : Prop := type = .stdout ∨ type = .stderr

instance (type : FDType) : Decidable type.IsConsole := inferInstanceAs (Decidable (_ ∨ _))

/-- A FAT12 descriptor that can be written: on a working disk with a FAT for all clusters, the
clusters of the file hold it, and the position is not behind its end. -/
structure FileReady (d : Driver) (fat : ℤ) : Prop where
  working : d.Working
  accepted : d.vol.geo.Accepted
  copies : d.vol.geo.numFats = 1 ∨ d.vol.geo.numFats = 2
  fits : d.vol.geo.FatFits
  valid : d.vol.FdValid fat
  holds : ∃ l, d.vol.HoldsFile (d.vol.fds fat.toNat) l
  pos_le : (d.vol.fds fat.toNat).pos ≤ (d.vol.fds fat.toNat).size

/-- The bytes have reached the sink of the descriptor: they are printed, added to the queue of the
pipe, or written to the file at its position. -/
def Delivered (s s' : State) (f : FileDesc) (out : List UInt8) : Prop :=
  match f.type with
  | .stdout | .stderr =>
    s' = { s with printed := (decide (f.type = .stderr), out) :: s.printed }
  | .pipeWrite => ∃ pid : ℕ, f.pipeId = pid ∧ ∃ p, s' = s.setPipe pid p ∧
      p.contents pipeBuf = pending s pid ++ out
  | .file => ∃ d, s' = { s with fat := d } ∧
      ∀ l, s.fat.vol.HoldsFile (s.fat.vol.fds f.fatFd.toNat) l →
        ∃ l', d.vol.HoldsFile (d.vol.fds f.fatFd.toNat) l' ∧
          d.vol.arrayFile f.fatFd l' = (s.fat.vol.arrayFile f.fatFd l).write out
  | _ => False

section Writes

variable {fd : ℤ} {src : List UInt8}

/-- The console prints the first 256 bytes, and answers with the length. -/
theorem fdWrite_console (src : List UInt8) (ho : s.IsOpen fd) (ht : (s.fds fd.toNat).type.IsConsole) :
    (fdWrite fd src).Returns s (asInt src.length) { s with
      printed := (decide ((s.fds fd.toNat).type = .stderr), cString (src.take 256)) ::
        s.printed } := by
  simp only [fdWrite, Exec.returns_bind, Exec.returns_get]
  refine ⟨s, s, ⟨rfl, rfl⟩, ?_⟩
  rw [if_pos ho]
  rcases ht with ht | ht <;> simp only [ht] <;>
    exact Exec.returns_bind.mpr ⟨(), _, Exec.returns_modify.mpr rfl, Exec.returns_pure.mpr ⟨rfl, rfl⟩⟩

/-- A descriptor that takes no bytes. -/
theorem fdWrite_none (ho : s.IsOpen fd) (ht : (s.fds fd.toNat).type = .none ∨
    (s.fds fd.toNat).type = .stdin ∨ (s.fds fd.toNat).type = .pipeRead) :
    (fdWrite fd src).Returns s (-1) s := by
  simp only [fdWrite, Exec.returns_bind, Exec.returns_get]
  refine ⟨s, s, ⟨rfl, rfl⟩, ?_⟩
  rw [if_pos ho]
  rcases ht with ht | ht | ht <;> simp only [ht] <;> exact Exec.returns_pure.mpr ⟨rfl, rfl⟩

/-- **A pipe takes the bytes that fit**, and answers with their number. -/
theorem fdWrite_pipe {init : ℕ → Bool} (src : List UInt8) (hs : s.tables.Consistent init)
    (hr : Rings s) (ho : s.IsOpen fd) (ht : (s.fds fd.toNat).type = .pipeWrite) :
    ∃ (n : ℕ) (s' : State), (fdWrite fd src).Returns s n s' ∧
      Delivered s s' (s.fds fd.toNat) (src.take n) := by
  obtain ⟨h0, hmax, hused⟩ := ho
  have hlt : fd.toNat < fdMax := by omega
  have href : s.refs fd.toNat = some (.writer (s.fds fd.toNat).pipeId) := by
    rw [refs_of_lt hlt]
    exact target_eq_writer.mpr ⟨⟨hused, ht⟩, rfl⟩
  have hheld : Links.Held s.refs (.writer (s.fds fd.toNat).pipeId) := ⟨_, href⟩
  obtain ⟨pid, hpid, hp⟩ := hs.pipe (.inr hheld)
  -- an open write end keeps the pipe in use and open for writing
  have hwriter : Links.Held s.refs (.writer (pid : ℕ)) := hp ▸ hheld
  have hopen : (s.pipes pid).writeClosed = false := by
    rw [← Bool.not_eq_true]
    have hpu : s.tables.pipeUsed pid = true := (hs.pipeUsed pid hpid).mpr (.inr hwriter)
    exact fun h => (hs.writeClosed pid hpid hpu).mp h hwriter
  obtain ⟨hn, hcontents, -, -⟩ := writePipe_spec src (hr pid hpid)
  have hle : (writePipe src (s.pipes pid)).1 ≤ pipeBuf := by
    rw [hn]
    exact (Nat.min_le_right _ _).trans (Nat.sub_le _ _)
  refine ⟨(writePipe src (s.pipes pid)).1, s.setPipe pid (writePipe src (s.pipes pid)).2, ?_, ?_⟩
  · simp only [fdWrite, Exec.returns_bind, Exec.returns_get]
    refine ⟨s, s, ⟨rfl, rfl⟩, ?_⟩
    rw [if_pos ⟨h0, hmax, hused⟩]
    simp only [ht, hp, Int.toNat_natCast, hopen, Bool.false_eq_true, ↓reduceIte]
    refine Exec.returns_bind.mpr ⟨(), _, Exec.returns_modify.mpr rfl, ?_⟩
    exact Exec.returns_pure.mpr ⟨(asInt_of_le hle).symm, rfl⟩
  · simp only [Delivered, ht]
    refine ⟨pid, hp, _, rfl, ?_⟩
    rw [hcontents, hn, pending, offer]
    simp only [List.append_cancel_left_eq]
    rw [Nat.min_comm, ← List.take_take, List.take_length]

/-- **A file takes bytes as long as there are clusters**, and answers with their number. -/
theorem fdWrite_file (src : List UInt8) (ho : s.IsOpen fd) (ht : (s.fds fd.toNat).type = .file)
    (hf : FileReady s.fat (s.fds fd.toNat).fatFd) :
    ∃ (n : ℤ) (s' : State), (fdWrite fd src).Returns s n s' ∧
      Delivered s s' (s.fds fd.toNat) (src.take n.toNat) := by
  obtain ⟨l, hl⟩ := hf.holds
  have hwrite {l : List ℕ} (hl : s.fat.vol.HoldsFile _ l) := Fat12.fat12Write_refines hf.accepted
    hf.copies hf.fits hf.valid hl hf.pos_le src
  obtain ⟨r, V, -, hacts, -⟩ := hwrite hl
  obtain ⟨d, hd, hvol, -⟩ := hacts s.fat hf.working rfl
  refine ⟨r, { s with fat := d }, ?_, ?_⟩
  · simp only [fdWrite, Exec.returns_bind, Exec.returns_get]
    refine ⟨s, s, ⟨rfl, rfl⟩, ?_⟩
    rw [if_pos ho]
    simp only [ht]
    exact Exec.returns_on.mpr ⟨d, hd, rfl⟩
  · simp only [Delivered, ht]
    refine ⟨d, rfl, fun l hl => ?_⟩
    -- the outcome does not depend on how the clusters of the file are listed
    obtain ⟨r', V', l', hacts', -, -, hfile, -, -, -, hholds, -⟩ := hwrite hl
    obtain ⟨d', hd', hvol', -⟩ := hacts' s.fat hf.working rfl
    obtain ⟨rfl, rfl⟩ := hd.det hd'
    rw [hvol']
    exact ⟨l', hholds, hfile⟩

/-- What the console prints of a text without NUL bytes. -/
theorem cString_take (h0 : 0 ∉ src) (n : ℕ) : cString (src.take n) = src.take n :=
  List.takeWhile_eq_self_iff.mpr fun _ hc =>
    decide_eq_true fun hz => h0 (hz ▸ List.mem_of_mem_take hc)

/-- **The console delivers what it reports** when the text has at most 256 bytes. -/
theorem delivered_console_iff (ht : (s.fds fd.toNat).type.IsConsole) (h0 : 0 ∉ src)
    (hlen : src.length < 2 ^ 32) :
    (0 ≤ asInt src.length → Delivered s { s with
      printed := (decide ((s.fds fd.toNat).type = .stderr), cString (src.take 256)) :: s.printed }
        (s.fds fd.toNat) (src.take (asInt src.length).toNat)) ↔
      src.length ≤ 256 ∨ 2 ^ 31 ≤ src.length := by
  rcases Nat.lt_or_ge src.length (2 ^ 31) with hlt | hge
  · have hint : asInt src.length = src.length := if_pos hlt
    have hprinted : Delivered s { s with
        printed := (decide ((s.fds fd.toNat).type = .stderr), cString (src.take 256)) ::
          s.printed } (s.fds fd.toNat) src ↔ src.take 256 = src := by
      rw [cString_take h0]
      rcases ht with ht | ht <;> simp [Delivered, ht]
    rw [hint, Int.toNat_natCast, List.take_length, hprinted, List.take_eq_self_iff,
      or_iff_left (Nat.not_le.mpr hlt)]
    exact ⟨fun h => h (Int.natCast_nonneg _), fun h _ => h⟩
  · have hint : asInt src.length < 0 := by
      rw [asInt, if_neg (Nat.not_lt.mpr hge)]
      omega
    exact iff_of_true (fun h => absurd h (not_le.mpr hint)) (.inr hge)

/-- **What `fd_write` reports it has delivered**, in every state that calls lead to and for every
open descriptor, if and only if a text for the console has at most 256 bytes (or so many that the
answer is negative). -/
theorem fdWrite_delivers_iff {s₀ : State} {cs : List (Call × Reply)} (h : Run (fdInit s₀) cs s)
    (ho : s.IsOpen fd)
    (hf : (s.fds fd.toNat).type = .file → FileReady s.fat (s.fds fd.toNat).fatFd)
    (h0 : 0 ∉ src) (hlen : src.length < 2 ^ 32) :
    ∃ n s', (fdWrite fd src).Returns s n s' ∧
      ((0 ≤ n → Delivered s s' (s.fds fd.toNat) (src.take n.toNat)) ↔
        ((s.fds fd.toNat).type.IsConsole → src.length ≤ 256 ∨ 2 ^ 31 ≤ src.length)) := by
  by_cases hcon : (s.fds fd.toNat).type.IsConsole
  · refine ⟨_, _, fdWrite_console src ho hcon, (delivered_console_iff hcon h0 hlen).trans ?_⟩
    exact ⟨fun h _ => h, fun h => h hcon⟩
  · -- no other descriptor reports more than it takes
    suffices hall : ∃ n s', (fdWrite fd src).Returns s n s' ∧
        (0 ≤ n → Delivered s s' (s.fds fd.toNat) (src.take n.toNat)) by
      obtain ⟨n, s', hw, hd⟩ := hall
      exact ⟨n, s', hw, iff_of_true hd fun hc => absurd hc hcon⟩
    obtain ⟨type, ht⟩ : ∃ type, (s.fds fd.toNat).type = type := ⟨_, rfl⟩
    cases type with
    | stdout => exact absurd (.inl ht) hcon
    | stderr => exact absurd (.inr ht) hcon
    | none => exact ⟨-1, s, fdWrite_none ho (.inl ht), fun h => absurd h (by decide)⟩
    | stdin => exact ⟨-1, s, fdWrite_none ho (.inr (.inl ht)), fun h => absurd h (by decide)⟩
    | pipeRead => exact ⟨-1, s, fdWrite_none ho (.inr (.inr ht)), fun h => absurd h (by decide)⟩
    | pipeWrite =>
      obtain ⟨n, s', hw, hd⟩ := fdWrite_pipe src h.consistent h.rings ho ht
      exact ⟨n, s', hw, fun _ => hd⟩
    | file =>
      obtain ⟨n, s', hw, hd⟩ := fdWrite_file src ho ht (hf ht)
      exact ⟨n, s', hw, fun _ => hd⟩

end Writes

/-- Two bytes to standard output, right after `fd_init`. -/
theorem fdWrite_delivers_hi : ∃ n s', (fdWrite 1 [104, 105]).Returns (fdInit .zero) n s' ∧
    (0 ≤ n → Delivered (fdInit .zero) s' ((fdInit .zero).fds 1)
      (([104, 105] : List UInt8).take n.toNat)) := by
  obtain ⟨n, s', hw, hiff⟩ := fdWrite_delivers_iff (s := fdInit .zero) (.nil _)
    (show (fdInit .zero).IsOpen 1 by decide) (fun h => nomatch h)
    (show 0 ∉ ([104, 105] : List UInt8) by decide) (by decide)
  exact ⟨n, s', hw, hiff.mpr fun _ => .inl (by decide)⟩

/-- **A text of 257 bytes** for standard output: the answer is 257, and 256 bytes are printed. -/
theorem fdWrite_reports_more : ∃ s',
    (fdWrite 1 (List.replicate 257 97)).Returns (fdInit .zero) 257 s' ∧
      ¬ Delivered (fdInit .zero) s' ((fdInit .zero).fds 1) (List.replicate 257 97) ∧
      s'.printed = [(false, List.replicate 256 97)] := by
  have ht : ((fdInit .zero).fds (1 : ℤ).toNat).type.IsConsole := .inl rfl
  have h0 : (0 : UInt8) ∉ List.replicate 257 97 := fun h =>
    absurd (List.eq_of_mem_replicate h) (by decide)
  have hlen : (List.replicate 257 (97 : UInt8)).length = 257 := List.length_replicate
  have hint : asInt (List.replicate 257 (97 : UInt8)).length = 257 := by
    rw [hlen]
    rfl
  have hw := fdWrite_console (List.replicate 257 97) (s := fdInit .zero) (by decide) ht
  have hiff := delivered_console_iff (s := fdInit .zero) ht h0
    (by rw [hlen]; decide)
  rw [hint] at hw hiff
  refine ⟨_, hw, fun hd => ?_, ?_⟩
  · have hshort := hiff.mp fun _ => by
      rwa [show (257 : ℤ).toNat = 257 from rfl, List.take_of_length_le hlen.le]
    rw [hlen] at hshort
    exact absurd hshort (by decide)
  · rw [cString_take h0, List.take_replicate]
    rfl

end WarkRune.Ipc
