import WarkRune.Fat12.Build
import WarkRune.Fat12.Descriptor

/-!
# Transfers that fail

`read_sector` returns whether `ata_read` succeeded. `fat12_init` looks at the answer; every
other reader of the shared buffer goes on and uses what the buffer holds. So a call is free of
stale bytes exactly when none of its reads failed. The bytes `fat_set` reads ahead, where an entry
straddles two sectors, go into both of them.

## Main definitions

* `usesStale`, `writesStale`: the buffer is used, or written, after a failed read
* `readFails`, `modifyFails`: a read fails, or one that a write depends on
* `Transfers l`: the accesses `l` are put together from the driver's uses of the buffer
* `Driver.since`: the accesses of a call

## Main results

* `Call.always_transfers`: the accesses of every call are `Transfers`
* `noStale_iff`: a call whose reads do not fail meets its obligations, and when another one does
* `read_counts_stale`: a read that counts bytes of a sector that could not be read
-/

namespace WarkRune.Fat12

open Exec (Always)

/-! ## Uses of the buffer -/

/-- The buffer is used after a failed read; `stale` says that the last read failed. -/
def usesStale (stale : Bool) : List Access → Bool
  | [] => false
  | .read _ ok :: l => usesStale (!ok) l
  | .clear :: l => usesStale false l
  | .peek :: l => stale || usesStale stale l
  | .keep :: l => stale || usesStale stale l
  | .write _ :: l => stale || usesStale stale l
  | .modify _ :: l => usesStale stale l

/-- The buffer is written to the disk after a failed read, or gives a byte to sectors that are. -/
def writesStale (stale : Bool) : List Access → Bool
  | [] => false
  | .read _ ok :: l => writesStale (!ok) l
  | .clear :: l => writesStale false l
  | .peek :: l => writesStale stale l
  | .keep :: l => stale || writesStale stale l
  | .write _ :: l => stale || writesStale stale l
  | .modify _ :: l => writesStale stale l

/-- Some read fails. -/
def readFails (l : List Access) : Prop := ∃ lba, Access.read lba false ∈ l

/-- Some read that a write depends on fails: that of a sector to be changed, or of a byte to be
kept. -/
def modifyFails (l : List Access) : Prop :=
  (∃ lba lba', [.modify lba, .read lba' false] <:+: l) ∨ ∃ lba, [.read lba false, .keep] <:+: l

theorem modifyFails.readFails {l : List Access} (h : modifyFails l) : readFails l := by
  obtain ⟨_, lba, h⟩ | ⟨lba, h⟩ := h
  · exact ⟨lba, h.subset (by simp)⟩
  · exact ⟨lba, h.subset (by simp)⟩

/-- The accesses the driver makes: reads that are looked at or give a byte to a write,
read-modify-writes and zeroed clusters. -/
inductive Transfers : List Access → Prop
  | nil : Transfers []
  | read {l : List Access} (lba : ℕ) (ok : Bool) (h : Transfers l) :
      Transfers (.read lba ok :: .peek :: l)
  | keep {l : List Access} (lba : ℕ) (ok : Bool) (h : Transfers l) :
      Transfers (.read lba ok :: .keep :: l)
  | modify {l : List Access} (lba lba' lba'' : ℕ) (ok : Bool) (h : Transfers l) :
      Transfers (.modify lba :: .read lba' ok :: .peek :: .write lba'' :: l)
  | zero {l : List Access} (lbas : List ℕ) (h : Transfers l) :
      Transfers (.clear :: (lbas.map Access.write ++ l))

namespace Transfers

variable {l m : List Access}

theorem append (h : Transfers l) (h' : Transfers m) : Transfers (l ++ m) := by
  induction h with
  | nil => exact h'
  | read lba ok h ih => exact .read lba ok ih
  | keep lba ok h ih => exact .keep lba ok ih
  | modify lba lba' lba'' ok h ih => exact .modify lba lba' lba'' ok ih
  | zero lbas h ih =>
    rw [List.cons_append, List.append_assoc]
    exact .zero lbas ih

theorem usesStale_writes (lbas : List ℕ) (l : List Access) :
    usesStale false (lbas.map Access.write ++ l) = usesStale false l := by
  induction lbas with
  | nil => rfl
  | cons a lbas ih => simpa [usesStale] using ih

theorem writesStale_writes (lbas : List ℕ) (l : List Access) :
    writesStale false (lbas.map Access.write ++ l) = writesStale false l := by
  induction lbas with
  | nil => rfl
  | cons a lbas ih => simpa [writesStale] using ih

/-- What the buffer held before does not matter: it is filled before it is used. -/
theorem usesStale_eq (h : Transfers l) (stale : Bool) : usesStale stale l = usesStale false l := by
  cases h <;> rfl

theorem writesStale_eq (h : Transfers l) (stale : Bool) :
    writesStale stale l = writesStale false l := by
  cases h <;> rfl

/-- **A failed read is used**: nothing between a read and the use of the buffer looks at whether
it succeeded. -/
theorem usesStale_iff (h : Transfers l) : usesStale false l = true ↔ readFails l := by
  induction h with
  | nil => simp [usesStale, readFails]
  | read lba ok h ih | keep lba ok h ih =>
    simp only [usesStale, h.usesStale_eq, Bool.or_eq_true, ih]
    cases ok <;> simp [readFails]
  | modify lba lba' lba'' ok h ih =>
    simp only [usesStale, h.usesStale_eq, Bool.or_eq_true, ih]
    cases ok <;> simp [readFails]
  | zero lbas h ih =>
    simp only [usesStale, usesStale_writes, ih]
    simp [readFails]

theorem modifyFails_cons {a : Access} : modifyFails (a :: l) ↔
    (∃ lba lba', [.modify lba, .read lba' false] <+: a :: l) ∨
      (∃ lba, [.read lba false, .keep] <+: a :: l) ∨ modifyFails l := by
  simp only [modifyFails, List.infix_cons_iff, exists_or]
  rw [or_or_or_comm, or_assoc]

theorem not_modifyFails_nil : ¬ modifyFails [] := by simp [modifyFails]

theorem modifyFails_writes (lbas : List ℕ) (l : List Access) :
    modifyFails (lbas.map Access.write ++ l) ↔ modifyFails l := by
  induction lbas with
  | nil => rfl
  | cons a lbas ih =>
    rw [List.map_cons, List.cons_append, modifyFails_cons, ih]
    simp [List.cons_prefix_cons]

/-- **A failed read that a write depends on is written.** -/
theorem writesStale_iff (h : Transfers l) : writesStale false l = true ↔ modifyFails l := by
  -- by induction on how the accesses are put together
  induction h with
  | nil => simp [writesStale, not_modifyFails_nil]
  | read lba ok h ih =>
    simp only [writesStale, h.writesStale_eq, ih, modifyFails_cons]
    simp [List.cons_prefix_cons]
  | keep lba ok h ih =>
    simp only [writesStale, h.writesStale_eq, Bool.or_eq_true, ih, modifyFails_cons]
    cases ok <;> simp [List.cons_prefix_cons]
  | modify lba lba' lba'' ok h ih =>
    simp only [writesStale, h.writesStale_eq, Bool.or_eq_true, ih, modifyFails_cons]
    cases ok <;> simp [List.cons_prefix_cons]
  | zero lbas h ih =>
    simp only [writesStale, writesStale_writes, ih, modifyFails_cons, modifyFails_writes]
    simp [List.cons_prefix_cons]

end Transfers

/-! ## The accesses of a call -/

/-- The accesses between two states, the earliest first. -/
def Driver.since (s s' : Driver) : List Access :=
  (s'.log.take (s'.log.length - s.log.length)).reverse

theorem Driver.since_eq {s s' : Driver} {l : List Access} (h : s'.log = l.reverse ++ s.log) :
    s.since s' = l := by
  simp [since, h]

/-- From `s` to `s'` the accesses are put together from the driver's uses of its buffer. -/
def Logs (s s' : Driver) : Prop := ∃ l, Transfers l ∧ s'.log = l.reverse ++ s.log

instance : Std.Refl Logs := ⟨fun _ => ⟨[], .nil, rfl⟩⟩

instance : IsTrans Driver Logs := by
  refine ⟨fun s₁ s₂ s₃ h h' => ?_⟩
  obtain ⟨l, hl, he⟩ := h
  obtain ⟨m, hm, he'⟩ := h'
  exact ⟨l ++ m, hl.append hm, by rw [he', he, List.reverse_append, List.append_assoc]⟩

/-- What a transfer adds to the log. -/
theorem ataRead_log {lba : ℕ} {s s' : Driver} {ok : Bool} (h : (ataRead lba).Returns s ok s') :
    s'.log = .read lba ok :: s.log := by
  simp only [ataRead, ataWait, record, Exec.returns_bind, Exec.returns_get, Exec.returns_set,
    Exec.returns_pure] at h
  obtain ⟨w, s₁, ⟨_, _, ⟨rfl, rfl⟩, _, _, rfl, -, rfl⟩, h⟩ := h
  split_ifs at h
  · simp only [Exec.returns_bind, Exec.returns_modify, Exec.returns_pure] at h
    obtain ⟨_, _, rfl, _, _, rfl, rfl, rfl⟩ := h
    rfl
  · simp only [Exec.returns_bind, Exec.returns_modify, Exec.returns_pure] at h
    obtain ⟨_, _, rfl, rfl, rfl⟩ := h
    rfl

theorem ataWrite_log {lba : ℕ} {s s' : Driver} {ok : Bool} (h : (ataWrite lba).Returns s ok s') :
    s'.log = .write lba :: s.log := by
  obtain ⟨_, s₁, h₁, h⟩ := Exec.returns_bind.mp h
  obtain rfl := Exec.returns_modify.mp h₁
  have hwait : ∀ {s s' : Driver} {ok : Bool}, ataWait.Returns s ok s' → s'.log = s.log := by
    intro s s' ok h
    simp only [ataWait, Exec.returns_bind, Exec.returns_get, Exec.returns_set,
      Exec.returns_pure] at h
    obtain ⟨_, _, ⟨rfl, rfl⟩, _, _, rfl, -, rfl⟩ := h
    rfl
  obtain ⟨_, s₂, h₂, h⟩ := Exec.returns_bind.mp h
  have hlog := hwait h₂
  split_ifs at h
  · obtain ⟨_, s₃, h₃, h⟩ := Exec.returns_bind.mp h
    obtain rfl := Exec.returns_modify.mp h₃
    obtain ⟨_, s₄, h₄, h⟩ := Exec.returns_bind.mp h
    split_ifs at h
    · exact (hwait h).trans ((hwait h₄).trans hlog)
    · obtain ⟨-, rfl⟩ := Exec.returns_pure.mp h
      exact (hwait h₄).trans hlog
  · obtain ⟨-, rfl⟩ := Exec.returns_pure.mp h
    exact hlog

/-- A read and a look at the buffer, logged as `e`. -/
theorem look_log {lba : ℕ} {e : Access} {s s' : Driver} {b : Sector}
    (h : (do let _ ← readSector lba; record e; return (← get).buf : Fat Sector).Returns s b s') :
    ∃ ok, s'.log = e :: .read (lba % 2 ^ 32) ok :: s.log := by
  obtain ⟨ok, s₁, h₁, h⟩ := Exec.returns_bind.mp h
  obtain ⟨_, s₂, h₂, h⟩ := Exec.returns_bind.mp h
  obtain rfl := Exec.returns_modify.mp h₂
  simp only [Exec.returns_bind, Exec.returns_get, Exec.returns_pure] at h
  obtain ⟨_, _, ⟨rfl, rfl⟩, -, rfl⟩ := h
  exact ⟨ok, by rw [← ataRead_log h₁]⟩

theorem logs_readBuf (lba : ℕ) : Always Logs (readBuf lba) := by
  intro s b s' h
  obtain ⟨ok, he⟩ := look_log (e := .peek) h
  exact ⟨[.read _ ok, .peek], .read _ ok .nil, by simpa using he⟩

theorem logs_keepBuf (lba : ℕ) : Always Logs (keepBuf lba) := by
  intro s b s' h
  obtain ⟨ok, he⟩ := look_log (e := .keep) h
  exact ⟨[.read _ ok, .keep], .keep _ ok .nil, by simpa using he⟩

theorem logs_modifySector (lba : ℕ) (f : Sector → Sector) : Always Logs (modifySector lba f) := by
  intro s _ s' h
  obtain ⟨_, s₁, h₁, h⟩ := Exec.returns_bind.mp h
  obtain rfl := Exec.returns_modify.mp h₁
  obtain ⟨b, s₂, h₂, h⟩ := Exec.returns_bind.mp h
  obtain ⟨ok, he⟩ := look_log (e := .peek) h₂
  obtain ⟨_, s₃, h₃, h⟩ := Exec.returns_bind.mp h
  obtain rfl := Exec.returns_modify.mp h₃
  obtain ⟨_, s₄, h₄, h⟩ := Exec.returns_bind.mp h
  obtain ⟨-, rfl⟩ := Exec.returns_pure.mp h
  have hw := ataWrite_log h₄
  refine ⟨[.modify lba, .read (lba % 2 ^ 32) ok, .peek, .write (lba % 2 ^ 32)],
    .modify _ _ _ ok .nil, ?_⟩
  rw [hw]
  simpa using he

theorem logs_zeroCluster (c : ℕ) : Always Logs (zeroCluster c) := by
  intro s _ s' h
  obtain ⟨_, s₁, h₁, h⟩ := Exec.returns_bind.mp h
  obtain rfl := Exec.returns_modify.mp h₁
  obtain ⟨_, s₂, h₂, h⟩ := Exec.returns_bind.mp h
  obtain rfl := Exec.returns_modify.mp h₂
  obtain ⟨g, s₃, h₃, h⟩ := Exec.returns_bind.mp h
  simp only [geometry, Exec.returns_bind, Exec.returns_get, Exec.returns_pure] at h₃
  obtain ⟨_, _, ⟨rfl, rfl⟩, rfl, rfl⟩ := h₃
  have hwrites : ∀ n i (s s' : Driver) (f : ℕ → ℕ),
      (Exec.forRange (fun k => do let _ ← ataWrite (f k)) i n).Returns s () s' →
        ∃ lbas : List ℕ, s'.log = (lbas.map Access.write).reverse ++ s.log := by
    intro n
    induction n with
    | zero =>
      intro i s s' f h
      obtain ⟨-, rfl⟩ := Exec.returns_pure.mp h
      exact ⟨[], rfl⟩
    | succ n ih =>
      intro i s s' f h
      obtain ⟨_, s₁, h₁, h⟩ := Exec.returns_bind.mp h
      obtain ⟨ok, s₂, h₂, h₁⟩ := Exec.returns_bind.mp h₁
      obtain ⟨-, rfl⟩ := Exec.returns_pure.mp h₁
      obtain ⟨lbas, he⟩ := ih _ _ _ _ h
      exact ⟨f i :: lbas, by rw [he, ataWrite_log h₂]; simp⟩
  obtain ⟨lbas, he⟩ := hwrites _ _ _ _ _ h
  exact ⟨.clear :: (lbas.map Access.write ++ []), .zero lbas .nil, by rw [he]; simp⟩

theorem keptLogs : Kept Logs :=
  ⟨logs_readBuf, logs_keepBuf, logs_modifySector, logs_zeroCluster⟩

/-- **The accesses of every call are transfers**, whatever fails. -/
theorem Call.always_transfers {c : Call} {s s' : Driver} {r : Reply}
    (h : c.exec.Returns s r s') : Transfers (s.since s') := by
  have hset : ∀ fd f, Always Logs (setFd fd f) := fun fd f => .modify fun s => ⟨[], .nil, rfl⟩
  obtain ⟨l, hl, he⟩ := keptLogs.call hset c _ _ _ h
  rwa [Driver.since_eq he]

/-! ## Failed reads -/

/-- The call reports a failure; `fat12_flush` and `fat12_close` have no way to. -/
def Reply.Failed : Reply → Prop
  | .int n => n < 0
  | .bytes n _ => n < 0
  | .bool b => b = false
  | .unit => False
  | .listing l => l = none

/-- The call reports success only if it did not use the buffer after a failed read, and writes
no sector back after a failed read. -/
def NoStale (r : Reply) (l : List Access) : Prop :=
  (¬ r.Failed → usesStale false l = false) ∧ writesStale false l = false

/-- `fat12_init` gives up after a failed read. -/
theorem init_noStale {lba : ℕ} {s s' : Driver} {ok : Bool}
    (h : (fat12Init lba).Returns s ok s') : NoStale (.bool ok) (s.since s') := by
  obtain ⟨old, s₁, h₁, h⟩ := Exec.returns_bind.mp h
  simp only [geometry, Exec.returns_bind, Exec.returns_get, Exec.returns_pure] at h₁
  obtain ⟨_, _, ⟨rfl, rfl⟩, rfl, rfl⟩ := h₁
  obtain ⟨_, s₂, h₂, h⟩ := Exec.returns_bind.mp h
  obtain rfl := Exec.returns_modify.mp h₂
  obtain ⟨got, s₃, h₃, h⟩ := Exec.returns_bind.mp h
  have hread := ataRead_log h₃
  cases got with
  | false =>
    obtain ⟨rfl, rfl⟩ := Exec.returns_pure.mp h
    have hsince : s₁.since s' = [.read (lba % 2 ^ 32) false] := Driver.since_eq hread
    rw [hsince]
    exact ⟨fun hf => absurd rfl hf, rfl⟩
  | true =>
    obtain ⟨b, s₄, h₄, h⟩ := Exec.returns_bind.mp h
    obtain ⟨_, s₅, h₅, h₄⟩ := Exec.returns_bind.mp h₄
    obtain rfl := Exec.returns_modify.mp h₅
    simp only [Exec.returns_bind, Exec.returns_get, Exec.returns_pure] at h₄
    obtain ⟨_, _, ⟨rfl, rfl⟩, -, rfl⟩ := h₄
    have hlog : s'.log = .peek :: s₃.log := by
      obtain ⟨_, s₆, h₆, h⟩ := Exec.returns_bind.mp h
      obtain rfl := Exec.returns_modify.mp h₆
      split_ifs at h
      · obtain ⟨-, rfl⟩ := Exec.returns_pure.mp h
        rfl
      obtain ⟨_, s₇, h₇, h⟩ := Exec.returns_bind.mp h
      obtain rfl := Exec.returns_modify.mp h₇
      split_ifs at h
      · obtain ⟨-, rfl⟩ := Exec.returns_pure.mp h
        rfl
      · obtain ⟨-, rfl⟩ := Exec.returns_pure.mp h
        rfl
      obtain ⟨_, s₈, h₈, h⟩ := Exec.returns_bind.mp h
      obtain rfl := Exec.returns_modify.mp h₈
      obtain ⟨-, rfl⟩ := Exec.returns_pure.mp h
      rfl
    rw [hread] at hlog
    have hsince : s₁.since s' = [.read (lba % 2 ^ 32) true, .peek] := Driver.since_eq hlog
    rw [hsince]
    exact ⟨fun _ => rfl, rfl⟩

/-- **A call whose reads do not fail meets its obligations**, and after a failed read, whose bytes
it has used, it meets them only by reporting a failure, and only where no write depends on the
bytes. `fat12_init` always meets them. -/
theorem noStale_iff {s s' : Driver} :
    (∀ (c : Call) (r : Reply), c.exec.Returns s r s' →
      (¬ readFails (s.since s') → NoStale r (s.since s')) ∧
      (readFails (s.since s') → usesStale false (s.since s') = true ∧
        (NoStale r (s.since s') ↔ r.Failed ∧ ¬ modifyFails (s.since s')))) ∧
    ∀ (lba : ℕ) (ok : Bool), (fat12Init lba).Returns s ok s' →
      NoStale (.bool ok) (s.since s') := by
  refine ⟨fun c r h => ?_, fun lba ok h => init_noStale h⟩
  have ht := c.always_transfers h
  refine ⟨fun hf => ?_, fun hf => ⟨ht.usesStale_iff.mpr hf, ?_⟩⟩
  · have hu : usesStale false (s.since s') = false := by
      rwa [← ht.usesStale_iff, Bool.not_eq_true] at hf
    refine ⟨fun _ => hu, ?_⟩
    rw [← Bool.not_eq_true, ht.writesStale_iff]
    exact fun hm => hf hm.readFails
  · rw [NoStale, ht.usesStale_iff.mpr hf, ← ht.writesStale_iff, Bool.not_eq_true]
    simp

/-- The three bytes of the file `F` lie in cluster 2. -/
def smallFile : Volume :=
  .build smallGeometry (fun c => if c = 2 then 0xFFF else 0)
    (fun i => if i = 0 then (letterEntry 70 attrArch 2).setFileSize 3 else .zero)
    fun _ _ _ => 97

/-- `F` is opened, and then no transfer succeeds any more. -/
def failingDriver : Driver := { smallFile.driver with wait := fun n => decide (n < 1) }

/-- Reading `F` returns three bytes of the root directory, which the buffer still holds. -/
theorem failingDriver_run :
    ∃ s₁ s₂, (Call.openPath [70]).exec.Returns failingDriver (.int 0) s₁ ∧
      (Call.read 0 3).exec.Returns s₁ (.bytes 3 [70, 32, 32]) s₂ ∧
      s₁.since s₂ = [.read 4 false, .peek] := by
  have h : (do
      let p₁ ← (Call.openPath [70]).exec.run 30 failingDriver
      let p₂ ← (Call.read 0 3).exec.run 30 p₁.2
      return (p₁.1, p₂.1, p₁.2.since p₂.2)) =
      some (.int 0, .bytes 3 [70, 32, 32], [.read 4 false, .peek]) := by decide +kernel
  obtain ⟨⟨r₁, s₁⟩, h₁, h⟩ := Option.bind_eq_some_iff.mp h
  obtain ⟨⟨r₂, s₂⟩, h₂, h⟩ := Option.bind_eq_some_iff.mp h
  obtain ⟨rfl, rfl, hs⟩ := by simpa using h
  exact ⟨s₁, s₂, ⟨30, h₁⟩, ⟨30, h₂⟩, hs⟩

theorem noStale_failingDriver :
    ∃ s₁ s₂, (Call.read 0 3).exec.Returns s₁ (.bytes 3 [70, 32, 32]) s₂ ∧
      (NoStale (.bytes 3 [70, 32, 32]) (s₁.since s₂) ↔
        (Reply.bytes 3 [70, 32, 32]).Failed ∧ ¬ modifyFails (s₁.since s₂)) := by
  obtain ⟨s₁, s₂, -, h, hl⟩ := failingDriver_run
  exact ⟨s₁, s₂, h, ((noStale_iff.1 _ _ h).2 ⟨4, by simp [hl]⟩).2⟩

/-- **A read that counts bytes of a sector that could not be read**: `fat12_read` reports three
bytes, and they are bytes of another sector. -/
theorem read_counts_stale :
    ∃ s₁ s₂, (Call.openPath [70]).exec.Returns failingDriver (.int 0) s₁ ∧
      (Call.read 0 3).exec.Returns s₁ (.bytes 3 [70, 32, 32]) s₂ ∧
      ¬ NoStale (.bytes 3 [70, 32, 32]) (s₁.since s₂) := by
  obtain ⟨s₁, s₂, ho, hr, hs⟩ := failingDriver_run
  refine ⟨s₁, s₂, ho, hr, fun hn => ?_⟩
  have hu := hn.1 (by simp [Reply.Failed])
  rw [hs] at hu
  simp [usesStale] at hu

end WarkRune.Fat12
