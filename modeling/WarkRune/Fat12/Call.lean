import WarkRune.Fat12.File

/-!
# Calls and runs

## Main definitions

* `Call`, `Call.exec`: a call of a public operation, and its execution
* `Call.IsName`: the calls that change names
* `Run ok s cs s'`: the calls `cs`, one after the other, take `s` to `s'`, each made in a state
  that meets `ok`
-/

namespace WarkRune.Fat12

/-- A call of a public operation. -/
inductive Call
  | openPath (path : Path)
  | create (path : Path)
  | read (fd : ℤ) (size : ℕ)
  | write (fd : ℤ) (src : List UInt8)
  | flush (fd : ℤ)
  | close (fd : ℤ)
  | size (fd : ℤ)
  | delete (path : Path)
  | rename (oldPath newPath : Path)
  | mkdir (path : Path)
  | rmdir (path : Path)
  | ls (stack : DirEntry) (path : Path)

/-- What a call returns. -/
inductive Reply
  | int (n : ℤ)
  | bytes (n : ℤ) (out : List UInt8)
  | bool (b : Bool)
  | unit
  | listing (l : Option (List Listed))
  deriving DecidableEq

def Call.exec : Call → Fat Reply
  | .openPath path => do return .int (← fat12Open path)
  | .create path => do return .int (← fat12Create path)
  | .read fd n => do
    let (got, out) ← fat12Read fd n
    return .bytes got out
  | .write fd src => do return .int (← fat12Write fd src)
  | .flush fd => do
    fat12Flush fd
    return .unit
  | .close fd => do
    fat12Close fd
    return .unit
  | .size fd => do return .int (← fat12Size fd)
  | .delete path => do return .bool (← fat12Delete path)
  | .rename oldPath newPath => do return .bool (← fat12Rename oldPath newPath)
  | .mkdir path => do return .bool (← fat12Mkdir path)
  | .rmdir path => do return .bool (← fat12Rmdir path)
  | .ls stack path => do return .listing (← fat12Ls stack path)

/-- A name operation. -/
def Call.IsName : Call → Prop
  | .create _ | .delete _ | .rename _ _ | .mkdir _ | .rmdir _ => True
  | _ => False

/-- A run: the calls, one after the other, each made on a volume that meets `ok`. -/
inductive Run (ok : Volume → Call → Prop) : Driver → List Call → Driver → Prop
  | nil (s : Driver) : Run ok s [] s
  | cons {s s₁ s' : Driver} {c : Call} {cs : List Call} {r : Reply} (hok : ok s.vol c)
      (h : c.exec.Returns s r s₁) (hr : Run ok s₁ cs s') : Run ok s (c :: cs) s'

/-- What holds at first and is kept by every call made in a state that meets `ok` holds at the
end of every run. -/
theorem Run.induct {ok : Volume → Call → Prop} {I : Driver → Prop}
    (hstep : ∀ s c r s', I s → ok s.vol c → c.exec.Returns s r s' → I s') {s s' : Driver}
    {cs : List Call} (h : Run ok s cs s') (hI : I s) : I s' := by
  induction h with
  | nil => exact hI
  | cons hok hc _ ih => exact ih (hstep _ _ _ _ hI hok hc)

/-- Execute calls one after the other within a step budget. -/
def runAll (n : ℕ) : List Call → Driver → Option Driver
  | [], s => some s
  | c :: cs, s =>
    match c.exec.run n s with
    | none => none
    | some (_, s₁) => runAll n cs s₁

/-- Executed calls are a run. -/
theorem run_of_runAll {ok : Volume → Call → Prop} {n : ℕ} :
    ∀ {cs : List Call} {s s' : Driver}, runAll n cs s = some s' → (∀ V, ∀ c ∈ cs, ok V c) →
      Run ok s cs s'
  | [], s, s', h, _ => by
    obtain rfl : s = s' := by simpa [runAll] using h
    exact .nil s
  | c :: cs, s, s', h, hok => by
    simp only [runAll] at h
    cases hc : c.exec.run n s with
    | none => simp [hc] at h
    | some p =>
      rw [hc] at h
      exact .cons (hok _ c (by simp)) ⟨n, hc⟩
        (run_of_runAll h fun V d hd => hok V d (List.mem_cons_of_mem _ hd))

end WarkRune.Fat12
