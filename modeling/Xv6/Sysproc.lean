import Xv6.Syscall

/-!
# `sleep(n)` (`sys_sleep` of sysproc.c)

`sys_sleep` fetches `n` with `argint`, takes `ticks0 = ticks` and loops while
`ticks - ticks0 < n`. The difference is a `uint`, so C converts `n` to `uint` as well. Between two
checks the process sleeps on `&ticks`; the timer interrupt increments `ticks`, wrapping at 2^32,
and wakes it, and `kill` may set `killed` in the meantime. A call is run against the wakeups it
gets, each given by what the process reads when it runs again.

The test is exact for `0 ≤ n`: the call returns 0 at the first check at which `n` ticks have passed
modulo 2^32 (`sleepLoop_returned_zero`, `sleepLoop_of_le`). For `n < 0`, `(uint)n` is
`2^32 + n`, so `sleep(-1)` goes to sleep at once and returns 0 only when the counter has
advanced by `0xFFFFFFFF` (`sys_sleep_minus_one`).
-/

namespace Xv6

/-- What the sleeping process finds when it runs again after a `wakeup(&ticks)`. -/
structure Wake where
  ticks : UInt32
  killed : Bool
  deriving DecidableEq, Repr

/-- Where a call of `sys_sleep` stands after the wakeups it has had. -/
inductive SleepResult
  | returned (r : Int)
  /-- In `sleep(&ticks, &tickslock)`, waiting for the next wakeup. -/
  | asleep
  deriving DecidableEq, Repr

/-- The `while` loop of `sys_sleep`, at a check that reads `ticks` and `killed`. -/
def sleepLoop (n : Int32) (ticks0 ticks : UInt32) (killed : Bool) (ws : List Wake) : SleepResult :=
  if ticks - ticks0 < n.toUInt32 then
    if killed then .returned (-1)
    else match ws with
      | [] => .asleep
      | w :: ws => sleepLoop n ticks0 w.ticks w.killed ws
  else .returned 0

/-- `sys_sleep()` for a caller whose arguments `u` holds, called when the clock reads `ticks`. -/
def sysSleep (u : UserCtx) (ticks : UInt32) (killed : Bool) (ws : List Wake) : SleepResult :=
  match argint u 0 with
  | none => .returned (-1)
  | some n => sleepLoop (Int32.ofInt n) ticks ticks killed ws

section Loop

variable {n : Int32} {ticks0 : UInt32}

/-- A check at which `(uint)n` ticks have passed returns 0 at once, asleep or not, killed or not. -/
theorem sleepLoop_of_le {ticks : UInt32} {killed : Bool} {ws : List Wake} (h : n.toUInt32 ≤ ticks - ticks0) :
    sleepLoop n ticks0 ticks killed ws = .returned 0 := by
  unfold sleepLoop
  rw [if_neg (UInt32.not_lt.2 h)]

theorem sleepLoop_returned_zero :
    ∀ {ws : List Wake} {ticks : UInt32} {killed : Bool}, sleepLoop n ticks0 ticks killed ws = .returned 0 →
      ∃ t ∈ ticks :: ws.map Wake.ticks, n.toUInt32 ≤ t - ticks0
  | ws, ticks, killed, h => by
    unfold sleepLoop at h
    split_ifs at h with hlt hk
    · cases h
    · -- asleep: the answer comes from a later check
      rcases ws with _ | ⟨w, ws⟩
      · cases h
      · obtain ⟨t, ht, hle⟩ := sleepLoop_returned_zero h
        exact ⟨t, List.mem_cons_of_mem _ (by simpa using ht), hle⟩
    · exact ⟨ticks, List.mem_cons_self, UInt32.not_lt.1 hlt⟩

theorem sleepLoop_returned_minus_one :
    ∀ {ws : List Wake} {ticks : UInt32} {killed : Bool}, sleepLoop n ticks0 ticks killed ws = .returned (-1) →
      killed = true ∨ ∃ w ∈ ws, w.killed = true
  | ws, ticks, killed, h => by
    unfold sleepLoop at h
    split_ifs at h with hlt hk
    · exact .inl hk
    · rcases ws with _ | ⟨w, ws⟩
      · cases h
      · rcases sleepLoop_returned_minus_one h with hw | ⟨w', hw', hk'⟩
        · exact .inr ⟨w, List.mem_cons_self, hw⟩
        · exact .inr ⟨w', List.mem_cons_of_mem _ hw', hk'⟩
    · cases h

end Loop

/-- A caller of `sleep(-1)`: the word above its return address is `0xFFFFFFFF`. -/
def sleepMinusOne : UserCtx where
  sz := 4096
  esp := 4000
  mem a := if 4004 ≤ a ∧ a < 4008 then 0xFF else 0

/-- `sleep(-1)` compares the elapsed ticks with `(uint)-1 = 0xFFFFFFFF`: whatever the clock reads,
the call goes to sleep at once although no tick is due, and it returns 0 only at a check that
finds the counter advanced by `0xFFFFFFFF`. -/
theorem sys_sleep_minus_one (ticks : UInt32) :
    sysSleep sleepMinusOne ticks false [] = .asleep ∧
    ∀ ws, sysSleep sleepMinusOne ticks false ws = .returned 0 → ∃ w ∈ ws, w.ticks - ticks = 0xFFFFFFFF := by
  have harg : argint sleepMinusOne 0 = some (-1) := by decide
  have hn : (Int32.ofInt (-1)).toUInt32 = 0xFFFFFFFF := by decide
  have hfirst : ticks - ticks < (Int32.ofInt (-1)).toUInt32 := by
    rw [UInt32.sub_self, hn]
    decide
  refine ⟨?_, fun ws h => ?_⟩
  · rw [sysSleep, harg]
    dsimp only
    unfold sleepLoop
    rw [if_pos hfirst, if_neg Bool.false_ne_true]
  · rw [sysSleep, harg] at h
    obtain ⟨t, ht, hle⟩ := sleepLoop_returned_zero h
    rw [hn] at hle
    -- the difference is at most `0xFFFFFFFF`, and it is 0 at the first check
    have hmax : t - ticks = 0xFFFFFFFF := by
      apply UInt32.toNat_inj.1
      have := (t - ticks).toNat_lt
      rw [UInt32.le_iff_toNat_le] at hle
      simp only [UInt32.reduceToNat] at hle ⊢
      omega
    rcases List.mem_cons.1 ht with rfl | ht
    · rw [UInt32.sub_self] at hmax
      cases hmax
    · obtain ⟨w, hw, rfl⟩ := List.mem_map.1 ht
      exact ⟨w, hw, hmax⟩

end Xv6
