import Xv6.Log.Crash

/-!
# What a commit writes (`log_write`'s absorption, `write_log`)

Between two commits `lh.block[0..lh.n)` names exactly the blocks the current group passed to
`log_write`, each once, and each of them has a dirty buffer. When `commit` runs, `write_log` copies
each into its log slot with the contents of that buffer, which is the group's last write to it over
the committed image; nothing changes those buffers while it runs, since no operation is in
progress. The ghost `cur` is the list of the group's writes since the previous commit.
-/

namespace Xv6

namespace LogSys

variable {β : Type} {s s' : LogSys β} {start size : Nat}

/-- Every block in `lh` was written by the current group and has a dirty buffer. -/
def Recorded (s : LogSys β) : Prop :=
  ∀ b ∈ s.log.lh, b ∈ s.cur.map Prod.fst ∧ s.cache b ≠ none

/-- `Recorded` while operations run and while `write_log` runs; from the commit point on, `cur`
starts the next group and `install_trans` drops the buffers. -/
def GroupInv (s : LogSys β) : Prop :=
  (s.phase = .running ∨ ∃ t, s.phase = .writeLog t) → Recorded s

namespace GroupInv

theorem init (hi : Init start size s) : GroupInv s := by
  obtain ⟨hl, -, -, -, -, -, -, -⟩ := hi
  intro _ b hb
  rw [hl] at hb
  exact absurd hb List.not_mem_nil

/-- `log_write` absorbs `b` into `lh`, appends the write to `cur` and dirties `b`'s buffer. -/
theorem write (h : GroupInv s) {c b : Nat} {v : β} (hs : s.next (.write c b v) = some s') : GroupInv s' := by
  obtain ⟨ws, hp, -, -, -, -, -, rfl⟩ := next_write hs
  have hr := h (.inl hp)
  intro _ b' hb'
  have hcur : b' ∈ (s.cur ++ [(b, v)]).map Prod.fst ↔ b' ∈ s.cur.map Prod.fst ∨ b' = b := by
    simp [List.map_append, or_comm, eq_comm]
  rw [hcur]
  by_cases e : b' = b
  · subst e
    exact ⟨.inr rfl, by simp⟩
  · obtain ⟨hm, hc⟩ := hr b' ((Log.mem_absorb.1 hb').resolve_right e)
    refine ⟨.inl hm, ?_⟩
    show Function.update s.cache b (some v) b' ≠ none
    rwa [Function.update_of_ne e]

theorem finish (h : GroupInv s) {c : Nat} (hs : s.next (.finish c) = some s') : GroupInv s' := by
  obtain ⟨hp, -, -, hcase⟩ := next_finish hs
  have hr := h (.inl hp)
  rcases hcase with ⟨-, -, rfl⟩ | ⟨-, rfl⟩
  · exact fun _ => hr
  · exact fun _ => hr

/-- The disk writes of a commit keep `lh`, `cur` and the buffers until the commit point, and the
steps that end `install_trans` or recovery empty `lh`. -/
theorem advance (h : GroupInv s) (hs : s.next .advance = some s') : GroupInv s' := by
  rcases next_advance hs with ⟨t, -, hp, rfl⟩ | ⟨t, -, -, rfl⟩ | ⟨t, -, -, rfl⟩ |
    ⟨t, -, -, rfl⟩ | ⟨t, -, -, rfl⟩ | ⟨t, -, -, rfl⟩
  · exact fun _ => h (.inr ⟨t, hp⟩)
  · rintro (e | ⟨_, e⟩) <;> cases e
  · rintro (e | ⟨_, e⟩) <;> cases e
  · intro _ b hb
    exact absurd hb List.not_mem_nil
  · rintro (e | ⟨_, e⟩) <;> cases e
  · intro _ b hb
    exact absurd hb List.not_mem_nil

theorem step (h : GroupInv s) (hs : Step s s') : GroupInv s' := by
  obtain ⟨l, hl⟩ := hs
  cases l with
  | begin c =>
    obtain ⟨-, -, -, -, rfl⟩ := next_begin hl
    exact h
  | write c b v => exact h.write hl
  | finish c => exact h.finish hl
  | advance => exact h.advance hl
  | crash =>
    obtain rfl := next_crash hl
    rintro (e | ⟨_, e⟩) <;> cases e

end GroupInv

end LogSys

end Xv6
