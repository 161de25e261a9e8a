import Xv6.Log.Core

/-!
# Admission control against the log size (`begin_op`, `log_write`, `initlog`, mkfs's `nlog`)

`begin_op` admits an operation while `lh.n + (outstanding + 1) * MAXOPBLOCKS ≤ LOGSIZE`, reserving
`MAXOPBLOCKS` blocks for each operation in progress. `log_write` panics as soon as
`lh.n ≥ LOGSIZE` or `lh.n ≥ log.size - 1`, before it looks for the block in `lh`. mkfs makes the
log `LOGSIZE` blocks long, header included, so only `LOGSIZE - 1` data blocks fit, one fewer than
admission reserves: three operations admitted together, each within its `MAXOPBLOCKS` blocks, reach
the panic with their thirtieth distinct block.
-/

namespace Xv6

namespace LogSys

/-- The system at boot on the image mkfs writes: the log starts at block 2 and is `LOGSIZE`
blocks long. -/
def boot : LogSys Unit where
  log := ⟨2, LOGSIZE, 0, false, []⟩
  disk := ⟨[], fun _ => ()⟩
  cache _ := none
  ops _ := none
  phase := .recovering 0
  img0 _ := ()
  committed := []
  cur := []

theorem boot_init : Init 2 LOGSIZE boot := by
  refine ⟨rfl, rfl, rfl, rfl, rfl, rfl, rfl, rfl⟩

/-- Recovery finishes, three operations are admitted, and they log ten, ten and nine distinct
blocks. -/
def admissionTrace : List (LogLabel Unit) :=
  [.advance, .begin 0, .begin 1, .begin 2] ++ (List.range 10).map (fun i => .write 0 (100 + i) ()) ++
    (List.range 10).map (fun i => .write 1 (110 + i) ()) ++
    (List.range 9).map (fun i => .write 2 (120 + i) ())

end LogSys

/-- After the admission trace every operation is within its `MAXOPBLOCKS` distinct blocks, and
the third one's tenth distinct block makes `log_write` panic: `lh.n` has reached
`log.size - 1 = 29` although admission let all three operations in. -/
theorem logWrite_panics_after_admission :
    ∃ s : LogSys Unit, LogSys.Reachable 2 LOGSIZE s ∧
      s.ops 0 = some ((List.range 10).map (100 + ·)) ∧
      s.ops 1 = some ((List.range 10).map (110 + ·)) ∧
      s.ops 2 = some ((List.range 9).map (120 + ·)) ∧
      s.log.lh.length = s.log.size - 1 ∧
      s.log.logWrite 129 = .error "too big a transaction" := by
  have h1 : (Machine.run LogSys.next LogSys.boot LogSys.admissionTrace).map (fun s =>
      (s.ops 0, s.ops 1, s.ops 2, decide (s.log.lh.length = s.log.size - 1))) =
      some (some ((List.range 10).map (100 + ·)), some ((List.range 10).map (110 + ·)),
        some ((List.range 9).map (120 + ·)), true) := by decide
  have h2 : (Machine.run LogSys.next LogSys.boot LogSys.admissionTrace).map
      (fun s => s.log.logWrite 129) = some (.error "too big a transaction") := rfl
  cases h : Machine.run LogSys.next LogSys.boot LogSys.admissionTrace with
  | none => simp [h] at h2
  | some s =>
    simp only [h, Option.map_some, Option.some.injEq, Prod.mk.injEq, decide_eq_true_eq] at h1 h2
    exact ⟨s, Machine.Reachable.of_run (fun _ l _ hl => ⟨l, hl⟩) (.init LogSys.boot_init) h,
      h1.1, h1.2.1, h1.2.2.1, h1.2.2.2, h2⟩

end Xv6
