import Mathlib.Data.List.Nodup
import Xv6.Lib.Except
import Xv6.Lib.Machine
import Xv6.Lib.Writes
import Xv6.Param

/-!
# The log (`log.c`)

A file-system operation runs between `begin_op` and `end_op`; each block it changes is recorded
by `log_write` in the in-memory header `log.lh` and pinned in the buffer cache as dirty. The last
operation to end commits: `write_log` copies the dirty blocks into the log region, `write_head`
writes the header (the commit point), `install_trans` copies the logged blocks home, and a second
`write_head` empties the header. At boot, `recover_from_log` reads the header, installs what it
names, and empties it.

`LogSys` puts the log together with the disk, the dirty buffers and the operations in progress.
One labelled step is one critical section of `begin_op`, `log_write` or `end_op`, or one disk write
of a commit or of recovery, or a crash, which keeps the disk and loses everything in memory. The
disk is the header (its `n` and `block[0..n)`) and the contents of every other block; block
contents are abstract. The file system only ever writes blocks outside the log region, and no
block reaches the disk except through the log: the buffer cache never writes back a buffer on its
own. Two ghost fields record the writes of each committed group of operations and of the current
one; they do not influence any step.
-/

namespace Xv6

/-- The in-memory `struct log`: where the log lives (from the superblock), how many operations are
executing, whether a commit is in progress, and `lh.block[0..lh.n)`. -/
structure Log where
  start : Nat
  size : Nat
  outstanding : Nat
  committing : Bool
  lh : List Nat
  deriving DecidableEq, Repr

namespace Log

/-- One pass of `begin_op`'s loop under `log.lock`: `none` when the caller sleeps, because a commit
is running or because this operation might exhaust the log space. -/
def beginOp (l : Log) : Option Log :=
  if l.committing then none
  else if l.lh.length + (l.outstanding + 1) * MAXOPBLOCKS > LOGSIZE then none
  else some { l with outstanding := l.outstanding + 1 }

/-- `log_write(b)` for block number `b`: the size check, then absorption into `lh`. -/
def logWrite (l : Log) (b : Nat) : Except String Log :=
  if l.lh.length ≥ LOGSIZE ∨ (l.lh.length : Int) ≥ (l.size : Int) - 1 then
    throw "too big a transaction"
  else if l.outstanding < 1 then throw "log_write outside of trans"
  else pure { l with lh := if b ∈ l.lh then l.lh else l.lh ++ [b] }

/-- `end_op` under `log.lock`: the log, and whether this caller must now commit. -/
def endOp (l : Log) : Except String (Log × Bool) :=
  let l := { l with outstanding := l.outstanding - 1 }
  if l.committing then throw "log.committing"
  else if l.outstanding = 0 then pure ({ l with committing := true }, true)
  else pure (l, false)

theorem logWrite_eq_ok {l l' : Log} {b : Nat} :
    l.logWrite b = .ok l' ↔ l.lh.length < LOGSIZE ∧ (l.lh.length : Int) < (l.size : Int) - 1 ∧
      1 ≤ l.outstanding ∧ l' = { l with lh := if b ∈ l.lh then l.lh else l.lh ++ [b] } := by
  unfold logWrite
  by_cases h1 : l.lh.length ≥ LOGSIZE ∨ (l.lh.length : Int) ≥ (l.size : Int) - 1
  · rw [if_pos h1]
    simp only [Except.throw_eq_error, reduceCtorEq, false_iff]
    omega
  · rw [if_neg h1]
    by_cases h2 : l.outstanding < 1
    · rw [if_pos h2]
      simp only [Except.throw_eq_error, reduceCtorEq, false_iff]
      omega
    · rw [if_neg h2, Except.pure_eq_ok, Except.ok.injEq]
      constructor
      · rintro rfl; exact ⟨by omega, by omega, by omega, rfl⟩
      · rintro ⟨-, -, -, rfl⟩; rfl

section Absorb

variable {l : List Nat} {b : Nat}

theorem mem_absorb {b' : Nat} : b' ∈ (if b ∈ l then l else l ++ [b]) ↔ b' ∈ l ∨ b' = b := by
  by_cases hm : b ∈ l
  · rw [if_pos hm]
    constructor
    · exact .inl
    · rintro (h | rfl) <;> assumption
  · simp [hm]

theorem nodup_absorb (h : l.Nodup) : (if b ∈ l then l else l ++ [b]).Nodup := by
  by_cases hm : b ∈ l
  · rwa [if_pos hm]
  · rw [if_neg hm]
    exact h.append (List.nodup_singleton b) (List.disjoint_singleton.2 hm)

theorem length_absorb : (if b ∈ l then l else l ++ [b]).length ≤ l.length + 1 := by
  split <;> simp

end Absorb

/-- `end_op` succeeds when no commit runs; the last operation out starts one. -/
theorem endOp_eq_ok {l l' : Log} {c : Bool} :
    l.endOp = .ok (l', c) ↔ l.committing = false ∧ c = decide (l.outstanding - 1 = 0) ∧
      l' = { l with outstanding := l.outstanding - 1, committing := decide (l.outstanding - 1 = 0) } := by
  unfold endOp
  cases l with
  | mk start size outstanding committing lh =>
    cases committing <;> by_cases h : outstanding - 1 = 0 <;> simp [h, eq_comm, and_comm]

end Log

/-- The file-system disk as the log sees it: the header block (its `n` and `block[0..n)`) and the
contents of every block. -/
structure LogDisk (β : Type) where
  hdr : List Nat
  blk : Nat → β

section

variable {β : Type}

end

/-- Where the system is: running operations, inside `commit`, or recovering at boot. -/
inductive Phase
  /-- No commit in progress. -/
  | running
  /-- Committing: `write_log`'s iteration `t` is next, or `write_head` once `t = lh.n`. -/
  | writeLog (t : Nat)
  /-- Committed: `install_trans`'s iteration `t` is next, or the clearing `write_head` once
  `t = lh.n`. -/
  | install (t : Nat)
  /-- Booting: `recover_from_log`'s install iteration `t` is next, or its `write_head`. -/
  | recovering (t : Nat)
  deriving DecidableEq, Repr

/-- The log, the disk, the dirty buffers and the operations in progress. -/
structure LogSys (β : Type) where
  log : Log
  disk : LogDisk β
  /-- The buffers marked `B_DIRTY` by `log_write`, with their contents. -/
  cache : Nat → Option β
  /-- For each operation between `begin_op` and `end_op`, the distinct blocks it has logged. -/
  ops : Nat → Option (List Nat)
  phase : Phase
  /-- Ghost: the home blocks of the image mkfs wrote. -/
  img0 : Nat → β
  /-- Ghost: the writes of each committed group of operations, oldest first. -/
  committed : List (List (Nat × β))
  /-- Ghost: the writes of the group not yet committed. -/
  cur : List (Nat × β)

/-- What happens next. -/
inductive LogLabel (β : Type)
  /-- Operation `c` calls `begin_op` and is admitted. -/
  | begin (c : Nat)
  /-- Operation `c` changes block `b` to `v` in its buffer and calls `log_write`. -/
  | write (c b : Nat) (v : β)
  /-- Operation `c` calls `end_op`. -/
  | finish (c : Nat)
  /-- The next disk write of the commit or of recovery. -/
  | advance
  /-- Power fails: memory is lost, the disk stays, and the kernel boots into recovery. -/
  | crash

namespace LogSys

variable {β : Type}

/-- Whether `b` lies in the log region (header and data blocks). -/
def inLog (s : LogSys β) (b : Nat) : Prop := s.log.start ≤ b ∧ b < s.log.start + s.log.size

instance (s : LogSys β) (b : Nat) : Decidable (s.inLog b) := inferInstanceAs (Decidable (_ ∧ _))

/-- Block `b` as `bread` returns it: the dirty buffer if there is one, else the disk. -/
def view (s : LogSys β) (b : Nat) : β := (s.cache b).getD (s.disk.blk b)

/-- The home image after the committed groups: their writes, in order, over the mkfs image. -/
def image (s : LogSys β) : Nat → β := Writes.applyWrites s.committed.flatten s.img0

/-- The states at boot from an image written by mkfs (empty header), with the log at
`start` and `size` blocks long as the superblock says. -/
def Init (start size : Nat) (s : LogSys β) : Prop :=
  s.log = ⟨start, size, 0, false, []⟩ ∧ s.disk.hdr = [] ∧ s.cache = (fun _ => none) ∧
    s.ops = (fun _ => none) ∧ s.phase = .recovering 0 ∧ s.img0 = s.disk.blk ∧ s.committed = [] ∧
    s.cur = []

/-- Performs one disk write of a commit or of recovery: copy `v` to block `b`. -/
def put (s : LogSys β) (b : Nat) (v : β) : LogDisk β := { s.disk with blk := Function.update s.disk.blk b v }

@[simp] theorem put_hdr (s : LogSys β) (b : Nat) (v : β) : (s.put b v).hdr = s.disk.hdr := rfl

theorem put_blk (s : LogSys β) (b : Nat) (v : β) (b' : Nat) :
    (s.put b v).blk b' = if b' = b then v else s.disk.blk b' :=
  Function.update_apply _ _ _ _

/-- One step. `none` when the label cannot happen now (a sleeping `begin_op`, a panic, a label
for an operation not in progress). -/
def next (s : LogSys β) : LogLabel β → Option (LogSys β)
  | .begin c =>
    if s.phase = .running ∧ s.ops c = none then
      s.log.beginOp.map fun l => { s with log := l, ops := Function.update s.ops c (some []) }
    else none
  | .write c b v =>
    match s.phase, s.ops c with
    | .running, some ws =>
      if s.inLog b then none
      else
        match s.log.logWrite b with
        | .ok l =>
          some { s with
            log := l
            cache := Function.update s.cache b (some v)
            ops := Function.update s.ops c (some (if b ∈ ws then ws else ws ++ [b]))
            cur := s.cur ++ [(b, v)] }
        | .error _ => none
    | _, _ => none
  | .finish c =>
    match s.phase, s.ops c with
    | .running, some _ =>
      match s.log.endOp with
      | .ok (l, true) =>
        if l.lh = [] then
          some { s with log := { l with committing := false }, ops := Function.update s.ops c none }
        else some { s with log := l, ops := Function.update s.ops c none, phase := .writeLog 0 }
      | .ok (l, false) => some { s with log := l, ops := Function.update s.ops c none }
      | .error _ => none
    | _, _ => none
  | .advance =>
    match s.phase with
    | .running => none
    | .writeLog t =>
      match s.log.lh[t]? with
      | some b => some { s with disk := s.put (s.log.start + 1 + t) (s.view b), phase := .writeLog (t + 1) }
      | none =>
        some { s with
          disk := { s.disk with hdr := s.log.lh }
          phase := .install 0
          committed := s.committed ++ [s.cur]
          cur := [] }
    | .install t =>
      match s.log.lh[t]? with
      | some b =>
        some { s with
          disk := s.put b (s.disk.blk (s.log.start + 1 + t))
          cache := Function.update s.cache b none
          phase := .install (t + 1) }
      | none =>
        some { s with
          disk := { s.disk with hdr := [] }
          log := { s.log with lh := [], committing := false }
          phase := .running }
    | .recovering t =>
      match s.log.lh[t]? with
      | some b =>
        some { s with disk := s.put b (s.disk.blk (s.log.start + 1 + t)), phase := .recovering (t + 1) }
      | none =>
        some { s with
          disk := { s.disk with hdr := [] }
          log := { s.log with lh := [] }
          phase := .running }
  | .crash =>
    some { s with
      log := { s.log with outstanding := 0, committing := false, lh := s.disk.hdr }
      cache := fun _ => none
      ops := fun _ => none
      phase := .recovering 0
      cur := [] }

/-- One step of the system. -/
def Step (s s' : LogSys β) : Prop := ∃ l, s.next l = some s'

/-- The states reachable from boot. -/
def Reachable (start size : Nat) : LogSys β → Prop := Machine.Reachable (Init start size) Step

/-! ### What each label does -/

section Inversion

variable {s s' : LogSys β}

theorem next_begin {c : Nat} (h : s.next (.begin c) = some s') :
    s.phase = .running ∧ s.ops c = none ∧ s.log.committing = false ∧
      s.log.lh.length + (s.log.outstanding + 1) * MAXOPBLOCKS ≤ LOGSIZE ∧
      s' = { s with
        log := { s.log with outstanding := s.log.outstanding + 1 }
        ops := Function.update s.ops c (some []) } := by
  simp only [next] at h
  by_cases hc : s.phase = .running ∧ s.ops c = none
  · rw [if_pos hc] at h
    obtain ⟨l, hl, rfl⟩ := Option.map_eq_some_iff.1 h
    unfold Log.beginOp at hl
    by_cases h1 : s.log.committing
    · simp [h1] at hl
    · by_cases h2 : s.log.lh.length + (s.log.outstanding + 1) * MAXOPBLOCKS > LOGSIZE
      · simp [h1, h2] at hl
      · rw [if_neg h1, if_neg h2, Option.some.injEq] at hl
        exact ⟨hc.1, hc.2, by simpa using h1, by omega, by rw [← hl]⟩
  · rw [if_neg hc] at h
    cases h

theorem next_write {c b : Nat} {v : β} (h : s.next (.write c b v) = some s') :
    ∃ ws, s.phase = .running ∧ s.ops c = some ws ∧ ¬ s.inLog b ∧ s.log.lh.length < LOGSIZE ∧
      (s.log.lh.length : Int) < (s.log.size : Int) - 1 ∧ 1 ≤ s.log.outstanding ∧
      s' = { s with
        log := { s.log with lh := if b ∈ s.log.lh then s.log.lh else s.log.lh ++ [b] }
        cache := Function.update s.cache b (some v)
        ops := Function.update s.ops c (some (if b ∈ ws then ws else ws ++ [b]))
        cur := s.cur ++ [(b, v)] } := by
  simp only [next] at h
  split at h
  · rename_i ws hp hw
    by_cases hb : s.inLog b
    · rw [if_pos hb] at h
      cases h
    rw [if_neg hb] at h
    split at h
    · rename_i l hl
      obtain ⟨h1, h2, h3, rfl⟩ := Log.logWrite_eq_ok.1 hl
      exact ⟨ws, hp, hw, hb, h1, h2, h3, (Option.some.inj h).symm⟩
    · cases h
  · cases h

/-- `end_op` of an operation in progress: the last one out starts a commit, unless nothing was
logged. -/
theorem next_finish {c : Nat} (h : s.next (.finish c) = some s') :
    s.phase = .running ∧ s.ops c ≠ none ∧ s.log.committing = false ∧
      ((s.log.outstanding - 1 = 0 ∧ s.log.lh ≠ [] ∧
        s' = { s with
          log := { s.log with outstanding := 0, committing := true }
          ops := Function.update s.ops c none
          phase := .writeLog 0 }) ∨
      (¬ (s.log.outstanding - 1 = 0 ∧ s.log.lh ≠ []) ∧
        s' = { s with
          log := { s.log with outstanding := s.log.outstanding - 1 }
          ops := Function.update s.ops c none })) := by
  simp only [next] at h
  split at h
  · rename_i ws hp hw
    have hne : s.ops c ≠ none := by simp [hw]
    split at h
    · rename_i l hl
      obtain ⟨hc, h0, rfl⟩ := Log.endOp_eq_ok.1 hl
      have h0 : s.log.outstanding - 1 = 0 := by simpa using h0.symm
      split_ifs at h with hlh
      · refine ⟨hp, hne, hc, .inr ⟨fun h' => h'.2 hlh, ?_⟩⟩
        rw [← Option.some.inj h]
        simp [h0, hc]
      · refine ⟨hp, hne, hc, .inl ⟨h0, hlh, ?_⟩⟩
        rw [← Option.some.inj h]
        simp [h0]
    · rename_i l hl
      obtain ⟨hc, h0, rfl⟩ := Log.endOp_eq_ok.1 hl
      have h0 : ¬ s.log.outstanding - 1 = 0 := by simpa using h0.symm
      refine ⟨hp, hne, hc, .inr ⟨fun h' => h0 h'.1, ?_⟩⟩
      rw [← Option.some.inj h]
      simp [h0, hc]
    · cases h
  · cases h

/-- One disk write of a commit or of recovery, by phase: the next block of the loop, or the header
write that ends it. -/
theorem next_advance (h : s.next .advance = some s') :
    (∃ t, ∃ ht : t < s.log.lh.length, s.phase = .writeLog t ∧
      s' = { s with
        disk := s.put (s.log.start + 1 + t) (s.view s.log.lh[t])
        phase := .writeLog (t + 1) }) ∨
    (∃ t, s.log.lh.length ≤ t ∧ s.phase = .writeLog t ∧
      s' = { s with
        disk := { s.disk with hdr := s.log.lh }
        phase := .install 0
        committed := s.committed ++ [s.cur]
        cur := [] }) ∨
    (∃ t, ∃ ht : t < s.log.lh.length, s.phase = .install t ∧
      s' = { s with
        disk := s.put s.log.lh[t] (s.disk.blk (s.log.start + 1 + t))
        cache := Function.update s.cache s.log.lh[t] none
        phase := .install (t + 1) }) ∨
    (∃ t, s.log.lh.length ≤ t ∧ s.phase = .install t ∧
      s' = { s with
        disk := { s.disk with hdr := [] }
        log := { s.log with lh := [], committing := false }
        phase := .running }) ∨
    (∃ t, ∃ ht : t < s.log.lh.length, s.phase = .recovering t ∧
      s' = { s with
        disk := s.put s.log.lh[t] (s.disk.blk (s.log.start + 1 + t))
        phase := .recovering (t + 1) }) ∨
    (∃ t, s.log.lh.length ≤ t ∧ s.phase = .recovering t ∧
      s' = { s with
        disk := { s.disk with hdr := [] }
        log := { s.log with lh := [] }
        phase := .running }) := by
  simp only [next] at h
  split at h
  · cases h
  all_goals
    rename_i t hp
    split at h <;> rename_i hb <;> obtain rfl := Option.some.inj h
  · obtain ⟨ht, rfl⟩ := List.getElem?_eq_some_iff.1 hb
    exact .inl ⟨t, ht, hp, rfl⟩
  · exact .inr (.inl ⟨t, List.getElem?_eq_none_iff.1 hb, hp, rfl⟩)
  · obtain ⟨ht, rfl⟩ := List.getElem?_eq_some_iff.1 hb
    exact .inr (.inr (.inl ⟨t, ht, hp, rfl⟩))
  · exact .inr (.inr (.inr (.inl ⟨t, List.getElem?_eq_none_iff.1 hb, hp, rfl⟩)))
  · obtain ⟨ht, rfl⟩ := List.getElem?_eq_some_iff.1 hb
    exact .inr (.inr (.inr (.inr (.inl ⟨t, ht, hp, rfl⟩))))
  · exact .inr (.inr (.inr (.inr (.inr ⟨t, List.getElem?_eq_none_iff.1 hb, hp, rfl⟩))))

theorem next_crash (h : s.next .crash = some s') :
    s' = { s with
      log := { s.log with outstanding := 0, committing := false, lh := s.disk.hdr }
      cache := fun _ => none
      ops := fun _ => none
      phase := .recovering 0
      cur := [] } :=
  (Option.some.inj h).symm

end Inversion

end LogSys

end Xv6
