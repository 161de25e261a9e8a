import Xv6.Lib.Except
import Xv6.Lib.Machine
import Xv6.Lib.Slist
import Xv6.Param

/-!
# The IDE request queue

`iderw`, `ideintr` and `idestart` of ide.c, over the buffers of the buffer cache (indices below
`NBUF`), the queue `idequeue` threaded through `b->qnext`, and the disk. The disk is the contents
of its blocks (disk `dev & 1`, sector `blockno`: a block is one sector) and the request it was last
given; a write's data goes with the command (`outsl`), and a read's data is taken by the interrupt
handler (`insl`) unless the status it reads shows an error. Panics are `Except.error`, and the loop
that walks to the end of the queue is given `NBUF + 1` turns, more than any queue of distinct
buffers needs.

`State` runs the driver with the processes that call `iderw` and the disk's interrupts. A call
takes `idelock`, queues its buffer and sleeps; the process returns once the buffer is valid and
not dirty. Each interrupt completes the request at the head of the queue. `Inv s q` says the queue
is the list `q`, null-terminated and so without repeats, the disk works on its head, and the calls
so far are the completed buffers followed by `q`.
-/

namespace Xv6.Ide

/-- The fields of a `struct buf` that ide.c reads and writes. -/
structure Buf (β : Type) where
  valid : Bool  -- B_VALID
  dirty : Bool  -- B_DIRTY
  dev : Nat
  blockno : Nat
  qnext : Option Nat
  data : β

/-- The buffers, `idequeue`, `havedisk1`, the disks' blocks and the request the disk works on. -/
structure Driver (β : Type) where
  buf : Nat → Buf β
  idequeue : Option Nat
  havedisk1 : Bool
  sector : Nat → Nat → β
  busy : Option Nat

namespace Driver

variable {β : Type} (s : Driver β)

def setBuf (b : Nat) (x : Buf β) : Driver β := { s with buf := Function.update s.buf b x }

/-- The disks with `d` written to block `blockno` of disk `dev & 1`. -/
def writeSector (dev blockno : Nat) (d : β) : Nat → Nat → β :=
  Function.update s.sector (dev % 2) (Function.update (s.sector (dev % 2)) blockno d)

/-- `b->qnext` for every buffer. -/
def qnext : Nat → Option Nat := fun x => (s.buf x).qnext

/-- `*pp = b`: the head for `pp = &idequeue`, else the `qnext` of the buffer `pp` points into. -/
def store : Option Nat → Nat → Driver β
  | none, b => { s with idequeue := some b }
  | some x, b => s.setBuf x { s.buf x with qnext := some b }

/-- Start the request for b. Caller must hold idelock. (`b` is never null here, and one sector per
block passes the `sector_per_block > 7` check.) -/
def idestart (b : Nat) : Except String (Driver β) :=
  if FSSIZE ≤ (s.buf b).blockno then .error "incorrect blockno"
  else
    let s := { s with busy := some b }
    if (s.buf b).dirty then
      .ok { s with sector := s.writeSector (s.buf b).dev (s.buf b).blockno (s.buf b).data }
    else .ok s

/-- Interrupt handler; `err` is the error bit of the status `idewait(1)` reads. -/
def ideintr (err : Bool) : Except String (Driver β) :=
  match s.idequeue with
  | none => .ok s
  | some b =>
    let s := { s with idequeue := (s.buf b).qnext }
    -- Read data if needed.
    let data := if !(s.buf b).dirty && !err then s.sector ((s.buf b).dev % 2) (s.buf b).blockno else (s.buf b).data
    let s := s.setBuf b { s.buf b with data := data, valid := true, dirty := false }
    -- Start disk on next buf in queue.
    match s.idequeue with
    | none => .ok s
    | some b' => s.idestart b'

/-- iderw up to its sleep: check, append `b` to `idequeue`, and start the disk if necessary. The
caller holds `b->lock`. -/
def iderw (b : Nat) : Except String (Driver β) :=
  if (s.buf b).valid && !(s.buf b).dirty then .error "iderw: nothing to do"
  else if (s.buf b).dev ≠ 0 && !s.havedisk1 then .error "iderw: ide disk 1 not present"
  else
    let s := s.setBuf b { s.buf b with qnext := none }
    match Slist.lastSlot s.idequeue s.qnext (NBUF + 1) none with
    | none => .error "iderw: idequeue does not end"
    | some pp =>
      let s := s.store pp b
      if s.idequeue = some b then s.idestart b else .ok s

/-! ### Field lemmas -/

variable {s} {b x : Nat} {v : Buf β}

@[simp] theorem setBuf_buf : (s.setBuf b v).buf = Function.update s.buf b v := rfl
@[simp] theorem setBuf_idequeue : (s.setBuf b v).idequeue = s.idequeue := rfl
@[simp] theorem setBuf_sector : (s.setBuf b v).sector = s.sector := rfl
@[simp] theorem setBuf_busy : (s.setBuf b v).busy = s.busy := rfl
@[simp] theorem setBuf_havedisk1 : (s.setBuf b v).havedisk1 = s.havedisk1 := rfl

theorem qnext_setBuf : (s.setBuf b v).qnext = Function.update s.qnext b v.qnext := by
  funext x
  by_cases h : x = b
  · subst h
    simp [qnext]
  · simp [qnext, h]

/-- Every buffer keeps its `B_VALID` and `B_DIRTY`. -/
def SameFlags (t t' : Driver β) : Prop :=
  ∀ x, (t'.buf x).valid = (t.buf x).valid ∧ (t'.buf x).dirty = (t.buf x).dirty

theorem SameFlags.trans {t t' t'' : Driver β} (h : SameFlags t t') (h' : SameFlags t' t'') : SameFlags t t'' :=
  fun x => ⟨(h' x).1.trans (h x).1, (h' x).2.trans (h x).2⟩

theorem sameFlags_setQnext (y : Nat) (q : Option Nat) : SameFlags s (s.setBuf y { s.buf y with qnext := q }) := by
  intro x
  by_cases hxy : x = y
  · subst hxy
    simp
  · simp [hxy]

/-! ### What each function does -/

theorem idestart_ok {s' : Driver β} (h : s.idestart b = .ok s') :
    (s.buf b).blockno < FSSIZE ∧ s'.buf = s.buf ∧ s'.idequeue = s.idequeue ∧ s'.busy = some b ∧
      s'.sector = if (s.buf b).dirty then s.writeSector (s.buf b).dev (s.buf b).blockno (s.buf b).data
        else s.sector := by
  unfold idestart at h
  dsimp only at h
  split_ifs at h with hb hd <;> cases h
  · exact ⟨by omega, rfl, rfl, rfl, by simp [hd, writeSector]⟩
  · exact ⟨by omega, rfl, rfl, rfl, by simp [hd]⟩

theorem idestart_isOk (hb : (s.buf b).blockno < FSSIZE) : ∃ s', s.idestart b = .ok s' := by
  unfold idestart
  rw [if_neg (by omega)]
  dsimp only
  split_ifs <;> exact ⟨_, rfl⟩

/-- The interrupt completes the head `b`: it is valid and clean, a read without error holds the
block, and the disk starts on the next buffer. -/
theorem ideintr_ok {err : Bool} {s' : Driver β} (hq : s.idequeue = some b) (h : s.ideintr err = .ok s') :
    s'.buf = Function.update s.buf b { s.buf b with
        data := if !(s.buf b).dirty && !err then s.sector ((s.buf b).dev % 2) (s.buf b).blockno else (s.buf b).data,
        valid := true, dirty := false } ∧
      s'.idequeue = (s.buf b).qnext ∧ s'.busy = ((s.buf b).qnext).elim s.busy some := by
  unfold ideintr at h
  rw [hq] at h
  dsimp only at h
  split at h
  · rename_i hn
    cases h
    simp only [setBuf_idequeue] at hn
    simp [setBuf, hn]
  · rename_i b' hb'
    obtain ⟨-, h₁, h₂, h₃, -⟩ := idestart_ok h
    refine ⟨h₁, h₂.trans (by simp at hb'; simp [hb']), ?_⟩
    rw [h₃]
    simp only [setBuf_idequeue] at hb'
    rw [hb']
    rfl

theorem ideintr_isOk {err : Bool} (hq : s.idequeue = some b)
    (hn : ∀ b', (s.buf b).qnext = some b' → (s.buf b').blockno < FSSIZE) : ∃ s', s.ideintr err = .ok s' := by
  unfold ideintr
  rw [hq]
  dsimp only
  split
  · exact ⟨_, rfl⟩
  · rename_i b' hb'
    refine idestart_isOk ?_
    simp only [setBuf_idequeue] at hb'
    by_cases hbb : b' = b
    · subst hbb
      simpa using hn _ hb'
    · simpa [hbb] using hn _ hb'

theorem length_le_NBUF {q : List Nat} (hnd : q.Nodup) (hq : ∀ x ∈ q, x < NBUF) : q.length ≤ NBUF := by
  have := hnd.length_le_of_subset (show q ⊆ List.range NBUF from fun x hx => List.mem_range.2 (hq x hx))
  simpa using this

/-- iderw appends `b` at the end of the queue, and starts the disk on it when the queue was empty. -/
theorem iderw_ok {q : List Nat} {s' : Driver β} (hp : Slist.Path s.qnext s.idequeue q) (hb : b ∉ q)
    (hq : ∀ x ∈ q, x < NBUF) (h : s.iderw b = .ok s') :
    ¬((s.buf b).valid = true ∧ (s.buf b).dirty = false) ∧ Slist.Path s'.qnext s'.idequeue (q ++ [b]) ∧
      SameFlags s s' ∧ s'.busy = (if q = [] then some b else s.busy) := by
  unfold iderw at h
  split_ifs at h with h₁ h₂
  simp only [Bool.and_eq_true, Bool.not_eq_eq_eq_not, Bool.not_true] at h₁
  refine ⟨h₁, ?_⟩
  -- `b->qnext = 0` leaves the queue, which does not hold `b`
  set s₁ := s.setBuf b { s.buf b with qnext := none }
  have hp₁ : Slist.Path s₁.qnext s₁.idequeue q := by
    rw [qnext_setBuf]
    exact hp.update_of_not_mem hb _
  have hlast := Slist.lastSlot_eq (show Slist.Path s₁.qnext (Slist.load s₁.idequeue s₁.qnext none) q from hp₁)
    (show q.length < NBUF + 1 by have := length_le_NBUF hp.nodup hq; omega)
  dsimp only at h
  rw [hlast] at h
  dsimp only at h
  by_cases hq0 : q = []
  · -- an empty queue: `idequeue = b`, and the disk starts on it
    subst hq0
    simp only [dite_true, store, ↓reduceIte] at h
    obtain ⟨-, hbuf, hhead, hbusy, -⟩ := idestart_ok h
    refine ⟨?_, fun x => ?_, by simpa using hbusy⟩
    · simp only [List.nil_append, Slist.path_cons, Slist.path_nil]
      refine ⟨hhead, ?_⟩
      simp [qnext, hbuf, s₁, setBuf]
    · rw [hbuf]
      exact sameFlags_setQnext b none x
  · -- `*pp = b` in the `qnext` of the last buffer
    simp only [hq0, dite_false, store] at h
    have hne : (s₁.setBuf (q.getLast hq0) { s₁.buf (q.getLast hq0) with qnext := some b }).idequeue ≠ some b := by
      obtain ⟨x, q', rfl⟩ := List.exists_cons_of_ne_nil hq0
      simp only [setBuf_idequeue]
      rw [hp₁.1]
      intro he
      exact hb (Option.some.inj he ▸ List.mem_cons_self)
    rw [if_neg hne] at h
    cases h
    refine ⟨?_, (sameFlags_setQnext b none).trans (sameFlags_setQnext _ _), by simp [hq0, s₁]⟩
    rw [qnext_setBuf]
    refine Slist.Path.snoc hp₁ hq0 hb ?_
    simp [s₁, qnext, setBuf]

end Driver

/-! ### The driver with its callers and the disk -/

/-- The driver; the buffers whose holder is inside `iderw`; and, in order, the calls of `iderw`
(when each took `idelock`) and the buffers the interrupts completed. -/
structure State (β : Type) where
  ide : Driver β
  waiting : Nat → Bool
  arrived : List Nat
  completed : List Nat

inductive Event where
  /-- The process that holds buffer `b`'s lock calls iderw(b). -/
  | iderw (b : Nat)
  /-- The disk finishes its request and interrupts; `err`: its status shows an error. -/
  | intr (err : Bool)
  /-- The process in iderw(b) sees `b` valid and clean and returns. -/
  | ret (b : Nat)

namespace State

variable {β : Type} {s s' : State β} {q : List Nat} {b : Nat}

/-- One event. A buffer is one of the `NBUF` of the cache, and the process holding its lock makes
one call at a time. -/
def next (s : State β) : Event → Option (State β)
  | .iderw b =>
    if b < NBUF ∧ s.waiting b = false then
      (s.ide.iderw b).toOption.map fun ide =>
        { s with ide := ide, waiting := Function.update s.waiting b true, arrived := s.arrived ++ [b] }
    else none
  | .intr err =>
    (Driver.ideintr { s.ide with busy := none } err).toOption.map fun ide =>
      { s with ide := ide, completed := s.completed ++ s.ide.idequeue.toList }
  | .ret b =>
    if s.waiting b = true ∧ (s.ide.buf b).valid = true ∧ (s.ide.buf b).dirty = false then
      some { s with waiting := Function.update s.waiting b false }
    else none

/-- No request queued or running, no caller inside `iderw`, nothing called. -/
def Init (s : State β) : Prop :=
  s.ide.idequeue = none ∧ s.ide.busy = none ∧ (∀ b, s.waiting b = false) ∧ s.arrived = [] ∧ s.completed = []

def Reachable : State β → Prop := Machine.Reachable Init fun s s' => ∃ ev, s.next ev = some s'

/-- `idequeue` is the list `q`, which ends at null; its buffers are buffers of the cache whose
callers wait and which are not both valid and clean; the disk works on its head; and the calls so
far are the completed buffers, then `q`. -/
structure Inv (s : State β) (q : List Nat) : Prop where
  path : Slist.Path s.ide.qnext s.ide.idequeue q
  lt : ∀ x ∈ q, x < NBUF
  waiting : ∀ x ∈ q, s.waiting x = true
  pending : ∀ x ∈ q, ¬((s.ide.buf x).valid = true ∧ (s.ide.buf x).dirty = false)
  busy : s.ide.busy = q.head?
  order : s.arrived = s.completed ++ q

theorem Inv.init (h : Init s) : Inv s [] := by
  obtain ⟨hq, hb, -, ha, hc⟩ := h
  exact ⟨hq, by simp, by simp, by simp, hb, by simp [ha, hc]⟩

theorem Inv.iderw {ide : Driver β} (h : Inv s q) (hlt : b < NBUF) (hw : s.waiting b = false)
    (hr : s.ide.iderw b = .ok ide) :
    Inv { s with ide := ide, waiting := Function.update s.waiting b true, arrived := s.arrived ++ [b] } (q ++ [b]) := by
  have hb : b ∉ q := fun hm => by simp [h.waiting b hm] at hw
  obtain ⟨hflags, hpath, hsame, hbusy⟩ := Driver.iderw_ok h.path hb h.lt hr
  refine ⟨hpath, ?_, ?_, ?_, ?_, by simp [h.order]⟩
  · intro x hx
    rcases List.mem_append.1 hx with hx | hx
    · exact h.lt x hx
    · rw [List.mem_singleton.1 hx]
      exact hlt
  · intro x hx
    by_cases hxb : x = b
    · simp [hxb]
    · simp only [List.mem_append, List.mem_singleton, hxb, or_false] at hx
      simp [hxb, h.waiting x hx]
  · intro x hx
    rw [(hsame x).1, (hsame x).2]
    rcases List.mem_append.1 hx with hx | hx
    · exact h.pending x hx
    · rw [List.mem_singleton.1 hx]
      exact hflags
  · show ide.busy = (q ++ [b]).head?
    rw [hbusy, h.busy]
    cases q <;> simp

theorem Inv.intr {err : Bool} {ide : Driver β} (h : Inv s q)
    (hr : Driver.ideintr { s.ide with busy := none } err = .ok ide) :
    Inv { s with ide := ide, completed := s.completed ++ s.ide.idequeue.toList } q.tail := by
  cases q with
  | nil =>
    -- no request: the handler returns at once
    have hq : s.ide.idequeue = none := h.path
    simp only [Driver.ideintr, hq] at hr
    cases hr
    exact ⟨rfl, h.lt, h.waiting, h.pending, rfl, by simp [hq, h.order]⟩
  | cons b q =>
    obtain ⟨hq, hrest⟩ := h.path
    obtain ⟨hbuf, hhead, hbusy⟩ := Driver.ideintr_ok (s := { s.ide with busy := none }) hq hr
    have hnd := (Slist.path_cons.2 ⟨hq, hrest⟩).nodup
    have hbq : b ∉ q := (List.nodup_cons.1 hnd).1
    -- the queue loses its head; the others keep their `qnext` and flags
    have hnext : ide.qnext = s.ide.qnext := by
      funext x
      by_cases hxb : x = b
      · subst hxb
        simp [Driver.qnext, hbuf]
      · simp [Driver.qnext, hbuf, hxb]
    have hother : ∀ x ∈ q, ide.buf x = s.ide.buf x := fun x hx => by
      rw [hbuf, Function.update_of_ne (fun (e : x = b) => hbq (e ▸ hx))]
    refine ⟨by rw [hnext, hhead]; exact hrest, fun x hx => h.lt x (List.mem_cons_of_mem _ hx),
      fun x hx => h.waiting x (List.mem_cons_of_mem _ hx),
      fun x hx => by rw [hother x hx]; exact h.pending x (List.mem_cons_of_mem _ hx), ?_, ?_⟩
    · show ide.busy = q.head?
      rw [hbusy]
      cases q with
      | nil =>
        simp only [Slist.path_nil, Driver.qnext] at hrest
        simp [hrest]
      | cons c q =>
        simp only [Slist.path_cons, Driver.qnext] at hrest
        simp [hrest.1]
    · simp [h.order, hq]

theorem Inv.ret (h : Inv s q) (hd : (s.ide.buf b).valid = true ∧ (s.ide.buf b).dirty = false) :
    b ∉ q ∧ Inv { s with waiting := Function.update s.waiting b false } q := by
  have hb : b ∉ q := fun hm => h.pending b hm hd
  refine ⟨hb, h.path, h.lt, fun x hx => ?_, h.pending, h.busy, h.order⟩
  show Function.update s.waiting b false x = true
  rw [Function.update_of_ne (fun (e : x = b) => hb (e ▸ hx))]
  exact h.waiting x hx

theorem Inv.next {ev : Event} (h : Inv s q) (hn : s.next ev = some s') : ∃ q', Inv s' q' := by
  cases ev with
  | iderw b =>
    simp only [State.next] at hn
    split_ifs at hn with hc
    obtain ⟨ide, hr, rfl⟩ := Option.map_eq_some_iff.1 hn
    exact ⟨_, h.iderw hc.1 hc.2 (Except.eq_ok_of_toOption hr)⟩
  | intr err =>
    simp only [State.next] at hn
    obtain ⟨ide, hr, rfl⟩ := Option.map_eq_some_iff.1 hn
    exact ⟨_, h.intr (Except.eq_ok_of_toOption hr)⟩
  | ret b =>
    simp only [State.next] at hn
    split_ifs at hn with hc
    cases hn
    exact ⟨_, (h.ret hc.2).2⟩

theorem Reachable.inv (hs : s.Reachable) : ∃ q, Inv s q :=
  Machine.Reachable.rec_inv (fun s => ∃ q, Inv s q) (fun _ h => ⟨_, Inv.init h⟩)
    (fun _ _ ⟨_, hq⟩ ⟨_, hn⟩ => hq.next hn) hs

/-- One buffer of block 1 of disk 0, not valid, whose block holds 7. -/
def start : State Nat :=
  ⟨⟨fun _ => ⟨false, false, 0, 1, none, 0⟩, none, false, fun _ _ => 7, none⟩, fun _ => false, [], []⟩

/-- A read whose interrupt reports a disk error completes all the same: the buffer is marked valid
and clean, and keeps data that is not the block's. -/
theorem read_error_marks_valid :
    ∃ s, Machine.run next start [.iderw 0, .intr true] = some s ∧ s.Reachable ∧ s.completed = [0] ∧
      (s.ide.buf 0).valid = true ∧ (s.ide.buf 0).dirty = false ∧ (s.ide.buf 0).data ≠ s.ide.sector 0 1 :=
  ⟨_, rfl, @Machine.Reachable.of_run _ _ Init _ next (fun _ l _ h => ⟨l, h⟩) start _ [.iderw 0, .intr true]
    (.init ⟨rfl, rfl, fun _ => rfl, rfl, rfl⟩) rfl, rfl, rfl, rfl, by decide⟩

end State

open State

/-- In every state the driver reaches, over any interleaving of `iderw` calls and interrupts:
`idequeue` is a null-terminated list of distinct buffers, the disk works on its head, and the calls
so far are the completed buffers followed by it, so each call is completed once and in the order
of arrival; an interrupt fails only when the next buffer's block number is past `FSSIZE`; it
completes the head, which becomes valid and clean and, for a read with no error reported, holds the
block's contents; and a call returns only when every call on its buffer has completed, with the
buffer valid and clean. -/
theorem ide_queue_fifo {β : Type} {s : State β} (hs : s.Reachable) :
    (∃ q, Slist.Path s.ide.qnext s.ide.idequeue q ∧ q.Nodup ∧ s.ide.busy = q.head? ∧
      s.arrived = s.completed ++ q ∧
      ((∀ x ∈ q, (s.ide.buf x).blockno < FSSIZE) → ∀ err, ∃ s', s.next (.intr err) = some s')) ∧
    (∀ err b s', s.ide.idequeue = some b → s.next (.intr err) = some s' →
      s'.completed = s.completed ++ [b] ∧ (s'.ide.buf b).valid = true ∧ (s'.ide.buf b).dirty = false ∧
      ((s.ide.buf b).dirty = false → err = false →
        (s'.ide.buf b).data = s.ide.sector ((s.ide.buf b).dev % 2) (s.ide.buf b).blockno)) ∧
    (∀ b s', s.next (.ret b) = some s' →
      s.arrived.count b = s.completed.count b ∧ (s.ide.buf b).valid = true ∧ (s.ide.buf b).dirty = false) := by
  obtain ⟨q, h⟩ := hs.inv
  refine ⟨⟨q, h.path, h.path.nodup, h.busy, h.order, fun hblk err => ?_⟩, fun err b s' hq hn => ?_, fun b s' hn => ?_⟩
  · -- the handler starts the next buffer, whose block number is in range
    cases q with
    | nil =>
      have hide : Driver.ideintr { s.ide with busy := none } err = .ok { s.ide with busy := none } := by
        simp [Driver.ideintr, show s.ide.idequeue = none from h.path]
      exact ⟨_, by simp only [State.next, hide]; rfl⟩
    | cons b q =>
      obtain ⟨hq, hrest⟩ := h.path
      obtain ⟨ide, hide⟩ : ∃ ide, Driver.ideintr { s.ide with busy := none } err = .ok ide :=
        Driver.ideintr_isOk hq (fun b' hb' => hblk b' (by cases q <;> simp_all [Driver.qnext]))
      exact ⟨_, by simp only [State.next, hide]; rfl⟩
  · simp only [State.next] at hn
    obtain ⟨ide, hr, rfl⟩ := Option.map_eq_some_iff.1 hn
    obtain ⟨hbuf, -, -⟩ := Driver.ideintr_ok (s := { s.ide with busy := none }) hq (Except.eq_ok_of_toOption hr)
    refine ⟨by simp [hq], by simp [hbuf], by simp [hbuf], fun hd he => ?_⟩
    simp [hbuf, hd, he]
  · simp only [State.next] at hn
    split_ifs at hn with hc
    have hb := (h.ret hc.2).1
    refine ⟨?_, hc.2⟩
    rw [h.order, List.count_append, List.count_eq_zero_of_not_mem hb, Nat.add_zero]

theorem ide_queue_fifo_start :
    start.Reachable ∧
    (∃ q, Slist.Path start.ide.qnext start.ide.idequeue q ∧ q.Nodup ∧ start.ide.busy = q.head? ∧
      start.arrived = start.completed ++ q ∧
      ((∀ x ∈ q, (start.ide.buf x).blockno < FSSIZE) → ∀ err, ∃ s', start.next (.intr err) = some s')) ∧
    (∀ err b s', start.ide.idequeue = some b → start.next (.intr err) = some s' →
      s'.completed = start.completed ++ [b] ∧ (s'.ide.buf b).valid = true ∧ (s'.ide.buf b).dirty = false ∧
      ((start.ide.buf b).dirty = false → err = false →
        (s'.ide.buf b).data = start.ide.sector ((start.ide.buf b).dev % 2) (start.ide.buf b).blockno)) ∧
    (∀ b s', start.next (.ret b) = some s' →
      start.arrived.count b = start.completed.count b ∧ (start.ide.buf b).valid = true ∧
        (start.ide.buf b).dirty = false) :=
  ⟨.init ⟨rfl, rfl, fun _ => rfl, rfl, rfl⟩, ide_queue_fifo (.init ⟨rfl, rfl, fun _ => rfl, rfl, rfl⟩)⟩

end Xv6.Ide
