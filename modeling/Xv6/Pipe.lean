import Mathlib.Data.List.Basic
import Xv6.Lib.Machine
import Xv6.Lib.Ring

/-!
# Pipes (`pipe.c`)

A pipe is a ring of `PIPESIZE` bytes with two 32-bit counters, `nread` and `nwrite`, that only
ever grow and wrap at 2^32; since 2^32 is a multiple of `PIPESIZE`, `% PIPESIZE` of a wrapped
counter is still the right cell. `pipewrite` and `piperead` run under `p->lock` except while they
sleep, so each call is a sequence of critical sections, each from `acquire` or a wakeup to the next
`sleep` or the return. `PipeSys` runs any number of such calls on one pipe, interleaving their
sections, and records as ghosts every byte stored (with the call that stored it), every byte
returned, and what each finished `pipewrite` returned.

The result is the FIFO property: the bytes returned so far followed by the bytes in the buffer are
exactly the bytes stored, in the order they were stored.
-/

namespace Xv6

/-- `PIPESIZE`, in the unsigned arithmetic of the counters it is compared with. -/
def PIPESIZE : UInt32 := 512

/-- `struct pipe`, without its lock. -/
structure Pipe where
  data : Nat → UInt8
  nread : UInt32
  nwrite : UInt32
  readopen : Bool
  writeopen : Bool

/-- How one critical section of a call ends: in `sleep`, or returning `r`. -/
inductive Section
  | sleep
  | ret (r : Int)
  deriving DecidableEq, Repr

namespace Pipe

/-- The pipe `pipealloc` sets up; the page `kalloc` returns is not cleared. -/
def alloc (data : Nat → UInt8) : Pipe := ⟨data, 0, 0, true, true⟩

/-- `pipeclose(p, writable)`, up to the `kfree` of a pipe whose ends are both closed. -/
def close (p : Pipe) (writable : Bool) : Pipe :=
  if writable then { p with writeopen := false } else { p with readopen := false }

/-- `p->data[p->nwrite++ % PIPESIZE] = b`. -/
def store (p : Pipe) (b : UInt8) : Pipe :=
  { p with data := Function.update p.data (p.nwrite % PIPESIZE).toNat b, nwrite := p.nwrite + 1 }

/-- `pipewrite`'s loop from byte `i` on, `rest` being `addr[i..n)`, under `p->lock` until the
call sleeps or returns: the pipe, the `i` reached, and how the section ended. `killed` is
`myproc()->killed`. -/
def pipewriteLoop (killed : Bool) (n : Int) : List UInt8 → Nat → Pipe → Pipe × Nat × Section
  | [], i, p => (p, i, .ret n)
  | b :: rest, i, p =>
    if p.nwrite = p.nread + PIPESIZE then
      if p.readopen = false ∨ killed = true then (p, i, .ret (-1)) else (p, i, .sleep)
    else pipewriteLoop killed n rest (i + 1) (p.store b)

/-- `piperead`'s copy loop for at most `k` bytes: the pipe and the bytes stored to `addr`. -/
def pipereadCopy : Nat → Pipe → Pipe × List UInt8
  | 0, p => (p, [])
  | k + 1, p =>
    if p.nread = p.nwrite then (p, [])
    else
      let r := pipereadCopy k { p with nread := p.nread + 1 }
      (r.1, p.data (p.nread % PIPESIZE).toNat :: r.2)

/-- One critical section of `piperead(p, addr, n)`: the pipe, the bytes stored to `addr`, and how
the section ended. A woken reader runs it again from the top. -/
def piperead (killed : Bool) (n : Int) (p : Pipe) : Pipe × List UInt8 × Section :=
  if p.nread = p.nwrite ∧ p.writeopen = true then
    if killed then (p, [], .ret (-1)) else (p, [], .sleep)
  else
    let r := pipereadCopy n.toNat p
    (r.1, r.2, .ret r.2.length)

/-- The number of bytes in the buffer: `nwrite - nread` in 32-bit arithmetic. -/
def count (p : Pipe) : Nat := (p.nwrite - p.nread).toNat

/-- The bytes in the buffer, oldest first. -/
def contents (p : Pipe) : List UInt8 := Ring.contents 512 p.data p.nread.toNat p.count

@[simp] theorem close_count (p : Pipe) (writable : Bool) : (p.close writable).count = p.count := by
  cases writable <;> rfl

@[simp] theorem close_contents (p : Pipe) (writable : Bool) :
    (p.close writable).contents = p.contents := by
  cases writable <;> rfl

theorem toNat_mod_PIPESIZE (x : UInt32) : (x % PIPESIZE).toNat = x.toNat % 512 := by
  simp [PIPESIZE]

/-! ### One byte in, one byte out -/

/-- `pipewrite`'s test for a full pipe. -/
theorem count_eq_512 {p : Pipe} : p.count = 512 ↔ p.nwrite = p.nread + PIPESIZE := by
  rw [← UInt32.toNat_inj]
  simp only [count, UInt32.toNat_sub, UInt32.toNat_add, PIPESIZE, UInt32.reduceToNat]
  have := p.nwrite.toNat_lt
  have := p.nread.toNat_lt
  omega

theorem push {p : Pipe} (hle : p.count ≤ 512) (hfull : p.nwrite ≠ p.nread + PIPESIZE) (b : UInt8) :
    (p.store b).count = p.count + 1 ∧ (p.store b).contents = p.contents ++ [b] := by
  have hne : p.nwrite.toNat ≠ (p.nread + PIPESIZE).toNat := fun e => hfull (UInt32.toNat_inj.1 e)
  have hw := p.nwrite.toNat_lt
  have hr := p.nread.toNat_lt
  simp only [store, count, UInt32.toNat_sub, UInt32.toNat_add, UInt32.toNat_one] at hle hne ⊢
  simp only [PIPESIZE, UInt32.reduceToNat] at hne
  -- the cell `nwrite % PIPESIZE` follows the last byte: `2^32` is a multiple of `PIPESIZE`
  have hcell : (p.nwrite % PIPESIZE).toNat =
      (p.nread.toNat + (2 ^ 32 - p.nread.toNat + p.nwrite.toNat) % 2 ^ 32) % 512 := by
    rw [toNat_mod_PIPESIZE]
    omega
  have hcount : (2 ^ 32 - p.nread.toNat + (p.nwrite.toNat + 1) % 2 ^ 32) % 2 ^ 32 =
      (2 ^ 32 - p.nread.toNat + p.nwrite.toNat) % 2 ^ 32 + 1 := by
    omega
  refine ⟨hcount, ?_⟩
  simp only [contents, count, UInt32.toNat_sub, UInt32.toNat_add, UInt32.toNat_one, hcount, hcell]
  exact Ring.contents_push (by omega) b

theorem pop {p : Pipe} (hne : p.nread ≠ p.nwrite) :
    ({ p with nread := p.nread + 1 } : Pipe).count + 1 = p.count ∧
    p.contents = p.data (p.nread % PIPESIZE).toNat :: ({ p with nread := p.nread + 1 } : Pipe).contents := by
  have hne' : p.nread.toNat ≠ p.nwrite.toNat := fun e => hne (UInt32.toNat_inj.1 e)
  have hw := p.nwrite.toNat_lt
  have hr := p.nread.toNat_lt
  have hcount : ({ p with nread := p.nread + 1 } : Pipe).count + 1 = p.count := by
    simp only [count, UInt32.toNat_sub, UInt32.toNat_add, UInt32.toNat_one]
    omega
  refine ⟨hcount, ?_⟩
  rw [contents, ← hcount, Ring.contents_pop, toNat_mod_PIPESIZE]
  congr 1
  apply Ring.contents_congr
  simp only [UInt32.toNat_add, UInt32.toNat_one]
  omega

/-! ### The loops -/

/-- A section of `pipewrite` stores the first `k` bytes it has left, and returns `n` only when it
has stored them all. -/
theorem pipewriteLoop_spec (killed : Bool) (n : Int) :
    ∀ (rest : List UInt8) (i : Nat) (p : Pipe), p.count ≤ 512 →
      ∃ k ≤ rest.length, ∃ p' sec, pipewriteLoop killed n rest i p = (p', i + k, sec) ∧
        p'.count ≤ 512 ∧ p'.contents = p.contents ++ rest.take k ∧
        ∀ r, sec = .ret r → (r = n ∧ k = rest.length) ∨ (r = -1 ∧ k < rest.length)
  | [], i, p, hle => ⟨0, le_rfl, p, .ret n, rfl, hle, by simp, fun r hr => .inl ⟨by cases hr; rfl, rfl⟩⟩
  | b :: rest, i, p, hle => by
    rw [pipewriteLoop]
    by_cases hfull : p.nwrite = p.nread + PIPESIZE
    · rw [if_pos hfull]
      by_cases hk : p.readopen = false ∨ killed = true
      · rw [if_pos hk]
        exact ⟨0, Nat.zero_le _, p, .ret (-1), rfl, hle, by simp,
          fun r hr => .inr ⟨by cases hr; rfl, by simp⟩⟩
      · rw [if_neg hk]
        exact ⟨0, Nat.zero_le _, p, .sleep, rfl, hle, by simp, fun r hr => by cases hr⟩
    · rw [if_neg hfull]
      have hlt : p.count < 512 := lt_of_le_of_ne hle (mt count_eq_512.1 hfull)
      obtain ⟨hcount, hcontents⟩ := push hle hfull b
      obtain ⟨k, hk, p', sec, heq, hle', hcontents', hret⟩ :=
        pipewriteLoop_spec killed n rest (i + 1) (p.store b) (by omega)
      refine ⟨k + 1, by simpa using hk, p', sec, by rw [heq, Nat.add_right_comm, Nat.add_assoc],
        hle', ?_, fun r hr => ?_⟩
      · rw [hcontents', hcontents, List.take_succ_cons, List.append_assoc, List.singleton_append]
      · rcases hret r hr with ⟨hr, hk⟩ | ⟨hr, hk⟩
        · exact .inl ⟨hr, by simp [hk]⟩
        · exact .inr ⟨hr, by simpa using hk⟩

theorem pipereadCopy_fifo : ∀ (k : Nat) (p : Pipe), p.count ≤ 512 →
    (pipereadCopy k p).2 ++ (pipereadCopy k p).1.contents = p.contents ∧
      (pipereadCopy k p).1.count ≤ 512
  | 0, p, hle => ⟨rfl, hle⟩
  | k + 1, p, hle => by
    rw [pipereadCopy]
    split
    · exact ⟨rfl, hle⟩
    · rename_i hne
      obtain ⟨hcount, hcontents⟩ := pop hne
      obtain ⟨ih1, ih2⟩ := pipereadCopy_fifo k _ (by omega : ({ p with nread := p.nread + 1 } : Pipe).count ≤ 512)
      exact ⟨by rw [hcontents, List.cons_append, ih1], ih2⟩

theorem piperead_fifo (killed : Bool) (n : Int) {p : Pipe} (hle : p.count ≤ 512) :
    (piperead killed n p).2.1 ++ (piperead killed n p).1.contents = p.contents ∧
      (piperead killed n p).1.count ≤ 512 := by
  unfold piperead
  split
  · split <;> exact ⟨rfl, hle⟩
  · exact pipereadCopy_fifo _ _ hle

end Pipe

/-! ### Calls on one pipe -/

/-- A `pipewrite` call asleep: its bytes `addr[0..n)`, its `n`, and the `i` it sleeps at. -/
structure WriteCall where
  bytes : List UInt8
  n : Int
  i : Nat

/-- One pipe and the calls on it. -/
structure PipeSys where
  pipe : Pipe
  /-- The `pipewrite` calls asleep. -/
  writers : Nat → Option WriteCall
  /-- The `piperead` calls asleep, with their `n`. -/
  readers : Nat → Option Int
  /-- Ghost: the identifier of the next call. -/
  fresh : Nat
  /-- Ghost: every byte stored in the buffer, with the call that stored it, in order. -/
  stored : List (Nat × UInt8)
  /-- Ghost: every byte returned by `piperead`, in order. -/
  returned : List UInt8
  /-- Ghost: the finished `pipewrite` calls and what they returned. -/
  wrote : Nat → Option (WriteCall × Int)

/-- What happens next. -/
inductive PipeLabel
  /-- A new call `pipewrite(p, addr, n)`, `bytes` being `addr[0..n)`. -/
  | write (bytes : List UInt8) (n : Int) (killed : Bool)
  /-- The sleeping `pipewrite` call `c` wakes up. -/
  | resumeWrite (c : Nat) (killed : Bool)
  /-- A new call `piperead(p, addr, n)`. -/
  | read (n : Int) (killed : Bool)
  /-- The sleeping `piperead` call `c` wakes up. -/
  | resumeRead (c : Nat) (killed : Bool)
  /-- `pipeclose` of one end. -/
  | close (writable : Bool)

namespace PipeSys

/-- The bytes the call `c` stored, in order. -/
def byCall (l : List (Nat × UInt8)) (c : Nat) : List UInt8 := (l.filter (·.1 == c)).map Prod.snd

/-- A critical section of the `pipewrite` call `c`. -/
def writeSection (s : PipeSys) (c : Nat) (w : WriteCall) (killed : Bool) : PipeSys :=
  let r := Pipe.pipewriteLoop killed w.n (w.bytes.drop w.i) w.i s.pipe
  let s' := { s with
    pipe := r.1
    stored := s.stored ++ ((w.bytes.drop w.i).take (r.2.1 - w.i)).map (c, ·) }
  match r.2.2 with
  | .sleep => { s' with writers := Function.update s.writers c (some { w with i := r.2.1 }) }
  | .ret v =>
    { s' with writers := Function.update s.writers c none, wrote := Function.update s.wrote c (some (w, v)) }

/-- A critical section of the `piperead` call `c`. -/
def readSection (s : PipeSys) (c : Nat) (n : Int) (killed : Bool) : PipeSys :=
  let r := Pipe.piperead killed n s.pipe
  match r.2.2 with
  | .sleep => { s with readers := Function.update s.readers c (some n) }
  | .ret _ =>
    { s with pipe := r.1, returned := s.returned ++ r.2.1, readers := Function.update s.readers c none }

def next (s : PipeSys) : PipeLabel → Option PipeSys
  | .write bytes n killed =>
    if bytes.length = n.toNat then
      some ({ s with fresh := s.fresh + 1 }.writeSection s.fresh ⟨bytes, n, 0⟩ killed)
    else none
  | .resumeWrite c killed => (s.writers c).map fun w => s.writeSection c w killed
  | .read n killed => some ({ s with fresh := s.fresh + 1 }.readSection s.fresh n killed)
  | .resumeRead c killed => (s.readers c).map fun n => s.readSection c n killed
  | .close writable => some { s with pipe := s.pipe.close writable }

def Step (s s' : PipeSys) : Prop := ∃ l, s.next l = some s'

/-- A pipe just allocated, with no call on it. -/
def Init (s : PipeSys) : Prop :=
  (∃ data, s.pipe = Pipe.alloc data) ∧ s.writers = (fun _ => none) ∧ s.readers = (fun _ => none) ∧
    s.stored = [] ∧ s.returned = [] ∧ s.wrote = (fun _ => none)

def Reachable : PipeSys → Prop := Machine.Reachable Init Step

theorem byCall_append (l l' : List (Nat × UInt8)) (c : Nat) :
    byCall (l ++ l') c = byCall l c ++ byCall l' c := by
  simp [byCall]

theorem byCall_map (bs : List UInt8) (c c' : Nat) :
    byCall (bs.map (c, ·)) c' = if c' = c then bs else [] := by
  induction bs with
  | nil => simp [byCall]
  | cons b bs ih =>
    by_cases e : c' = c
    · subst e; simp_all [byCall]
    · simp_all [byCall, Ne.symm e]

theorem map_snd_map (bs : List UInt8) (c : Nat) : (bs.map (c, ·)).map Prod.snd = bs := by
  simp [Function.comp_def]

/-- The invariant of a pipe and the calls on it. -/
structure PipeInv (s : PipeSys) : Prop where
  count_le : s.pipe.count ≤ 512
  fifo : s.returned ++ s.pipe.contents = s.stored.map Prod.snd
  writing : ∀ c w, s.writers c = some w →
    w.bytes.length = w.n.toNat ∧ w.i ≤ w.bytes.length ∧ byCall s.stored c = w.bytes.take w.i
  wrote : ∀ c w r, s.wrote c = some (w, r) → r = w.n → byCall s.stored c = w.bytes
  fresh : ∀ c, s.fresh ≤ c → s.writers c = none ∧ s.wrote c = none ∧ byCall s.stored c = []
  finished : ∀ c, s.wrote c ≠ none → s.writers c = none

namespace PipeInv

variable {s : PipeSys}

theorem init (h : Init s) : PipeInv s := by
  obtain ⟨⟨data, hp⟩, hw, -, hs, hr, hd⟩ := h
  refine ⟨by simp [hp, Pipe.alloc, Pipe.count], by simp [hp, hr, hs, Pipe.alloc, Pipe.contents, Pipe.count],
    fun c w h => by simp [hw] at h, fun c w r h => by simp [hd] at h, fun c _ => ?_, fun c h => by simp [hw]⟩
  simp [hw, hd, hs, byCall]

theorem bump (h : PipeInv s) : PipeInv { s with fresh := s.fresh + 1 } :=
  ⟨h.count_le, h.fifo, h.writing, h.wrote, fun c hc => h.fresh c (by simp at hc; omega), h.finished⟩

theorem writeSection (h : PipeInv s) {c : Nat} {w : WriteCall} (killed : Bool)
    (hlen : w.bytes.length = w.n.toNat) (hi : w.i ≤ w.bytes.length)
    (hby : byCall s.stored c = w.bytes.take w.i) (hwrote : s.wrote c = none) (hc : c < s.fresh) :
    PipeInv (s.writeSection c w killed) := by
  obtain ⟨k, hk, p', sec, heq, hle', hcontents, hret⟩ :=
    Pipe.pipewriteLoop_spec killed w.n (w.bytes.drop w.i) w.i s.pipe h.count_le
  have hdep : w.i + k - w.i = k := by omega
  -- what each call has stored after the section
  have hby' : ∀ c', byCall (s.stored ++ ((w.bytes.drop w.i).take k).map (c, ·)) c' =
      if c' = c then w.bytes.take (w.i + k) else byCall s.stored c' := by
    intro c'
    rw [byCall_append, byCall_map]
    split
    · rename_i e; rw [e, hby, List.take_add]
    · exact List.append_nil _
  have hfifo : s.returned ++ p'.contents =
      (s.stored ++ ((w.bytes.drop w.i).take k).map (c, ·)).map Prod.snd := by
    rw [hcontents, List.map_append, map_snd_map, ← List.append_assoc, h.fifo]
  unfold PipeSys.writeSection
  simp only [heq, hdep]
  cases sec with
  | sleep =>
    refine ⟨hle', hfifo, fun c' w' hw' => ?_, fun c' w' r hw' hr => ?_, fun c' hc' => ?_, fun c' hc' => ?_⟩
    · dsimp only at hw' ⊢
      by_cases e : c' = c
      · subst e
        simp only [Function.update_self, Option.some.injEq] at hw'
        subst hw'
        refine ⟨hlen, ?_, by rw [hby', if_pos rfl]⟩
        show w.i + k ≤ w.bytes.length
        simp only [List.length_drop] at hk
        omega
      · rw [Function.update_of_ne e] at hw'
        rw [hby', if_neg e]
        exact h.writing c' w' hw'
    · dsimp only at hw' ⊢
      have e : c' ≠ c := by rintro rfl; simp [hwrote] at hw'
      rw [hby', if_neg e]
      exact h.wrote c' w' r hw' hr
    · dsimp only at hc' ⊢
      have e : c' ≠ c := by rintro rfl; omega
      rw [Function.update_of_ne e, hby', if_neg e]
      exact h.fresh c' hc'
    · dsimp only at hc' ⊢
      have e : c' ≠ c := by rintro rfl; exact hc' hwrote
      rw [Function.update_of_ne e]
      exact h.finished c' hc'
  | ret v =>
    refine ⟨hle', hfifo, fun c' w' hw' => ?_, fun c' w' r hw' hr => ?_, fun c' hc' => ?_, fun c' hc' => ?_⟩
    · dsimp only at hw' ⊢
      by_cases e : c' = c
      · subst e; simp at hw'
      · rw [Function.update_of_ne e] at hw'
        rw [hby', if_neg e]
        exact h.writing c' w' hw'
    · dsimp only at hw' ⊢
      by_cases e : c' = c
      · subst e
        simp only [Function.update_self, Option.some.injEq, Prod.mk.injEq] at hw'
        obtain ⟨rfl, rfl⟩ := hw'
        rw [hby', if_pos rfl]
        -- a call that returns its `n` has stored all its bytes
        rcases hret v rfl with ⟨-, hk'⟩ | ⟨hr', hk'⟩
        · rw [hk', List.length_drop]
          exact List.take_of_length_le (by omega)
        · rw [hr] at hr'
          simp only [List.length_drop] at hk'
          omega
      · rw [Function.update_of_ne e] at hw'
        rw [hby', if_neg e]
        exact h.wrote c' w' r hw' hr
    · dsimp only at hc' ⊢
      have e : c' ≠ c := by rintro rfl; omega
      rw [Function.update_of_ne e, Function.update_of_ne e, hby', if_neg e]
      exact h.fresh c' hc'
    · dsimp only at hc' ⊢
      by_cases e : c' = c
      · rw [e, Function.update_self]
      · rw [Function.update_of_ne e] at hc' ⊢
        exact h.finished c' hc'

theorem readSection (h : PipeInv s) (c : Nat) (n : Int) (killed : Bool) :
    PipeInv (s.readSection c n killed) := by
  unfold PipeSys.readSection
  dsimp only
  split
  · exact ⟨h.count_le, h.fifo, h.writing, h.wrote, h.fresh, h.finished⟩
  · obtain ⟨hfifo, hle⟩ := Pipe.piperead_fifo killed n h.count_le
    refine ⟨hle, ?_, h.writing, h.wrote, h.fresh, h.finished⟩
    rw [List.append_assoc, hfifo]
    exact h.fifo

theorem step (h : PipeInv s) {s' : PipeSys} (hs : Step s s') : PipeInv s' := by
  obtain ⟨l, hl⟩ := hs
  cases l with
  | write bytes n killed =>
    simp only [PipeSys.next] at hl
    split_ifs at hl with hlen
    cases hl
    obtain ⟨-, hwrote, hby⟩ := h.fresh s.fresh le_rfl
    exact h.bump.writeSection killed hlen (Nat.zero_le _) (by simpa using hby) hwrote (by simp)
  | resumeWrite c killed =>
    simp only [PipeSys.next] at hl
    obtain ⟨w, hw, rfl⟩ := Option.map_eq_some_iff.1 hl
    obtain ⟨hlen, hi, hby⟩ := h.writing c w hw
    have hwrote : s.wrote c = none := by
      by_contra hne
      simp [h.finished c hne] at hw
    have hc : c < s.fresh := by
      by_contra hle
      simp [(h.fresh c (by omega)).1] at hw
    exact h.writeSection killed hlen hi hby hwrote hc
  | read n killed =>
    simp only [PipeSys.next, Option.some.injEq] at hl
    subst hl
    exact h.bump.readSection _ n killed
  | resumeRead c killed =>
    simp only [PipeSys.next] at hl
    obtain ⟨n, -, rfl⟩ := Option.map_eq_some_iff.1 hl
    exact h.readSection c n killed
  | close writable =>
    simp only [PipeSys.next, Option.some.injEq] at hl
    subst hl
    exact ⟨by simpa using h.count_le, by simpa using h.fifo, h.writing, h.wrote, h.fresh, h.finished⟩

end PipeInv

end PipeSys

end Xv6
