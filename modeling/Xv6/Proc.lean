import Mathlib.Data.List.Basic
import Xv6.Lib.Except
import Xv6.Param

/-!
# The process table (`proc.c`)

`ptable.proc` is an array of `NPROC` slots, each with a state, a pid, a parent pointer, the `killed`
flag and the channel it sleeps on. The table starts zeroed (every slot `UNUSED` with pid 0), and
`nextpid` hands out pids from 1. The operations are the process-table parts of `allocproc`,
`userinit`, `fork`, `exit`, `wait` and `kill`; what they do to memory, files and kernel stacks is
not part of this model. A pointer to a slot is its index; the channel of `wait`'s sleep is the
waiting process itself.

Allocation can fail after a slot has been chosen (no page for the kernel stack in `allocproc`, no
memory for the copy in `fork`); those outcomes are parameters of the operations.
-/

namespace Xv6

inductive Procstate
  | UNUSED | EMBRYO | SLEEPING | RUNNABLE | RUNNING | ZOMBIE
  deriving DecidableEq, Repr

/-- What a process sleeps on: a process (`wait` sleeps on the caller) or another kernel object. -/
inductive Chan
  | none
  | proc (i : Nat)
  | obj (a : Nat)
  deriving DecidableEq, Repr

/-- The fields of `struct proc` the process table keeps. -/
structure Proc where
  state : Procstate
  pid : Int
  /-- The parent's slot; `none` is a null pointer. -/
  parent : Option Nat
  killed : Bool
  chan : Chan
  deriving DecidableEq, Repr

/-- A zeroed slot, as in the static `ptable` before boot. -/
def Proc.zero : Proc := ⟨.UNUSED, 0, none, false, .none⟩

/-- `ptable` together with `nextpid` and `initproc`. -/
structure Ptable where
  proc : List Proc
  nextpid : Int
  initproc : Option Nat
  size_eq : proc.length = NPROC

namespace Ptable

/-- The table at boot. -/
def init : Ptable := ⟨List.replicate NPROC Proc.zero, 1, none, by simp⟩

/-- Slot `i`. -/
def get (t : Ptable) (i : Nat) : Proc := t.proc.getD i Proc.zero

/-- Replace slot `i`. -/
def set (t : Ptable) (i : Nat) (p : Proc) : Ptable :=
  { t with proc := t.proc.set i p, size_eq := by rw [List.length_set, t.size_eq] }

/-- Apply `f` to slot `i`. -/
def modify (t : Ptable) (i : Nat) (f : Proc → Proc) : Ptable := t.set i (f (t.get i))

@[simp] theorem set_nextpid (t : Ptable) (i : Nat) (p : Proc) : (t.set i p).nextpid = t.nextpid := rfl

@[simp] theorem set_initproc (t : Ptable) (i : Nat) (p : Proc) :
    (t.set i p).initproc = t.initproc := rfl

@[simp] theorem get_nextpid (t : Ptable) (n : Int) (j : Nat) :
    ({ t with nextpid := n } : Ptable).get j = t.get j := rfl

theorem get_set (t : Ptable) {i : Nat} (hi : i < NPROC) (p : Proc) (j : Nat) :
    (t.set i p).get j = if i = j then p else t.get j := by
  unfold get set
  split
  · subst j; simp [List.getD_eq_getElem?_getD, t.size_eq, hi]
  · simp [List.getD_eq_getElem?_getD, List.getElem?_set_ne ‹i ≠ j›]

end Ptable

/-- The first slot whose state is `UNUSED`. -/
def firstUnused (t : Ptable) : Option Nat := t.proc.findIdx? fun p => p.state = .UNUSED

/-- `allocproc()`: the first `UNUSED` slot becomes `EMBRYO` with the next pid. `kstackOk` says
whether `kalloc` found a page for its kernel stack; if not, the slot goes back to `UNUSED` and
keeps the pid. -/
def allocproc (t : Ptable) (kstackOk : Bool) : Ptable × Option Nat :=
  match firstUnused t with
  | none => (t, none)
  | some i =>
    let t := { t.modify i fun p => { p with state := .EMBRYO, pid := t.nextpid } with
      nextpid := t.nextpid + 1 }
    if kstackOk then (t, some i) else (t.modify i fun p => { p with state := .UNUSED }, none)

/-- `userinit()`: the first process, made `RUNNABLE` and recorded as `initproc`. `none` when
`allocproc` fails, where the C code dereferences a null pointer. -/
def userinit (t : Ptable) : Option Ptable :=
  match allocproc t true with
  | (_, none) => none
  | (t, some i) => some { t.modify i fun p => { p with state := .RUNNABLE } with initproc := some i }

/-- `fork()` by the process in slot `cur`: the new pid, or -1. `copyOk` says whether `copyuvm`
succeeded; if not, the new slot goes back to `UNUSED` (keeping its pid). -/
def fork (t : Ptable) (cur : Nat) (kstackOk copyOk : Bool) : Ptable × Int :=
  match allocproc t kstackOk with
  | (t, none) => (t, -1)
  | (t, some i) =>
    if copyOk then
      (t.modify i fun p => { p with parent := some cur, state := .RUNNABLE }, (t.get i).pid)
    else (t.modify i fun p => { p with state := .UNUSED }, -1)

/-- `wakeup1(chan)`: every process sleeping on `chan` becomes `RUNNABLE`. -/
def wakeup1 (t : Ptable) (chan : Chan) : Ptable :=
  { t with
    proc := t.proc.map fun p =>
      if p.state = .SLEEPING ∧ p.chan = chan then { p with state := .RUNNABLE } else p
    size_eq := by rw [List.length_map, t.size_eq] }

/-- The reparenting loop of `exit`: each child of `cur` passes to `initproc`, which is woken when
such a child is already a zombie. -/
def reparent (t : Ptable) (cur : Nat) (init : Option Nat) : Ptable :=
  (List.range NPROC).foldl (fun t i =>
    if (t.get i).parent = some cur then
      let t := t.modify i fun p => { p with parent := init }
      if (t.get i).state = .ZOMBIE then wakeup1 t (init.elim .none Chan.proc) else t
    else t) t

/-- `exit()` by the process in slot `cur`. -/
def exit (t : Ptable) (cur : Nat) : Except String Ptable :=
  if t.initproc = some cur then throw "init exiting"
  else
    let t := wakeup1 t ((t.get cur).parent.elim .none Chan.proc)
    let t := reparent t cur t.initproc
    pure (t.modify cur fun p => { p with state := .ZOMBIE })

/-- The first child of `cur` that is a `ZOMBIE`. -/
def zombieChild (t : Ptable) (cur : Nat) : Option Nat :=
  t.proc.findIdx? fun p => p.parent = some cur ∧ p.state = .ZOMBIE

/-- One pass of `wait()` by slot `cur`: the reaped child's pid, -1, or `none` when the caller goes
to sleep on itself (it runs the pass again once woken). A reaped slot is cleared. -/
def wait (t : Ptable) (cur : Nat) : Ptable × Option Int :=
  match zombieChild t cur with
  | some i =>
    (t.modify i fun p => { p with pid := 0, parent := none, killed := false, state := .UNUSED },
      some (t.get i).pid)
  | none =>
    if (t.proc.any fun p => p.parent = some cur) = false ∨ (t.get cur).killed then (t, some (-1))
    else (t.modify cur fun p => { p with chan := .proc cur, state := .SLEEPING }, none)

/-- The first slot whose pid is `pid`, whatever its state. -/
def findPid (t : Ptable) (pid : Int) : Option Nat := t.proc.findIdx? fun p => p.pid = pid

/-- `kill(pid)`: the first slot with that pid is marked killed (and woken if asleep); 0, or -1
when no slot has the pid. -/
def kill (t : Ptable) (pid : Int) : Ptable × Int :=
  match findPid t pid with
  | none => (t, -1)
  | some i =>
    (t.modify i fun p =>
      { p with killed := true, state := if p.state = .SLEEPING then .RUNNABLE else p.state }, 0)

/-! ### `kill` and slot reuse -/

namespace Ptable

theorem get_eq_getElem (t : Ptable) {i : Nat} (hi : i < t.proc.length) : t.get i = t.proc[i] := by
  simp [get, List.getD_eq_getElem?_getD, hi]

theorem get_modify (t : Ptable) {i : Nat} (hi : i < NPROC) (f : Proc → Proc) (j : Nat) :
    (t.modify i f).get j = if i = j then f (t.get i) else t.get j :=
  t.get_set hi _ j

theorem firstUnused_congr {t t' : Ptable} (h : ∀ j, (t'.get j).state = (t.get j).state) :
    firstUnused t' = firstUnused t := by
  have hmap : t'.proc.map Proc.state = t.proc.map Proc.state := by
    apply List.ext_getElem (by simp [t.size_eq, t'.size_eq])
    intro j h₁ h₂
    simp only [List.getElem_map]
    rw [← t'.get_eq_getElem (by simpa using h₁), ← t.get_eq_getElem (by simpa using h₂), h j]
  have hf : ∀ t : Ptable, firstUnused t = (t.proc.map Proc.state).findIdx? (· = .UNUSED) := by
    intro t; simp only [firstUnused, List.findIdx?_map]; rfl
  rw [hf, hf, hmap]

theorem state_modify (t : Ptable) {i : Nat} (hi : i < NPROC) (f : Proc → Proc)
    (hf : (f (t.get i)).state = (t.get i).state) (j : Nat) :
    ((t.modify i f).get j).state = (t.get j).state := by
  rw [t.get_modify hi]
  split
  · subst j; exact hf
  · rfl

end Ptable

theorem findIdx?_lt {l : List Proc} {p : Proc → Bool} {i : Nat} (h : l.findIdx? p = some i) :
    i < l.length :=
  (List.findIdx?_eq_some_iff_getElem.1 h).1

theorem kill_eq_zero_iff (t : Ptable) (pid : Int) :
    (kill t pid).2 = 0 ↔ ∃ i < NPROC, (t.get i).pid = pid := by
  unfold kill findPid
  split
  · rename_i h
    simp only [List.findIdx?_eq_none_iff] at h
    simp only [Int.reduceNeg, Int.reduceEq, false_iff, not_exists, not_and]
    intro i hi hp
    have := h _ (List.getElem_mem (by rw [t.size_eq]; exact hi))
    rw [← t.get_eq_getElem] at this
    simp [hp] at this
  · rename_i i h
    obtain ⟨hi, hp, -⟩ := List.findIdx?_eq_some_iff_getElem.1 h
    simp only [decide_eq_true_eq] at hp
    refine iff_of_true rfl ⟨i, t.size_eq ▸ hi, ?_⟩
    rw [t.get_eq_getElem hi]; exact hp

/-- `kill` marks the first slot carrying `pid` even when that slot is `UNUSED`, and `allocproc`
never clears `killed`: when that slot is also the first free one, the next successful `fork`
puts its child there, already killed, so the child exits at its first trap from user space. -/
theorem fork_after_kill_killed (t : Ptable) (pid : Int) (cur i : Nat)
    (hk : findPid t pid = some i) (hu : firstUnused t = some i) :
    (fork (kill t pid).1 cur true true).2 = t.nextpid ∧
      ((fork (kill t pid).1 cur true true).1.get i).killed = true := by
  have hi : i < NPROC := t.size_eq ▸ findIdx?_lt hu
  have hfree : (t.get i).state = .UNUSED := by
    obtain ⟨hi', hp, -⟩ := List.findIdx?_eq_some_iff_getElem.1 hu
    simp only [decide_eq_true_eq] at hp
    rw [t.get_eq_getElem hi']; exact hp
  -- `kill` leaves every state as it was, so the free slot `fork` takes is still `i`
  set t₁ := (kill t pid).1 with ht₁
  have hkill : t₁ = t.modify i fun p =>
      { p with killed := true, state := if p.state = .SLEEPING then .RUNNABLE else p.state } := by
    simp only [ht₁, kill, hk]
  have hst : ∀ j, (t₁.get j).state = (t.get j).state := by
    rw [hkill]; exact t.state_modify hi _ (by simp [hfree])
  have hu₁ : firstUnused t₁ = some i := by rw [Ptable.firstUnused_congr hst, hu]
  have hk₁ : (t₁.get i).killed = true := by rw [hkill, t.get_modify hi]; simp
  have hn₁ : t₁.nextpid = t.nextpid := by rw [hkill]; rfl
  simp only [fork, allocproc, hu₁, if_true, Ptable.modify, Ptable.get_nextpid,
    Ptable.get_set _ hi, hk₁, hn₁, and_self]

/-- After boot, `kill(0)` returns 0 although no live process has pid 0: it marks the zeroed
`UNUSED` slot 1, and `init`'s next `fork` places its child, pid 2, in that slot with `killed`
already set. -/
theorem kill_zero_child_killed :
    ∃ t, userinit Ptable.init = some t ∧ (∀ i < NPROC, (t.get i).state ≠ .UNUSED → (t.get i).pid ≠ 0) ∧
      (kill t 0).2 = 0 ∧ ((kill t 0).1.get 1).state = .UNUSED ∧ ((kill t 0).1.get 1).killed = true ∧
      (fork (kill t 0).1 0 true true).2 = 2 ∧ ((fork (kill t 0).1 0 true true).1.get 1).killed = true := by
  refine ⟨_, rfl, ?_⟩
  have h := fork_after_kill_killed ((userinit Ptable.init).getD Ptable.init) 0 0 1 (by decide) (by decide)
  exact ⟨by decide, by decide, by decide, by decide, h.1, h.2⟩

end Xv6
