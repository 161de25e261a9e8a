import Mathlib.Logic.Function.Basic
import Xv6.Lib.Machine

/-!
# `pushcli` and `popcli` on one CPU (spinlock.c, `sched` and `scheduler` of proc.c)

`pushcli` reads `FL_IF`, clears it and, at the outermost level, records it in `mycpu()->intena`;
`popcli` undoes one level and, at the outermost, sets `FL_IF` again if `intena` says it was set.
`acquire` and `release` are `pushcli` and `popcli` around the lock, and so are `holding` and
`switchuvm`, whose pairs nest inside a held lock. `ptable.lock` is handed from thread to thread:
a process calls `sched` holding it with `ncli == 1`, and `sched` keeps `intena` in its frame across
`swtch` and puts it back when the process runs again; the scheduler's own thread switches with
`swtch` alone and keeps nothing. A new process starts in `forkret`, which releases the lock the
scheduler took.

A run is the sequence of these calls on one CPU (`Event`), each made as the kernel makes it
(`Allowed`); `Run` keeps, beside the CPU, the `pushcli`s not yet undone and the `FL_IF` each thread
read at its latest outermost `pushcli`. `pushcli_popcli_nesting` says that in every run `ncli` is
the number of open `pushcli`s, interrupts are off while it is positive, no call panics, and the
outermost `popcli` of a process restores what that process read. The scheduler's thread is the
exception, and `outermost_popcli_other_thread` shows that under either reading of which `pushcli`
a `popcli` matches, the thread's or the CPU's, some run breaks it.
-/

namespace Xv6

/-- One CPU's interrupt state and the kernel thread it runs: `cur` is `none` while the scheduler's
thread runs (`c->proc = 0`) and `some p` while process `p`'s does. -/
structure Cpu (T : Type) where
  ncli : Int
  intena : Bool
  /-- `FL_IF` of `eflags`. -/
  IF : Bool
  cur : Option T
  /-- The local `intena` of `sched` of each process switched out there. -/
  saved : T → Option Bool

namespace Cpu

variable {T : Type}

def pushcli (c : Cpu T) : Cpu T :=
  let eflags := c.IF
  -- `cli()`
  let c := { c with IF := false }
  let c := if c.ncli = 0 then { c with intena := eflags } else c
  { c with ncli := c.ncli + 1 }

def popcli (c : Cpu T) : Except String (Cpu T) :=
  if c.IF then throw "popcli - interruptible"
  else if c.ncli - 1 < 0 then throw "popcli"
  else
    let c := { c with ncli := c.ncli - 1 }
    -- `sti()`
    pure (if c.ncli = 0 ∧ c.intena = true then { c with IF := true } else c)

/-- `sched()` called by the running process `p`: its checks of the CPU, then `intena` kept in its
frame and `swtch` to the scheduler, which goes on after its own `swtch` without touching
`intena`. -/
def sched [DecidableEq T] (c : Cpu T) (p : T) : Except String (Cpu T) :=
  if c.ncli ≠ 1 then throw "sched locks"
  else if c.IF then throw "sched interruptible"
  else pure { c with saved := Function.update c.saved p (some c.intena), cur := none }

/-- The `swtch` of `scheduler()` to process `p`. A process switched out in `sched` goes on there
with `mycpu()->intena = intena`; a new one starts in `forkret`, whose `release(&ptable.lock)` is a
`popcli`. -/
def scheduler [DecidableEq T] (c : Cpu T) (p : T) : Except String (Cpu T) :=
  match c.saved p with
  | some v => pure { c with cur := some p, intena := v, saved := Function.update c.saved p none }
  | none => popcli { c with cur := some p }

/-! ### What each call does -/

section Spec

variable {c : Cpu T}

/-- `pushcli` as one update: `intena` is what `FL_IF` was at the outermost `pushcli`, and
unchanged at an inner one. -/
theorem pushcli_eq :
    c.pushcli = { c with IF := false, intena := if c.ncli = 0 then c.IF else c.intena, ncli := c.ncli + 1 } := by
  dsimp only [pushcli]
  split <;> rfl

@[simp] theorem pushcli_ncli : c.pushcli.ncli = c.ncli + 1 := by rw [pushcli_eq]

@[simp] theorem pushcli_IF : c.pushcli.IF = false := by rw [pushcli_eq]

@[simp] theorem pushcli_cur : c.pushcli.cur = c.cur := by rw [pushcli_eq]

@[simp] theorem pushcli_saved : c.pushcli.saved = c.saved := by rw [pushcli_eq]

theorem pushcli_intena : c.pushcli.intena = if c.ncli = 0 then c.IF else c.intena := by rw [pushcli_eq]

/-- A `popcli` with interrupts off and a `pushcli` open: one level less, and at the outermost
`FL_IF` is `intena`. -/
theorem popcli_ok (hIF : c.IF = false) (hn : 0 < c.ncli) :
    c.popcli = .ok { c with ncli := c.ncli - 1, IF := if c.ncli = 1 then c.intena else false } := by
  rw [popcli, if_neg (by simp [hIF]), if_neg (by omega)]
  show Except.ok _ = _
  congr 1
  by_cases h1 : c.ncli = 1
  · by_cases hi : c.intena = true <;> simp [h1, hIF, hi]
  · simp [h1, hIF, show c.ncli - 1 ≠ 0 by omega]

theorem sched_ok [DecidableEq T] {p : T} (hn : c.ncli = 1) (hIF : c.IF = false) :
    c.sched p = .ok { c with saved := Function.update c.saved p (some c.intena), cur := none } := by
  rw [sched, if_neg (not_not.2 hn), if_neg (by simp [hIF])]
  rfl

end Spec

end Cpu

/-- The calls a CPU makes, each by the thread it runs. -/
inductive Event (T : Type)
  | pushcli
  | popcli
  /-- An interrupt gate clears `FL_IF`. -/
  | cli
  /-- `sti()` at the top of the scheduler's loop, or the `iret` to user space. -/
  | sti
  /-- The running process calls `sched()`. -/
  | sched
  /-- The scheduler switches to process `p`. -/
  | swtch (p : T)
  deriving DecidableEq, Repr

/-- A run on one CPU: the CPU, the `pushcli`s not yet undone (latest first, each with the thread
that made it and the `FL_IF` it read), and the `FL_IF` each thread read at its latest outermost
`pushcli`. -/
structure Run (T : Type) where
  cpu : Cpu T
  pushes : List (Option T × Bool)
  seen : Option T → Option Bool

namespace Run

variable {T : Type} [DecidableEq T]

/-- One call on the CPU, by the thread it runs. -/
def step (r : Run T) : Event T → Except String (Run T)
  | .pushcli => pure { r with
      cpu := r.cpu.pushcli
      pushes := (r.cpu.cur, r.cpu.IF) :: r.pushes
      seen := if r.cpu.ncli = 0 then Function.update r.seen r.cpu.cur (some r.cpu.IF) else r.seen }
  | .popcli => do pure { r with cpu := ← r.cpu.popcli, pushes := r.pushes.tail }
  | .cli => pure { r with cpu := { r.cpu with IF := false } }
  | .sti => pure { r with cpu := { r.cpu with IF := true } }
  | .sched =>
    match r.cpu.cur with
    | some p => do pure { r with cpu := ← r.cpu.sched p }
    -- the scheduler's thread has no process to switch out
    | none => throw "sched"
  | .swtch p => do
    let c ← r.cpu.scheduler p
    -- `forkret`'s `release` undoes the scheduler's `pushcli`
    pure { r with cpu := c, pushes := if r.cpu.saved p = none then r.pushes.tail else r.pushes }

/-- The calls as the kernel makes them: a `popcli` undoes an earlier `pushcli`, `sti` comes with no
`pushcli` open, and `sched` and the scheduler's `swtch` run holding `ptable.lock` alone. -/
def Allowed (r : Run T) : Event T → Prop
  | .popcli => 0 < r.cpu.ncli
  | .sti => r.cpu.ncli = 0
  | .sched => r.cpu.cur ≠ none ∧ r.cpu.ncli = 1
  | .swtch _ => r.cpu.cur = none ∧ r.cpu.ncli = 1
  | .pushcli | .cli => True

instance (r : Run T) : (e : Event T) → Decidable (r.Allowed e)
  | .popcli => inferInstanceAs (Decidable (0 < r.cpu.ncli))
  | .sti => inferInstanceAs (Decidable (r.cpu.ncli = 0))
  | .sched => inferInstanceAs (Decidable (r.cpu.cur ≠ none ∧ r.cpu.ncli = 1))
  | .swtch _ => inferInstanceAs (Decidable (r.cpu.cur = none ∧ r.cpu.ncli = 1))
  | .pushcli | .cli => inferInstanceAs (Decidable True)

/-- The CPU as it enters `scheduler()`: no `pushcli` open, its own thread running, no process
switched out. -/
def Init (r : Run T) : Prop :=
  r.cpu.ncli = 0 ∧ r.cpu.cur = none ∧ (∀ p, r.cpu.saved p = none) ∧ r.pushes = []

def Step (r r' : Run T) : Prop := ∃ e, r.Allowed e ∧ r.step e = .ok r'

def Reachable : Run T → Prop := Machine.Reachable Init Step

/-- `Step` as a function, for replaying a run. -/
def next (r : Run T) (e : Event T) : Option (Run T) :=
  if r.Allowed e then (r.step e).toOption else none

theorem step_of_next {r r' : Run T} {e : Event T} (h : r.next e = some r') : Step r r' := by
  unfold next at h
  split at h
  · refine ⟨e, by assumption, ?_⟩
    cases hs : r.step e with
    | error => simp [hs, Except.toOption] at h
    | ok r₁ =>
      simp only [hs, Except.toOption, Option.some.injEq] at h
      rw [h]
  · cases h

/-! ### What each call does to a run -/

section StepSpec

variable {r : Run T}

theorem step_pushcli : r.step .pushcli = .ok { r with
    cpu := r.cpu.pushcli
    pushes := (r.cpu.cur, r.cpu.IF) :: r.pushes
    seen := if r.cpu.ncli = 0 then Function.update r.seen r.cpu.cur (some r.cpu.IF) else r.seen } := rfl

theorem step_popcli (hIF : r.cpu.IF = false) (hn : 0 < r.cpu.ncli) :
    r.step .popcli = .ok { r with
      cpu := { r.cpu with ncli := r.cpu.ncli - 1, IF := if r.cpu.ncli = 1 then r.cpu.intena else false }
      pushes := r.pushes.tail } := by
  rw [step, Cpu.popcli_ok hIF hn]
  rfl

theorem step_sched {p : T} (hp : r.cpu.cur = some p) (hn : r.cpu.ncli = 1) (hIF : r.cpu.IF = false) :
    r.step .sched = .ok { r with
      cpu := { r.cpu with saved := Function.update r.cpu.saved p (some r.cpu.intena), cur := none } } := by
  rw [step, hp]
  dsimp only
  rw [Cpu.sched_ok hn hIF]
  rfl

/-- The scheduler switches to a process switched out in `sched`: it takes back its `intena`. -/
theorem step_swtch_resume {p : T} {v : Bool} (hs : r.cpu.saved p = some v) :
    r.step (.swtch p) = .ok { r with
      cpu := { r.cpu with cur := some p, intena := v, saved := Function.update r.cpu.saved p none } } := by
  simp only [step, Cpu.scheduler, hs]
  rfl

/-- The scheduler switches to a new process: `forkret` releases `ptable.lock`. -/
theorem step_swtch_start {p : T} (hs : r.cpu.saved p = none) (hIF : r.cpu.IF = false) (hn : r.cpu.ncli = 1) :
    r.step (.swtch p) = .ok { r with
      cpu := { r.cpu with cur := some p, ncli := 0, IF := r.cpu.intena }
      pushes := r.pushes.tail } := by
  simp only [step, Cpu.scheduler, hs]
  rw [Cpu.popcli_ok (c := { r.cpu with cur := some p }) hIF (by simp [hn])]
  simp only [hn, Int.sub_self, if_true]
  rfl

end StepSpec

/-! ### The invariant -/

/-- What every run keeps: `ncli` counts the open `pushcli`s and interrupts are off while one is;
a running process with a `pushcli` open, and a process switched out in `sched`, has its own
outermost reading of `FL_IF` in `intena`. -/
structure Inv (r : Run T) : Prop where
  depth : r.cpu.ncli = r.pushes.length
  off : 0 < r.cpu.ncli → r.cpu.IF = false
  mine : ∀ p, r.cpu.cur = some p → 0 < r.cpu.ncli → r.seen (some p) = some r.cpu.intena
  saved : ∀ p v, r.cpu.saved p = some v → r.seen (some p) = some v
  running : ∀ p, r.cpu.cur = some p → r.cpu.saved p = none

namespace Inv

variable {r r' : Run T}

omit [DecidableEq T] in
theorem init (h : Init r) : Inv r := by
  obtain ⟨hn, hc, hs, hp⟩ := h
  refine ⟨?_, fun h => by omega, ?_, ?_, fun p _ => hs p⟩
  · rw [hn, hp]
    rfl
  · intro p hp'
    rw [hc] at hp'
    cases hp'
  · intro p v hv
    rw [hs p] at hv
    cases hv

theorem step_ok (h : Inv r) {e : Event T} (ha : r.Allowed e) : ∃ r', r.step e = .ok r' := by
  cases e with
  | pushcli => exact ⟨_, step_pushcli⟩
  | popcli => exact ⟨_, step_popcli (h.off ha) ha⟩
  | cli => exact ⟨_, rfl⟩
  | sti => exact ⟨_, rfl⟩
  | sched =>
    obtain ⟨hc, hn⟩ := ha
    obtain ⟨p, hp⟩ := Option.ne_none_iff_exists'.1 hc
    exact ⟨_, step_sched hp hn (h.off (by omega))⟩
  | swtch p =>
    obtain ⟨-, hn⟩ := ha
    cases hs : r.cpu.saved p with
    | some v => exact ⟨_, step_swtch_resume hs⟩
    | none => exact ⟨_, step_swtch_start hs (h.off (by omega)) hn⟩

theorem pushcli (h : Inv r) : Inv { r with
    cpu := r.cpu.pushcli
    pushes := (r.cpu.cur, r.cpu.IF) :: r.pushes
    seen := if r.cpu.ncli = 0 then Function.update r.seen r.cpu.cur (some r.cpu.IF) else r.seen } where
  depth := by simp [h.depth]
  off _ := Cpu.pushcli_IF
  mine p hp _ := by
    dsimp only at hp ⊢
    rw [Cpu.pushcli_cur] at hp
    rw [Cpu.pushcli_intena]
    split
    · -- the outermost `pushcli`: the thread's reading is `intena`
      rw [← hp, Function.update_self]
    · have := h.depth
      exact h.mine p hp (by omega)
  saved q v hv := by
    dsimp only at hv ⊢
    rw [Cpu.pushcli_saved] at hv
    split
    · -- the running thread is not one switched out
      have hq : r.cpu.cur ≠ some q := fun hc => by rw [h.running q hc] at hv; cases hv
      rw [Function.update_of_ne (Ne.symm hq)]
      exact h.saved q v hv
    · exact h.saved q v hv
  running p hp := by
    dsimp only at hp ⊢
    rw [Cpu.pushcli_cur] at hp
    rw [Cpu.pushcli_saved]
    exact h.running p hp

omit [DecidableEq T] in
theorem popcli (h : Inv r) (hn : 0 < r.cpu.ncli) : Inv { r with
    cpu := { r.cpu with ncli := r.cpu.ncli - 1, IF := if r.cpu.ncli = 1 then r.cpu.intena else false }
    pushes := r.pushes.tail } where
  depth := by
    have := h.depth
    dsimp only
    rw [List.length_tail]
    omega
  off hn' := if_neg (by simp at hn'; omega)
  mine p hp hn' := h.mine p hp (by simp at hn'; omega)
  saved := h.saved
  running := h.running

theorem sched {p : T} (h : Inv r) (hp : r.cpu.cur = some p) (hn : r.cpu.ncli = 1) : Inv { r with
    cpu := { r.cpu with saved := Function.update r.cpu.saved p (some r.cpu.intena), cur := none } } where
  depth := h.depth
  off := h.off
  mine _ hc := by cases hc
  saved q v hv := by
    dsimp only at hv
    by_cases hq : q = p
    · -- the process switching out keeps its own reading in `sched`'s frame
      subst hq
      simp only [Function.update_self, Option.some.injEq] at hv
      rw [← hv]
      exact h.mine q hp (by omega)
    · rw [Function.update_of_ne hq] at hv
      exact h.saved q v hv
  running _ hc := by cases hc

theorem resume {p : T} {v : Bool} (h : Inv r) (hs : r.cpu.saved p = some v) : Inv { r with
    cpu := { r.cpu with cur := some p, intena := v, saved := Function.update r.cpu.saved p none } } where
  depth := h.depth
  off := h.off
  mine q hq _ := by
    simp only [Option.some.injEq] at hq
    rw [← hq]
    exact h.saved p v hs
  saved q w hw := by
    dsimp only at hw
    by_cases hq : q = p
    · subst hq
      simp at hw
    · rw [Function.update_of_ne hq] at hw
      exact h.saved q w hw
  running q hq := by
    simp only [Option.some.injEq] at hq
    subst hq
    exact Function.update_self _ _ _

omit [DecidableEq T] in
theorem start {p : T} (h : Inv r) (hs : r.cpu.saved p = none) (hn : r.cpu.ncli = 1) : Inv { r with
    cpu := { r.cpu with cur := some p, ncli := 0, IF := r.cpu.intena }
    pushes := r.pushes.tail } where
  depth := by
    have := h.depth
    simp only [List.length_tail]
    omega
  off hn' := by simp at hn'
  mine _ _ hn' := by simp at hn'
  saved := h.saved
  running q hq := by
    simp only [Option.some.injEq] at hq
    exact hq ▸ hs

theorem step (h : Inv r) {e : Event T} {r' : Run T} (ha : r.Allowed e) (hs : r.step e = .ok r') : Inv r' := by
  cases e with
  | pushcli =>
    rw [step_pushcli, Except.ok.injEq] at hs
    exact hs ▸ h.pushcli
  | popcli =>
    rw [step_popcli (h.off ha) ha, Except.ok.injEq] at hs
    exact hs ▸ h.popcli ha
  | cli =>
    cases hs
    exact ⟨h.depth, fun _ => rfl, h.mine, h.saved, h.running⟩
  | sti =>
    cases hs
    have h0 : r.cpu.ncli = 0 := ha
    exact ⟨h.depth, fun hn => absurd hn (by dsimp only; omega), fun _ _ hn => absurd hn (by dsimp only; omega),
      h.saved, h.running⟩
  | sched =>
    obtain ⟨hc, hn⟩ := ha
    obtain ⟨p, hp⟩ := Option.ne_none_iff_exists'.1 hc
    rw [step_sched hp hn (h.off (by omega)), Except.ok.injEq] at hs
    exact hs ▸ h.sched hp hn
  | swtch p =>
    obtain ⟨-, hn⟩ := ha
    cases hsv : r.cpu.saved p with
    | some v =>
      rw [step_swtch_resume hsv, Except.ok.injEq] at hs
      exact hs ▸ h.resume hsv
    | none =>
      rw [step_swtch_start hsv (h.off (by omega)) hn, Except.ok.injEq] at hs
      exact hs ▸ h.start hsv hn

end Inv

theorem inv_of_reachable {r : Run T} (hr : r.Reachable) : Inv r :=
  Machine.Reachable.rec_inv Inv (fun _ h => Inv.init h) (fun _ _ h ⟨_, ha, hs⟩ => h.step ha hs) hr

/-- The CPU entering `scheduler()` for the first time, interrupts off. -/
def boot : Run T := ⟨⟨0, false, false, none, fun _ => none⟩, [], fun _ => none⟩

omit [DecidableEq T] in
theorem boot_init : Init (boot : Run T) := ⟨rfl, rfl, fun _ => rfl, rfl⟩

/-- Interrupts on, the scheduler takes `ptable.lock` and starts process 0, which releases it in
`forkret`; a timer interrupt in process 0 makes it `yield` with interrupts off: it takes
`ptable.lock` and calls `sched`. -/
def yieldTrace : List (Event Nat) := [.sti, .pushcli, .swtch 0, .cli, .pushcli, .sched]

/-- Process 0 takes `ptable.lock` with interrupts on and calls `sched`; the scheduler releases the
lock, takes it again and starts process 1, which takes it in a timer interrupt and calls `sched`;
the scheduler switches back to process 0. -/
def resumeTrace : List (Event Nat) :=
  [.sti, .pushcli, .swtch 0, .pushcli, .sched, .popcli, .pushcli, .swtch 1, .cli, .pushcli, .sched, .swtch 0]

end Run

/-- In every run of one CPU, `ncli` counts the `pushcli`s not yet undone, and interrupts are off
while one is; no call the kernel makes panics; and an outermost `popcli` made by a process sets
`FL_IF` to what that process read before its latest outermost `pushcli`. -/
theorem pushcli_popcli_nesting {T : Type} [DecidableEq T] {r : Run T} (hr : r.Reachable) :
    r.cpu.ncli = r.pushes.length ∧ (0 < r.cpu.ncli → r.cpu.IF = false) ∧
    (∀ e, r.Allowed e → ∃ r', r.step e = .ok r') ∧
    ∀ p, r.cpu.cur = some p → r.cpu.ncli = 1 →
      ∃ r', r.step .popcli = .ok r' ∧ some r'.cpu.IF = r.seen (some p) := by
  have h := Run.inv_of_reachable hr
  refine ⟨h.depth, h.off, fun e ha => h.step_ok ha, fun p hp hn => ?_⟩
  refine ⟨_, Run.step_popcli (h.off (by omega)) (by omega), ?_⟩
  -- at the outermost level `FL_IF` becomes `intena`, the process's own reading
  dsimp only
  rw [if_pos hn]
  exact (h.mine p hp (by omega)).symm

/-- Process 0, after taking `ptable.lock` with interrupts on and before calling `sched`. -/
theorem pushcli_popcli_nesting_holding :
    ∃ r : Run Nat, Machine.run Run.next Run.boot [.sti, .pushcli, .swtch 0, .pushcli] = some r ∧
      (r.cpu.ncli = r.pushes.length ∧ (0 < r.cpu.ncli → r.cpu.IF = false) ∧
      (∀ e, r.Allowed e → ∃ r', r.step e = .ok r') ∧
      ∀ p, r.cpu.cur = some p → r.cpu.ncli = 1 →
        ∃ r', r.step .popcli = .ok r' ∧ some r'.cpu.IF = r.seen (some p)) := by
  have hs : (Machine.run Run.next Run.boot [.sti, .pushcli, .swtch 0, .pushcli]).isSome = true := by decide
  obtain ⟨r, hr⟩ := Option.isSome_iff_exists.1 hs
  have hreach : r.Reachable := Machine.Reachable.of_run
    (fun (s : Run Nat) (e : Event Nat) s' (h : s.next e = some s') => Run.step_of_next h) (.init Run.boot_init) hr
  exact ⟨r, hr, pushcli_popcli_nesting hreach⟩

/-- The thread whose outermost `pushcli` a `popcli` undoes may not find `FL_IF` as it read it,
whichever `pushcli` the `popcli` is taken to match. The scheduler's own: after `yieldTrace` its
release of `ptable.lock` leaves interrupts off, though it took the lock with them on, because
process 0 left its own `intena` on the CPU. The CPU's latest: after `resumeTrace` the `popcli` of
process 0 undoes the `pushcli` process 1 made with interrupts off, and turns them on, because
`sched` gave process 0 its own `intena` back. -/
theorem outermost_popcli_other_thread :
    (∃ r r' : Run Nat, Machine.run Run.next Run.boot Run.yieldTrace = some r ∧ r.cpu.cur = none ∧
      r.cpu.ncli = 1 ∧ r.seen none = some true ∧ r.step .popcli = .ok r' ∧ r'.cpu.IF = false) ∧
    (∃ r r' : Run Nat, Machine.run Run.next Run.boot Run.resumeTrace = some r ∧ r.cpu.ncli = 1 ∧
      r.pushes = [(some 1, false)] ∧ r.step .popcli = .ok r' ∧ r'.cpu.IF = true) := by
  have h1 : (Machine.run Run.next Run.boot Run.yieldTrace).map
      (fun r => (r.cpu.cur, r.cpu.ncli, r.seen none, r.cpu.IF, r.cpu.intena)) =
      some (none, 1, some true, false, false) := by decide
  have h2 : (Machine.run Run.next Run.boot Run.resumeTrace).map
      (fun r => (r.cpu.ncli, r.pushes, r.cpu.IF, r.cpu.intena)) = some (1, [(some 1, false)], false, true) := by
    decide
  constructor
  · cases h : Machine.run Run.next Run.boot Run.yieldTrace with
    | none => simp [h] at h1
    | some r =>
      simp only [h, Option.map_some, Option.some.injEq, Prod.mk.injEq] at h1
      obtain ⟨hc, hn, hseen, hIF, hi⟩ := h1
      refine ⟨r, _, rfl, hc, hn, hseen, Run.step_popcli hIF (by omega), ?_⟩
      dsimp only
      rw [if_pos hn, hi]
  · cases h : Machine.run Run.next Run.boot Run.resumeTrace with
    | none => simp [h] at h2
    | some r =>
      simp only [h, Option.map_some, Option.some.injEq, Prod.mk.injEq] at h2
      obtain ⟨hn, hp, hIF, hi⟩ := h2
      refine ⟨r, _, rfl, hn, hp, Run.step_popcli hIF (by omega), ?_⟩
      dsimp only
      rw [if_pos hn, hi]

end Xv6
