import Xv6.Proc
import Xv6.Lib.Machine

/-!
# The scheduler (`proc.c`)

Every CPU runs `scheduler()`: it takes `ptable.lock`, switches to a `RUNNABLE` process and gets the
CPU back when that process calls `sched()` from `yield`, `sleep` or `exit`. The lock is handed across
`swtch` both ways, so the states in which it is free are those between critical sections, and each
critical section is one step (`Sched.next`). Where a section goes on past a `swtch` (the scheduler
scanning on after a process gave the CPU back, a process woken in `wait` making its next pass) it is
cut in two at the switch; that only adds interleavings, so what holds in every run of the model holds
in every run of the code.

`fork` holds its new slot `np` between two sections: `allocproc` makes it `EMBRYO`, and `fork` makes
it `RUNNABLE`, or gives it back as `UNUSED` (without the lock) when `kalloc` finds no kernel stack or
`copyuvm` fails.

`SchedInv` is what holds whenever the lock is free: a process is `RUNNING` exactly when it is
`c->proc` of a CPU, and then of one only; a `SLEEPING` process has a channel; the slot a `fork` holds
is `EMBRYO`. Every step moves each slot along an `Edge`.
-/

namespace Xv6

/-- The process table with what every CPU and every `fork` in progress holds. -/
structure Sched where
  ptable : Ptable
  /-- `c->proc` of CPU `c`, `none` while it runs `scheduler()`. -/
  cpu : Nat → Option Nat
  /-- The slot `np` that the `fork` of the process in slot `p` holds. -/
  np : Nat → Option Nat

namespace Sched

/-- A critical section of `ptable.lock`, with the CPU it runs on. -/
inductive Event
  /-- `scheduler()` on CPU `c` switches to slot `i`. -/
  | scheduler (c i : Nat)
  /-- The process on CPU `c` gives it up (`yield`, from the timer interrupt). -/
  | yield (c : Nat)
  /-- The process on CPU `c` calls `sleep(chan, lk)` on the kernel object `a`: every caller but
  `wait` passes the address of one (`&ticks`, `&log`, a buffer, a pipe's counter, a sleep lock). -/
  | sleep (c a : Nat)
  /-- `wakeup(chan)`, from any CPU. -/
  | wakeup (chan : Chan)
  | allocproc (c : Nat)
  /-- `fork` gives its slot back: `kalloc` found no kernel stack, or `copyuvm` failed. -/
  | forkFail (c : Nat)
  /-- `fork`'s last section: the child is made `RUNNABLE`. -/
  | forkDone (c : Nat)
  | exit (c : Nat)
  /-- One pass of `wait`'s loop. -/
  | wait (c : Nat)
  | kill (c : Nat) (pid : Int)

variable (s : Sched)

/-- `myproc()` on CPU `c` when it can make a system call, which is not while it is in `fork`. -/
def caller (c : Nat) : Option Nat := (s.cpu c).filter fun p => (s.np p).isNone

/-- The state after one critical section, `none` when it cannot run or panics. -/
def next : Event → Option Sched
  | .scheduler c i =>
    if s.cpu c = none ∧ (s.ptable.get i).state = .RUNNABLE then
      -- `sleep` clears the channel as soon as `sched` returns, within the same section
      some { s with
        ptable := s.ptable.modify i fun p => { p with state := .RUNNING, chan := .none }
        cpu := Function.update s.cpu c (some i) }
    else none
  | .yield c => (s.cpu c).map fun p =>
    { s with
      ptable := s.ptable.modify p fun q => { q with state := .RUNNABLE }
      cpu := Function.update s.cpu c none }
  | .sleep c a => (s.caller c).map fun p =>
    { s with
      ptable := s.ptable.modify p fun q => { q with chan := .obj a, state := .SLEEPING }
      cpu := Function.update s.cpu c none }
  | .wakeup chan => some { s with ptable := wakeup1 s.ptable chan }
  | .allocproc c => (s.caller c).bind fun p =>
    match allocproc s.ptable true with
    | (t, some i) => some { s with ptable := t, np := Function.update s.np p (some i) }
    | (_, none) => none
  | .forkFail c => (s.cpu c).bind fun p => (s.np p).map fun i =>
    { s with
      ptable := s.ptable.modify i fun q => { q with state := .UNUSED }
      np := Function.update s.np p none }
  | .forkDone c => (s.cpu c).bind fun p => (s.np p).map fun i =>
    { s with
      ptable := s.ptable.modify i fun q => { q with parent := some p, state := .RUNNABLE }
      np := Function.update s.np p none }
  | .exit c => (s.caller c).bind fun p =>
    (exit s.ptable p).toOption.map fun t => { s with ptable := t, cpu := Function.update s.cpu c none }
  | .wait c => (s.caller c).map fun p =>
    match wait s.ptable p with
    | (t, some _) => { s with ptable := t }
    | (t, none) => { s with ptable := t, cpu := Function.update s.cpu c none }
  | .kill c pid => (s.caller c).map fun _ => { s with ptable := (kill s.ptable pid).1 }

/-- The system after `userinit`, before any CPU has scheduled. -/
def boot : Sched := ⟨(userinit Ptable.init).getD Ptable.init, fun _ => none, fun _ => none⟩

def Step (s s' : Sched) : Prop := ∃ e, s.next e = some s'

def Reachable : Sched → Prop := Machine.Reachable (· = boot) Step

/-- The channels a section wakes: `wakeup`'s, and in `exit` the parent's and `initproc`'s. -/
def wakes : Event → Chan → Prop
  | .wakeup chan, ch => ch = chan
  | .exit c, ch => ∃ p, s.cpu c = some p ∧
    (ch = (s.ptable.get p).parent.elim .none Chan.proc ∨ ch = s.ptable.initproc.elim .none Chan.proc)
  | _, _ => False

theorem caller_eq_some {s : Sched} {c p : Nat} : s.caller c = some p ↔ s.cpu c = some p ∧ s.np p = none := by
  unfold caller
  cases s.cpu c with
  | none => simp
  | some q =>
    rw [Option.filter_some]
    constructor
    · intro h
      split at h
      · next hq =>
        cases h
        exact ⟨rfl, Option.isNone_iff_eq_none.1 hq⟩
      · cases h
    · rintro ⟨e, hp⟩
      cases e
      rw [if_pos (Option.isNone_iff_eq_none.2 hp)]

end Sched

/-- The moves of a slot's state. -/
inductive Edge : Procstate → Procstate → Prop
  | alloc : Edge .UNUSED .EMBRYO
  | fork : Edge .EMBRYO .RUNNABLE
  | fail : Edge .EMBRYO .UNUSED
  | run : Edge .RUNNABLE .RUNNING
  | yield : Edge .RUNNING .RUNNABLE
  | sleep : Edge .RUNNING .SLEEPING
  | exit : Edge .RUNNING .ZOMBIE
  | wake : Edge .SLEEPING .RUNNABLE
  | reap : Edge .ZOMBIE .UNUSED

/-! ### What the table operations change -/

namespace Ptable

variable {t : Ptable} {i : Nat}

theorem lt_of_state_ne (h : (t.get i).state ≠ .UNUSED) : i < NPROC := by
  by_contra hi
  apply h
  simp [get, List.getD_eq_getElem?_getD, t.size_eq, Nat.le_of_not_lt hi, Proc.zero]

theorem get_wakeup1 (t : Ptable) (ch : Chan) (i : Nat) :
    (wakeup1 t ch).get i =
      if (t.get i).state = .SLEEPING ∧ (t.get i).chan = ch then { t.get i with state := .RUNNABLE }
      else t.get i := by
  unfold wakeup1 get
  by_cases hi : i < NPROC
  · simp [List.getD_eq_getElem?_getD, t.size_eq, hi]
  · simp [List.getD_eq_getElem?_getD, t.size_eq, Nat.le_of_not_lt hi, Proc.zero]


@[simp] theorem modify_nextpid (t : Ptable) (i : Nat) (f : Proc → Proc) : (t.modify i f).nextpid = t.nextpid :=
  rfl

@[simp] theorem modify_initproc (t : Ptable) (i : Nat) (f : Proc → Proc) :
    (t.modify i f).initproc = t.initproc := rfl

@[simp] theorem wakeup1_nextpid (t : Ptable) (ch : Chan) : (wakeup1 t ch).nextpid = t.nextpid := rfl

@[simp] theorem wakeup1_initproc (t : Ptable) (ch : Chan) : (wakeup1 t ch).initproc = t.initproc := rfl

end Ptable

/-- `t'` is `t` with some of the processes sleeping on a channel in `chans` made `RUNNABLE`, every
slot's channel and pid kept: what `wakeup1`, and the reparenting loop of `exit`, do to states. -/
structure Woken (t t' : Ptable) (chans : Chan → Prop) : Prop where
  state : ∀ i, (t'.get i).state = (t.get i).state ∨
    ((t.get i).state = .SLEEPING ∧ chans (t.get i).chan ∧ (t'.get i).state = .RUNNABLE)
  chan : ∀ i, (t'.get i).chan = (t.get i).chan
  pid : ∀ i, (t'.get i).pid = (t.get i).pid
  nextpid : t'.nextpid = t.nextpid
  initproc : t'.initproc = t.initproc

namespace Woken

variable {t t₁ t₂ : Ptable} {P Q : Chan → Prop}

theorem refl (t : Ptable) (P : Chan → Prop) : Woken t t P :=
  ⟨fun _ => Or.inl rfl, fun _ => rfl, fun _ => rfl, rfl, rfl⟩

theorem trans (h₁ : Woken t t₁ P) (h₂ : Woken t₁ t₂ P) : Woken t t₂ P := by
  refine ⟨fun i => ?_, fun i => (h₂.chan i).trans (h₁.chan i), fun i => (h₂.pid i).trans (h₁.pid i),
    h₂.nextpid.trans h₁.nextpid, h₂.initproc.trans h₁.initproc⟩
  rcases h₁.state i with e₁ | ⟨hs, hc, hr⟩
  · rcases h₂.state i with e₂ | ⟨hs', hc', hr'⟩
    · exact Or.inl (e₂.trans e₁)
    · rw [e₁] at hs'
      rw [h₁.chan i] at hc'
      exact Or.inr ⟨hs', hc', hr'⟩
  · -- woken by the first: the second leaves a `RUNNABLE` process alone
    rcases h₂.state i with e₂ | ⟨hs', -, -⟩
    · exact Or.inr ⟨hs, hc, e₂.trans hr⟩
    · rw [hr] at hs'
      cases hs'

theorem mono (h : Woken t t₁ P) (hPQ : ∀ c, P c → Q c) : Woken t t₁ Q :=
  ⟨fun i => (h.state i).imp_right fun ⟨hs, hc, hr⟩ => ⟨hs, hPQ _ hc, hr⟩, h.chan, h.pid, h.nextpid, h.initproc⟩

theorem state_eq (h : Woken t t₁ P) {i : Nat} (hs : (t.get i).state ≠ .SLEEPING) :
    (t₁.get i).state = (t.get i).state :=
  (h.state i).resolve_right fun ⟨hs', _⟩ => hs hs'

theorem running_iff (h : Woken t t₁ P) (i : Nat) :
    (t₁.get i).state = .RUNNING ↔ (t.get i).state = .RUNNING := by
  rcases h.state i with e | ⟨hs, -, hr⟩
  · rw [e]
  · rw [hs, hr]
    exact iff_of_false (by decide) (by decide)

theorem sleeping (h : Woken t t₁ P) {i : Nat} (hs : (t₁.get i).state = .SLEEPING) :
    (t.get i).state = .SLEEPING ∧ (t₁.get i).chan = (t.get i).chan := by
  refine ⟨?_, h.chan i⟩
  rcases h.state i with e | ⟨-, -, hr⟩
  · rw [← e, hs]
  · rw [hr] at hs
    cases hs

end Woken

namespace Ptable

variable {t : Ptable} {i : Nat}

theorem woken_wakeup1 (t : Ptable) (ch : Chan) : Woken t (wakeup1 t ch) (· = ch) := by
  refine ⟨fun i => ?_, fun i => ?_, fun i => ?_, rfl, rfl⟩ <;> rw [get_wakeup1] <;> split
  · next h => exact Or.inr ⟨h.1, h.2, rfl⟩
  · exact Or.inl rfl
  all_goals rfl

theorem woken_modify (t : Ptable) (i : Nat) (f : Proc → Proc) (hs : (f (t.get i)).state = (t.get i).state)
    (hc : (f (t.get i)).chan = (t.get i).chan) (hp : (f (t.get i)).pid = (t.get i).pid) (P : Chan → Prop) :
    Woken t (t.modify i f) P := by
  by_cases hi : i < NPROC
  · refine ⟨fun j => Or.inl ?_, fun j => ?_, fun j => ?_, rfl, rfl⟩ <;> rw [t.get_modify hi] <;>
      split <;> simp_all
  · -- out of range `List.set` changes nothing
    have e : t.modify i f = t := by
      cases t
      simp only [modify, set, Ptable.mk.injEq, and_true]
      exact List.set_eq_of_length_le (by omega)
    rw [e]
    exact Woken.refl t P

@[simp] theorem parent_wakeup1 (t : Ptable) (ch : Chan) (i : Nat) :
    ((wakeup1 t ch).get i).parent = (t.get i).parent := by
  rw [get_wakeup1]
  split <;> rfl

/-- A pass of `exit`'s reparenting loop, at slot `i`. -/
def reparentPass (cur : Nat) (init : Option Nat) (t : Ptable) (i : Nat) : Ptable :=
  if (t.get i).parent = some cur then
    let t := t.modify i fun p => { p with parent := init }
    if (t.get i).state = .ZOMBIE then wakeup1 t (init.elim .none Chan.proc) else t
  else t

theorem reparent_eq (t : Ptable) (cur : Nat) (init : Option Nat) :
    reparent t cur init = (List.range NPROC).foldl (reparentPass cur init) t := rfl

theorem woken_reparentPass (t : Ptable) (cur : Nat) (init : Option Nat) (k : Nat) :
    Woken t (reparentPass cur init t k) (· = init.elim .none Chan.proc) := by
  unfold reparentPass
  split
  · have hm := t.woken_modify k (fun p => { p with parent := init }) rfl rfl rfl
      (· = init.elim .none Chan.proc)
    dsimp only
    split
    · exact hm.trans (woken_wakeup1 _ _)
    · exact hm
  · exact Woken.refl t _

theorem parent_reparentPass (t : Ptable) (cur : Nat) (init : Option Nat) {k : Nat} (hk : k < NPROC)
    (i : Nat) : ((reparentPass cur init t k).get i).parent =
      if i = k ∧ (t.get i).parent = some cur then init else (t.get i).parent := by
  have hmod : ((t.modify k fun p => { p with parent := init }).get i).parent =
      if k = i then init else (t.get i).parent := by
    rw [t.get_modify hk]
    split <;> rfl
  unfold reparentPass
  by_cases hc : (t.get k).parent = some cur
  · rw [if_pos hc]
    dsimp only
    have hp : ((if ((t.modify k fun p => { p with parent := init }).get k).state = .ZOMBIE then
        wakeup1 (t.modify k fun p => { p with parent := init }) (init.elim .none Chan.proc)
        else t.modify k fun p => { p with parent := init }).get i).parent =
        if k = i then init else (t.get i).parent := by
      split
      · rw [parent_wakeup1, hmod]
      · exact hmod
    rw [hp]
    by_cases hik : i = k
    · subst hik
      simp [hc]
    · simp [hik, Ne.symm hik]
  · rw [if_neg hc]
    by_cases hik : i = k
    · subst hik
      simp [hc]
    · simp [hik]

/-- What the reparenting loop of `exit` does to each slot: every child of `cur` gets `init` for
its parent, and the processes sleeping on `init` may be woken. -/
theorem reparent_spec (t : Ptable) (cur : Nat) (init : Option Nat) :
    Woken t (reparent t cur init) (· = init.elim .none Chan.proc) ∧
      ∀ i, ((reparent t cur init).get i).parent =
        if (t.get i).parent = some cur then init else (t.get i).parent := by
  -- the loop over the slots, carrying the slots already done
  have hloop : ∀ (ks : List Nat) (t : Ptable), ks.Nodup → (∀ k ∈ ks, k < NPROC) →
      Woken t (ks.foldl (reparentPass cur init) t) (· = init.elim .none Chan.proc) ∧
      ∀ i, ((ks.foldl (reparentPass cur init) t).get i).parent =
        if i ∈ ks ∧ (t.get i).parent = some cur then init else (t.get i).parent := by
    intro ks
    induction ks with
    | nil => exact fun t _ _ => ⟨Woken.refl t _, fun i => by simp⟩
    | cons k ks ih =>
      intro t hnd hlt
      obtain ⟨hk, hnd⟩ := List.nodup_cons.1 hnd
      obtain ⟨hw, hp⟩ := ih (reparentPass cur init t k) hnd fun k hk => hlt k (List.mem_cons_of_mem _ hk)
      refine ⟨(woken_reparentPass t cur init k).trans hw, fun i => ?_⟩
      rw [List.foldl_cons, hp i, parent_reparentPass t cur init (hlt k List.mem_cons_self) i]
      by_cases hik : i = k
      · subst hik
        simp [hk]
      · simp [hik]
  rw [reparent_eq]
  have h := hloop _ t List.nodup_range fun k hk => List.mem_range.1 hk
  refine ⟨h.1, fun i => ?_⟩
  rw [h.2 i]
  by_cases hi : i < NPROC
  · simp [hi]
  · -- past the table every slot reads as zeroed, with no parent
    have hz : (t.get i).parent = none := by
      simp [get, List.getD_eq_getElem?_getD, t.size_eq, Nat.le_of_not_lt hi, Proc.zero]
    simp [hz]

/-- What `exit` leaves: `cur` a zombie, its children handed to `initproc`, and nothing else changed
but processes sleeping on the parent or on `initproc` woken. -/
theorem exit_eq_ok {t t' : Ptable} {cur : Nat} (h : exit t cur = .ok t') :
    t.initproc ≠ some cur ∧ ∃ t₂, Woken t t₂ (fun ch => ch = (t.get cur).parent.elim .none Chan.proc ∨
        ch = t.initproc.elim .none Chan.proc) ∧
      (∀ i, (t₂.get i).parent = if (t.get i).parent = some cur then t.initproc else (t.get i).parent) ∧
      t' = t₂.modify cur fun p => { p with state := .ZOMBIE } := by
  unfold exit at h
  split at h
  · cases h
  · rename_i hi
    refine ⟨hi, _, ?_, fun i => ?_, (Except.ok.inj h).symm⟩
    · have hr := (reparent_spec (wakeup1 t ((t.get cur).parent.elim .none Chan.proc)) cur t.initproc).1
      exact ((woken_wakeup1 t _).mono fun _ e => Or.inl e).trans (hr.mono fun _ e => Or.inr e)
    · rw [(reparent_spec _ cur _).2, parent_wakeup1, wakeup1_initproc]

end Ptable

/-- A pass of `wait` reaps the first zombie child, or returns -1, or puts the caller to sleep on
itself. -/
theorem wait_cases (t : Ptable) (cur : Nat) :
    (∃ i, i < NPROC ∧ (t.get i).parent = some cur ∧ (t.get i).state = .ZOMBIE ∧
      wait t cur = (t.modify i fun p => { p with pid := 0, parent := none, killed := false, state := .UNUSED },
        some (t.get i).pid)) ∨
    (zombieChild t cur = none ∧
      (((t.proc.any fun p => p.parent = some cur) = false ∨ (t.get cur).killed) ∧ wait t cur = (t, some (-1)) ∨
       ¬((t.proc.any fun p => p.parent = some cur) = false ∨ (t.get cur).killed) ∧
        wait t cur = (t.modify cur fun p => { p with chan := .proc cur, state := .SLEEPING }, none))) := by
  unfold wait
  split
  · next i hz =>
    obtain ⟨hi, hp, -⟩ := List.findIdx?_eq_some_iff_getElem.1 hz
    simp only [decide_eq_true_eq] at hp
    rw [← t.get_eq_getElem hi] at hp
    exact Or.inl ⟨i, t.size_eq ▸ hi, hp.1, hp.2, rfl⟩
  · next hz =>
    refine Or.inr ⟨hz, ?_⟩
    split
    · next hk => exact Or.inl ⟨hk, rfl⟩
    · next hk => exact Or.inr ⟨hk, rfl⟩

theorem kill_cases (t : Ptable) (pid : Int) :
    (kill t pid).1 = t ∨ ∃ i, i < NPROC ∧ (t.get i).pid = pid ∧
      (kill t pid).1 = t.modify i fun p =>
        { p with killed := true, state := if p.state = .SLEEPING then .RUNNABLE else p.state } := by
  unfold kill
  split
  · exact Or.inl rfl
  · next i hf =>
    obtain ⟨hi, hp, -⟩ := List.findIdx?_eq_some_iff_getElem.1 hf
    simp only [decide_eq_true_eq] at hp
    rw [← t.get_eq_getElem hi] at hp
    exact Or.inr ⟨i, t.size_eq ▸ hi, hp, rfl⟩

/-! ### The invariant -/

section Cpus

variable {f : Nat → Option Nat} {c p j : Nat}

theorem exists_update_some (hc : f c = none) {i : Nat} (hij : i ≠ j) :
    (∃ c', Function.update f c (some i) c' = some j) ↔ ∃ c', f c' = some j := by
  constructor
  · rintro ⟨c', h'⟩
    by_cases e : c' = c
    · subst e
      rw [Function.update_self, Option.some.injEq] at h'
      exact absurd h' hij
    · exact ⟨c', by rwa [Function.update_of_ne e] at h'⟩
  · rintro ⟨c', h'⟩
    refine ⟨c', ?_⟩
    rwa [Function.update_of_ne (by rintro rfl; rw [hc] at h'; cases h')]

theorem exists_update_none (hc : f c = some p) (hjp : j ≠ p) :
    (∃ c', Function.update f c none c' = some j) ↔ ∃ c', f c' = some j := by
  constructor
  · rintro ⟨c', h'⟩
    by_cases e : c' = c
    · subst e
      rw [Function.update_self] at h'
      cases h'
    · exact ⟨c', by rwa [Function.update_of_ne e] at h'⟩
  · rintro ⟨c', h'⟩
    refine ⟨c', ?_⟩
    rwa [Function.update_of_ne (by rintro rfl; rw [hc, Option.some.injEq] at h'; exact hjp h'.symm)]

end Cpus

namespace Sched

/-- What holds whenever `ptable.lock` is free. -/
structure SchedInv (s : Sched) : Prop where
  running : ∀ i, (s.ptable.get i).state = .RUNNING ↔ ∃ c, s.cpu c = some i
  cpu_inj : ∀ {c c' i}, s.cpu c = some i → s.cpu c' = some i → c = c'
  chan : ∀ i, (s.ptable.get i).state = .SLEEPING → (s.ptable.get i).chan ≠ .none
  np : ∀ {p i}, s.np p = some i → (s.ptable.get i).state = .EMBRYO
  np_inj : ∀ {p q i}, s.np p = some i → s.np q = some i → p = q

namespace SchedInv

variable {s : Sched} {c p : Nat}

theorem cpu_running (h : SchedInv s) (hc : s.cpu c = some p) : (s.ptable.get p).state = .RUNNING :=
  (h.running p).2 ⟨c, hc⟩

theorem cpu_lt (h : SchedInv s) (hc : s.cpu c = some p) : p < NPROC :=
  Ptable.lt_of_state_ne (by rw [h.cpu_running hc]; decide)

theorem frame (h : SchedInv s) {t : Ptable}
    (hrun : ∀ i, (t.get i).state = .RUNNING ↔ (s.ptable.get i).state = .RUNNING)
    (hchan : ∀ i, (t.get i).state = .SLEEPING → (t.get i).chan ≠ .none)
    (hemb : ∀ i, (s.ptable.get i).state = .EMBRYO → (t.get i).state = .EMBRYO) :
    SchedInv { s with ptable := t } :=
  ⟨fun i => (hrun i).trans (h.running i), h.cpu_inj, hchan, fun hp => hemb _ (h.np hp), h.np_inj⟩

/-- The process on CPU `c` stops running and the CPU goes back to `scheduler()`. -/
theorem switchOut (h : SchedInv s) (hc : s.cpu c = some p) {t : Ptable}
    (hrun : ∀ i, (t.get i).state = .RUNNING ↔ (s.ptable.get i).state = .RUNNING ∧ i ≠ p)
    (hchan : ∀ i, (t.get i).state = .SLEEPING → (t.get i).chan ≠ .none)
    (hemb : ∀ i, (s.ptable.get i).state = .EMBRYO → (t.get i).state = .EMBRYO) :
    SchedInv { s with ptable := t, cpu := Function.update s.cpu c none } := by
  refine ⟨fun i => ?_, fun h₁ h₂ => ?_, hchan, fun hp => hemb _ (h.np hp), h.np_inj⟩
  · rw [hrun i]
    by_cases hip : i = p
    · subst hip
      refine iff_of_false (fun h' => h'.2 rfl) ?_
      rintro ⟨c', h'⟩
      dsimp only at h'
      by_cases e : c' = c
      · subst e
        rw [Function.update_self] at h'
        cases h'
      · rw [Function.update_of_ne e] at h'
        exact e (h.cpu_inj h' hc)
    · rw [exists_update_none hc hip, ← h.running i]
      exact and_iff_left hip
  · dsimp only at h₁ h₂
    rename_i c₁ c₂ _
    have n₁ : c₁ ≠ c := by rintro rfl; rw [Function.update_self] at h₁; cases h₁
    have n₂ : c₂ ≠ c := by rintro rfl; rw [Function.update_self] at h₂; cases h₂
    rw [Function.update_of_ne n₁] at h₁
    rw [Function.update_of_ne n₂] at h₂
    exact h.cpu_inj h₁ h₂

theorem frame_modify (h : SchedInv s) {i : Nat} (hi : i < NPROC) (f : Proc → Proc)
    (hr : (f (s.ptable.get i)).state = .RUNNING ↔ (s.ptable.get i).state = .RUNNING)
    (hs : (f (s.ptable.get i)).state = .SLEEPING → (f (s.ptable.get i)).chan ≠ .none)
    (he : (s.ptable.get i).state = .EMBRYO → (f (s.ptable.get i)).state = .EMBRYO) :
    SchedInv { s with ptable := s.ptable.modify i f } := by
  refine h.frame (fun j => ?_) (fun j => ?_) (fun j => ?_) <;> rw [s.ptable.get_modify hi] <;> split
  · next e => subst e; exact hr
  · exact Iff.rfl
  · next e => subst e; exact hs
  · exact h.chan j
  · next e => subst e; exact he
  · exact id

theorem switchOut_modify (h : SchedInv s) (hc : s.cpu c = some p) (f : Proc → Proc)
    (hr : (f (s.ptable.get p)).state ≠ .RUNNING)
    (hs : (f (s.ptable.get p)).state = .SLEEPING → (f (s.ptable.get p)).chan ≠ .none) :
    SchedInv { s with ptable := s.ptable.modify p f, cpu := Function.update s.cpu c none } := by
  have hp := h.cpu_lt hc
  refine h.switchOut hc (fun i => ?_) (fun i => ?_) (fun i hi => ?_) <;> rw [s.ptable.get_modify hp] <;>
    split
  · next e => subst e; exact iff_of_false hr fun h' => h'.2 rfl
  · next e => exact (and_iff_left (Ne.symm e)).symm
  · next e => subst e; exact hs
  · exact h.chan i
  · next e => subst e; rw [h.cpu_running hc] at hi; cases hi
  · exact hi

theorem scheduler (h : SchedInv s) {i : Nat} (hc : s.cpu c = none) (hi : (s.ptable.get i).state = .RUNNABLE) :
    SchedInv { s with
      ptable := s.ptable.modify i fun p => { p with state := .RUNNING, chan := .none }
      cpu := Function.update s.cpu c (some i) } := by
  have hiN : i < NPROC := Ptable.lt_of_state_ne (by rw [hi]; decide)
  have hget := s.ptable.get_modify hiN fun p => { p with state := .RUNNING, chan := .none }
  refine ⟨fun j => ?_, fun {c₁ c₂ k} h₁ h₂ => ?_, fun j => ?_, fun {q k} hq => ?_, h.np_inj⟩
  · rw [hget]
    by_cases hij : i = j
    · subst hij
      exact iff_of_true (by simp) ⟨c, Function.update_self ..⟩
    · rw [if_neg hij, exists_update_some hc hij]
      exact h.running j
  · -- the CPU that took `i` is the only one running it, since `i` was not running
    dsimp only at h₁ h₂
    have hother : ∀ {c'}, c' ≠ c → s.cpu c' = some k → k ≠ i := by
      rintro c' - hk rfl
      rw [h.cpu_running hk] at hi
      cases hi
    by_cases e₁ : c₁ = c <;> by_cases e₂ : c₂ = c
    · rw [e₁, e₂]
    · subst e₁
      rw [Function.update_self, Option.some.injEq] at h₁
      rw [Function.update_of_ne e₂] at h₂
      exact absurd h₁.symm (hother e₂ h₂)
    · subst e₂
      rw [Function.update_self, Option.some.injEq] at h₂
      rw [Function.update_of_ne e₁] at h₁
      exact absurd h₂.symm (hother e₁ h₁)
    · rw [Function.update_of_ne e₁] at h₁
      rw [Function.update_of_ne e₂] at h₂
      exact h.cpu_inj h₁ h₂
  · dsimp only
    rw [hget]
    split
    · simp
    · exact h.chan j
  · dsimp only
    have hk := h.np hq
    rw [hget, if_neg]
    · exact hk
    · rintro rfl
      rw [hi] at hk
      cases hk

theorem wakeup (h : SchedInv s) (ch : Chan) : SchedInv { s with ptable := wakeup1 s.ptable ch } := by
  have hw := Ptable.woken_wakeup1 s.ptable ch
  refine h.frame hw.running_iff (fun i hs => ?_) fun i hi => by rw [hw.state_eq (by rw [hi]; decide), hi]
  obtain ⟨hs', hc⟩ := hw.sleeping hs
  rw [hc]
  exact h.chan i hs'

/-- `allocproc`'s section: the first free slot becomes `EMBRYO`, held by the `fork` of `p`. -/
theorem allocproc (h : SchedInv s) {i : Nat} (hu : firstUnused s.ptable = some i) (p : Nat) :
    SchedInv { s with
      ptable := { s.ptable.modify i (fun q => { q with state := .EMBRYO, pid := s.ptable.nextpid }) with
        nextpid := s.ptable.nextpid + 1 }
      np := Function.update s.np p (some i) } := by
  have hiN : i < NPROC := s.ptable.size_eq ▸ findIdx?_lt hu
  have hfree : (s.ptable.get i).state = .UNUSED := by
    obtain ⟨hi', hp, -⟩ := List.findIdx?_eq_some_iff_getElem.1 hu
    simp only [decide_eq_true_eq] at hp
    rw [s.ptable.get_eq_getElem hi']
    exact hp
  have hget : ∀ j, ({ s.ptable.modify i (fun p => { p with state := .EMBRYO, pid := s.ptable.nextpid }) with
      nextpid := s.ptable.nextpid + 1 } : Ptable).get j =
      if i = j then { s.ptable.get i with state := .EMBRYO, pid := s.ptable.nextpid } else s.ptable.get j :=
    fun j => by rw [Ptable.get_nextpid, s.ptable.get_modify hiN]
  -- no `fork` held the slot, which was free
  have hnot : ∀ {q k}, s.np q = some k → k ≠ i := by
    rintro q k hq rfl
    rw [h.np hq] at hfree
    cases hfree
  refine ⟨fun j => ?_, h.cpu_inj, fun j => ?_, fun {q k} hq => ?_, fun {q₁ q₂ k} h₁ h₂ => ?_⟩
  · rw [hget, ← h.running j]
    split
    · next e => subst e; rw [hfree]; exact iff_of_false (by simp) (by decide)
    · exact Iff.rfl
  · rw [hget]
    split
    · simp
    · exact h.chan j
  · dsimp only at hq ⊢
    rw [hget]
    by_cases e : q = p
    · subst e
      rw [Function.update_self, Option.some.injEq] at hq
      simp [hq]
    · rw [Function.update_of_ne e] at hq
      rw [if_neg (Ne.symm (hnot hq))]
      exact h.np hq
  · dsimp only at h₁ h₂
    by_cases e₁ : q₁ = p <;> by_cases e₂ : q₂ = p
    · rw [e₁, e₂]
    · subst e₁
      rw [Function.update_self, Option.some.injEq] at h₁
      rw [Function.update_of_ne e₂] at h₂
      exact absurd h₁.symm (hnot h₂)
    · subst e₂
      rw [Function.update_self, Option.some.injEq] at h₂
      rw [Function.update_of_ne e₁] at h₁
      exact absurd h₂.symm (hnot h₁)
    · rw [Function.update_of_ne e₁] at h₁
      rw [Function.update_of_ne e₂] at h₂
      exact h.np_inj h₁ h₂

/-- `fork` ends, giving its slot to `f`: made `RUNNABLE` or given back `UNUSED`. -/
theorem forkEnd (h : SchedInv s) {i : Nat} (hp : s.np p = some i) (f : Proc → Proc)
    (hf : (f (s.ptable.get i)).state = .RUNNABLE ∨ (f (s.ptable.get i)).state = .UNUSED) :
    SchedInv { s with ptable := s.ptable.modify i f, np := Function.update s.np p none } := by
  have hemb := h.np hp
  have hiN : i < NPROC := Ptable.lt_of_state_ne (by rw [hemb]; decide)
  have hget := s.ptable.get_modify hiN f
  have hf' : (f (s.ptable.get i)).state ≠ .RUNNING ∧ (f (s.ptable.get i)).state ≠ .SLEEPING := by
    rcases hf with e | e <;> rw [e] <;> exact ⟨by decide, by decide⟩
  -- no other `fork` holds the slot
  have hnot : ∀ {q k}, s.np q = some k → q ≠ p → k ≠ i := by
    rintro q k hq hqp rfl
    exact hqp (h.np_inj hq hp)
  refine ⟨fun j => ?_, h.cpu_inj, fun j => ?_, fun {q k} hq => ?_, fun {q₁ q₂ k} h₁ h₂ => ?_⟩
  · rw [hget, ← h.running j]
    split
    · next e => subst e; rw [hemb]; exact iff_of_false hf'.1 (by decide)
    · exact Iff.rfl
  · rw [hget]
    split
    · next e => subst e; exact fun hs => absurd hs hf'.2
    · exact h.chan j
  · dsimp only at hq ⊢
    have hqp : q ≠ p := by rintro rfl; rw [Function.update_self] at hq; cases hq
    rw [Function.update_of_ne hqp] at hq
    rw [hget, if_neg (Ne.symm (hnot hq hqp))]
    exact h.np hq
  · dsimp only at h₁ h₂
    have n₁ : q₁ ≠ p := by rintro rfl; rw [Function.update_self] at h₁; cases h₁
    have n₂ : q₂ ≠ p := by rintro rfl; rw [Function.update_self] at h₂; cases h₂
    rw [Function.update_of_ne n₁] at h₁
    rw [Function.update_of_ne n₂] at h₂
    exact h.np_inj h₁ h₂

theorem exit (h : SchedInv s) (hc : s.cpu c = some p) {t : Ptable} (he : Xv6.exit s.ptable p = .ok t) :
    SchedInv { s with ptable := t, cpu := Function.update s.cpu c none } := by
  obtain ⟨-, t₂, hw, -, rfl⟩ := Ptable.exit_eq_ok he
  have hp := h.cpu_lt hc
  refine h.switchOut hc (fun i => ?_) (fun i => ?_) (fun i hi => ?_) <;> rw [t₂.get_modify hp] <;> split
  · next e => subst e; exact iff_of_false (by simp) fun h' => h'.2 rfl
  · next e => rw [hw.running_iff]; exact (and_iff_left (Ne.symm e)).symm
  · simp
  · intro hs
    obtain ⟨hs', hch⟩ := hw.sleeping hs
    rw [hch]
    exact h.chan i hs'
  · next e => subst e; rw [h.cpu_running hc] at hi; cases hi
  · rw [hw.state_eq (by rw [hi]; decide), hi]

theorem kill (h : SchedInv s) (pid : Int) : SchedInv { s with ptable := (Xv6.kill s.ptable pid).1 } := by
  rcases kill_cases s.ptable pid with e | ⟨i, hi, -, e⟩ <;> rw [e]
  · exact h
  · refine h.frame_modify hi _ ?_ ?_ ?_ <;> dsimp only <;> split
    · next hs => rw [hs]; exact iff_of_false (by decide) (by decide)
    · exact Iff.rfl
    · exact fun e => absurd e (by decide)
    · next hs => exact fun e => absurd e hs
    · next hs => exact fun e => absurd (e.symm.trans hs) (by decide)
    · exact id

theorem wait (h : SchedInv s) (hc : s.cpu c = some p) {t : Ptable} {r : Option Int}
    (hw : Xv6.wait s.ptable p = (t, r)) :
    SchedInv (if r.isSome then { s with ptable := t } else { s with ptable := t, cpu := Function.update s.cpu c none }) := by
  rcases wait_cases s.ptable p with ⟨i, hi, -, hz, e⟩ | ⟨-, ⟨-, e⟩ | ⟨-, e⟩⟩ <;> rw [e, Prod.mk.injEq] at hw <;>
    obtain ⟨rfl, rfl⟩ := hw
  · -- a zombie child reaped
    refine h.frame_modify hi _ ?_ (fun e => absurd e (by simp)) fun e => absurd (hz.symm.trans e) (by decide)
    rw [hz]
    exact iff_of_false (by simp) (by decide)
  · exact h
  · exact h.switchOut_modify hc _ (by simp) fun _ => by simp

theorem next (h : SchedInv s) {e : Event} {s' : Sched} (he : s.next e = some s') : SchedInv s' := by
  cases e with
  | scheduler c i =>
    simp only [Sched.next] at he
    split at he
    · next hc => cases he; exact h.scheduler hc.1 hc.2
    · cases he
  | yield c =>
    obtain ⟨p, hc, rfl⟩ := Option.map_eq_some_iff.1 he
    exact h.switchOut_modify hc _ (by simp) (by simp)
  | sleep c a =>
    obtain ⟨p, hc, rfl⟩ := Option.map_eq_some_iff.1 he
    exact h.switchOut_modify (caller_eq_some.1 hc).1 _ (by simp) (by simp)
  | wakeup ch =>
    cases he
    exact h.wakeup ch
  | allocproc c =>
    obtain ⟨p, -, he⟩ := Option.bind_eq_some_iff.1 he
    cases hu : firstUnused s.ptable with
    | none => simp [Xv6.allocproc, hu] at he
    | some i =>
      simp only [Xv6.allocproc, hu, if_true, Option.some.injEq] at he
      subst he
      exact h.allocproc hu p
  | forkFail c =>
    obtain ⟨p, -, he⟩ := Option.bind_eq_some_iff.1 he
    obtain ⟨i, hi, rfl⟩ := Option.map_eq_some_iff.1 he
    exact h.forkEnd hi _ (Or.inr rfl)
  | forkDone c =>
    obtain ⟨p, -, he⟩ := Option.bind_eq_some_iff.1 he
    obtain ⟨i, hi, rfl⟩ := Option.map_eq_some_iff.1 he
    exact h.forkEnd hi _ (Or.inl rfl)
  | exit c =>
    obtain ⟨p, hc, he⟩ := Option.bind_eq_some_iff.1 he
    obtain ⟨t, ht, rfl⟩ := Option.map_eq_some_iff.1 he
    exact h.exit (caller_eq_some.1 hc).1 (Except.eq_ok_of_toOption ht)
  | wait c =>
    obtain ⟨p, hc, rfl⟩ := Option.map_eq_some_iff.1 he
    rcases hw : Xv6.wait s.ptable p with ⟨t, r⟩
    have h' := h.wait (caller_eq_some.1 hc).1 hw
    cases r <;> simpa using h'
  | kill c pid =>
    obtain ⟨p, -, rfl⟩ := Option.map_eq_some_iff.1 he
    exact h.kill pid

end SchedInv

theorem boot_get (i : Nat) : boot.ptable.get i = if i = 0 then ⟨.RUNNABLE, 1, none, false, .none⟩ else Proc.zero := by
  have e : boot.ptable.get i = (Ptable.init.set 0 ⟨.RUNNABLE, 1, none, false, .none⟩).get i := rfl
  rw [e, Ptable.get_set _ (by decide)]
  split
  · next e => rw [if_pos e.symm]
  · next e =>
    rw [if_neg (Ne.symm e)]
    simp only [Ptable.init, Ptable.get, List.getD_eq_getElem?_getD, List.getElem?_replicate]
    split <;> rfl

theorem schedInv_boot : SchedInv boot := by
  refine ⟨fun i => ?_, fun h₁ _ => absurd h₁ (by simp [boot]), fun i => ?_, fun hp => absurd hp (by simp [boot]),
    fun hp => absurd hp (by simp [boot])⟩ <;> rw [boot_get] <;> split
  · exact iff_of_false (by simp) fun ⟨_, h⟩ => absurd h (by simp [boot])
  · exact iff_of_false (by simp [Proc.zero]) fun ⟨_, h⟩ => absurd h (by simp [boot])
  · simp
  · simp [Proc.zero]

theorem Reachable.schedInv {s : Sched} (h : s.Reachable) : SchedInv s :=
  Machine.Reachable.rec_inv SchedInv (fun _ e => by rw [e]; exact schedInv_boot) (fun _ _ hs ⟨_, he⟩ => hs.next he) h

/-! ### How each slot moves -/

/-- Slot `i` keeps its state over the step `e` from `s` to `s'`, or moves along an `Edge`; a
sleeper moves only when `e` wakes its channel or kills it. -/
def Moves (s : Sched) (e : Event) (s' : Sched) (i : Nat) : Prop :=
  (s'.ptable.get i).state = (s.ptable.get i).state ∨
    Edge (s.ptable.get i).state (s'.ptable.get i).state ∧
      ((s.ptable.get i).state = .SLEEPING →
        s.wakes e (s.ptable.get i).chan ∨ ∃ c, e = .kill c (s.ptable.get i).pid)

section Moves

variable {s s' : Sched} {e : Event}

theorem moves_modify {k : Nat} (hk : k < NPROC) {f : Proc → Proc}
    (ht : ∀ j, s'.ptable.get j = (s.ptable.modify k f).get j)
    (he : Edge (s.ptable.get k).state (f (s.ptable.get k)).state) (hs : (s.ptable.get k).state ≠ .SLEEPING)
    (i : Nat) : Moves s e s' i := by
  rw [Moves, ht, s.ptable.get_modify hk]
  split
  · next e' => subst e'; exact Or.inr ⟨he, fun h' => absurd h' hs⟩
  · exact Or.inl rfl

theorem moves_woken {t : Ptable} {P : Chan → Prop} (hw : Woken s.ptable t P) (hP : ∀ ch, P ch → s.wakes e ch)
    (ht : s'.ptable = t) (i : Nat) : Moves s e s' i := by
  rw [Moves, ht]
  exact (hw.state i).imp_right fun ⟨hs, hc, hr⟩ => ⟨by rw [hs, hr]; exact .wake, fun _ => Or.inl (hP _ hc)⟩

end Moves

theorem SchedInv.moves {s s' : Sched} (h : SchedInv s) {e : Event} (he : s.next e = some s') (i : Nat) :
    Moves s e s' i := by
  cases e with
  | scheduler c k =>
    simp only [Sched.next] at he
    split at he
    · next hc =>
      cases he
      refine moves_modify (Ptable.lt_of_state_ne (by rw [hc.2]; decide)) (fun _ => rfl) ?_ (by rw [hc.2]; decide) i
      rw [hc.2]
      exact .run
    · cases he
  | yield c =>
    obtain ⟨p, hc, rfl⟩ := Option.map_eq_some_iff.1 he
    refine moves_modify (h.cpu_lt hc) (fun _ => rfl) ?_ (by rw [h.cpu_running hc]; decide) i
    rw [h.cpu_running hc]
    exact .yield
  | sleep c a =>
    obtain ⟨p, hc, rfl⟩ := Option.map_eq_some_iff.1 he
    have hc := (caller_eq_some.1 hc).1
    refine moves_modify (h.cpu_lt hc) (fun _ => rfl) ?_ (by rw [h.cpu_running hc]; decide) i
    rw [h.cpu_running hc]
    exact .sleep
  | wakeup ch =>
    cases he
    refine moves_woken (Ptable.woken_wakeup1 s.ptable ch) (fun _ e => ?_) rfl i
    exact e
  | allocproc c =>
    obtain ⟨p, -, he⟩ := Option.bind_eq_some_iff.1 he
    cases hu : firstUnused s.ptable with
    | none => simp [Xv6.allocproc, hu] at he
    | some k =>
      simp only [Xv6.allocproc, hu, if_true, Option.some.injEq] at he
      subst he
      have hfree : (s.ptable.get k).state = .UNUSED := by
        obtain ⟨hi', hp, -⟩ := List.findIdx?_eq_some_iff_getElem.1 hu
        simp only [decide_eq_true_eq] at hp
        rw [s.ptable.get_eq_getElem hi']
        exact hp
      refine moves_modify (s.ptable.size_eq ▸ findIdx?_lt hu)
        (f := fun q => { q with state := .EMBRYO, pid := s.ptable.nextpid }) (fun _ => rfl) ?_
        (by rw [hfree]; decide) i
      rw [hfree]
      exact .alloc
  | forkFail c =>
    obtain ⟨p, -, he⟩ := Option.bind_eq_some_iff.1 he
    obtain ⟨k, hk, rfl⟩ := Option.map_eq_some_iff.1 he
    refine moves_modify (Ptable.lt_of_state_ne (by rw [h.np hk]; decide)) (fun _ => rfl) ?_ (by rw [h.np hk]; decide) i
    rw [h.np hk]
    exact .fail
  | forkDone c =>
    obtain ⟨p, -, he⟩ := Option.bind_eq_some_iff.1 he
    obtain ⟨k, hk, rfl⟩ := Option.map_eq_some_iff.1 he
    refine moves_modify (Ptable.lt_of_state_ne (by rw [h.np hk]; decide)) (fun _ => rfl) ?_ (by rw [h.np hk]; decide) i
    rw [h.np hk]
    exact .fork
  | exit c =>
    obtain ⟨p, hc, he⟩ := Option.bind_eq_some_iff.1 he
    obtain ⟨t, ht, rfl⟩ := Option.map_eq_some_iff.1 he
    have hc := (caller_eq_some.1 hc).1
    obtain ⟨-, t₂, hw, -, rfl⟩ := Ptable.exit_eq_ok (Except.eq_ok_of_toOption ht)
    rw [Moves]
    dsimp only
    rw [t₂.get_modify (h.cpu_lt hc)]
    split
    · next e' =>
      subst e'
      rw [h.cpu_running hc]
      exact Or.inr ⟨.exit, fun h' => absurd h' (by decide)⟩
    · refine (hw.state i).imp_right ?_
      rintro ⟨hs, hch, hr⟩
      exact ⟨by rw [hs, hr]; exact .wake, fun _ => Or.inl ⟨p, hc, hch⟩⟩
  | wait c =>
    obtain ⟨p, hc, rfl⟩ := Option.map_eq_some_iff.1 he
    have hc := (caller_eq_some.1 hc).1
    rcases wait_cases s.ptable p with ⟨k, hk, -, hz, e⟩ | ⟨-, ⟨-, e⟩ | ⟨-, e⟩⟩ <;> simp only [e]
    · refine moves_modify hk (fun _ => rfl) ?_ (by rw [hz]; decide) i
      rw [hz]
      exact .reap
    · exact Or.inl rfl
    · refine moves_modify (h.cpu_lt hc) (fun _ => rfl) ?_ (by rw [h.cpu_running hc]; decide) i
      rw [h.cpu_running hc]
      exact .sleep
  | kill c pid =>
    obtain ⟨p, -, rfl⟩ := Option.map_eq_some_iff.1 he
    rcases kill_cases s.ptable pid with e | ⟨k, hk, hpid, e⟩
    · exact Or.inl (by simp only [e])
    · rw [Moves]
      dsimp only
      rw [e, s.ptable.get_modify hk]
      split
      · next e' =>
        subst e'
        dsimp only
        split
        · next hs => exact Or.inr ⟨by rw [hs]; exact .wake, fun _ => Or.inr ⟨c, by rw [hpid]⟩⟩
        · exact Or.inl rfl
      · exact Or.inl rfl

/-- Whenever `ptable.lock` is free, a process is `RUNNING` exactly when it is `c->proc` of a CPU,
and then of one CPU only, and a `SLEEPING` process has a channel. Every section moves each slot
along an `Edge`, a sleeper only on a wakeup of its channel or a `kill` of its pid. -/
theorem sched_invariant {s : Sched} (h : s.Reachable) :
    (∀ i, (s.ptable.get i).state = .RUNNING ↔ ∃ c, s.cpu c = some i) ∧
    (∀ c c' i, s.cpu c = some i → s.cpu c' = some i → c = c') ∧
    (∀ i, (s.ptable.get i).state = .SLEEPING → (s.ptable.get i).chan ≠ .none) ∧
    ∀ e s', s.next e = some s' → ∀ i, Moves s e s' i := by
  have hi := h.schedInv
  exact ⟨hi.running, fun _ _ _ => hi.cpu_inj, hi.chan, fun _ _ he => hi.moves he⟩

/-- `init` forks a child, which runs on CPU 1 and sleeps. -/
theorem sched_invariant_fork_sleep :
    ∃ s, Machine.run next boot [.scheduler 0 0, .allocproc 0, .forkDone 0, .scheduler 1 1, .sleep 1 7] = some s ∧
      (s.ptable.get 1).state = .SLEEPING ∧ s.cpu 0 = some 0 ∧
      (∀ i, (s.ptable.get i).state = .RUNNING ↔ ∃ c, s.cpu c = some i) ∧
      (∀ c c' i, s.cpu c = some i → s.cpu c' = some i → c = c') ∧
      (∀ i, (s.ptable.get i).state = .SLEEPING → (s.ptable.get i).chan ≠ .none) ∧
      ∀ e s', s.next e = some s' → ∀ i, Moves s e s' i := by
  obtain ⟨s, hrun, hsl, hcpu⟩ := Option.exists_of_map_decide
    (o := Machine.run next boot [.scheduler 0 0, .allocproc 0, .forkDone 0, .scheduler 1 1, .sleep 1 7])
    (p := fun s : Sched => (s.ptable.get 1).state = .SLEEPING ∧ s.cpu 0 = some 0) (by decide +kernel)
  exact ⟨s, hrun, hsl, hcpu, sched_invariant (Machine.Reachable.of_run (fun _ _ _ h => ⟨_, h⟩) (.init rfl) hrun)⟩

end Sched

end Xv6
