import Xv6.Sched

/-!
# The process tree and `wait` (`proc.c`)

Every process but `initproc` that has run and is not yet reaped (`RUNNABLE`, `RUNNING`, `SLEEPING` or
`ZOMBIE`) has a parent that is alive (`RUNNABLE`, `RUNNING` or `SLEEPING`): `fork` makes the running
process the parent, and `exit` hands every child to `initproc`, which never exits, in the same section
in which the exiting process becomes a zombie (`TreeInv`). Pids come from `nextpid` and are never
handed out twice, so a pid that `wait` has returned belongs to no process afterwards (`Gone`) and no
later `wait` returns it.
-/

namespace Xv6

/-- A process that can run, or waits to. -/
def Alive (st : Procstate) : Prop := st = .RUNNABLE ∨ st = .RUNNING ∨ st = .SLEEPING

instance : DecidablePred Alive := fun _ => inferInstanceAs (Decidable (_ ∨ _))

/-- The process tree of a table, and its pids. -/
structure TreeInv (t : Ptable) : Prop where
  init : ∃ ι, t.initproc = some ι ∧ Alive (t.get ι).state ∧ (t.get ι).parent = none
  parent : ∀ i, t.initproc ≠ some i → Alive (t.get i).state ∨ (t.get i).state = .ZOMBIE →
    ∃ j, (t.get i).parent = some j ∧ j ≠ i ∧ Alive (t.get j).state
  pid : ∀ i, (t.get i).state ≠ .UNUSED → 0 < (t.get i).pid ∧ (t.get i).pid < t.nextpid
  pid_inj : ∀ {i j}, (t.get i).state ≠ .UNUSED → (t.get j).state ≠ .UNUSED →
    (t.get i).pid = (t.get j).pid → i = j

theorem Ptable.get_alloc (t : Ptable) {k : Nat} (hk : k < NPROC) (j : Nat) :
    ({ t.modify k (fun q => { q with state := .EMBRYO, pid := t.nextpid }) with
      nextpid := t.nextpid + 1 } : Ptable).get j =
      if k = j then { t.get k with state := .EMBRYO, pid := t.nextpid } else t.get j := by
  rw [Ptable.get_nextpid, t.get_modify hk]

namespace Woken

variable {t t₂ : Ptable} {P : Chan → Prop}

theorem alive_iff (hw : Woken t t₂ P) (j : Nat) : Alive (t₂.get j).state ↔ Alive (t.get j).state := by
  rcases hw.state j with e | ⟨hs, -, hr⟩
  · rw [e]
  · rw [hs, hr]
    exact iff_of_true (Or.inl rfl) (Or.inr (Or.inr rfl))

theorem state_iff (hw : Woken t t₂ P) {st : Procstate} (h1 : st ≠ .SLEEPING) (h2 : st ≠ .RUNNABLE) (j : Nat) :
    (t₂.get j).state = st ↔ (t.get j).state = st := by
  rcases hw.state j with e | ⟨hs, -, hr⟩
  · rw [e]
  · rw [hs, hr]
    exact iff_of_false (fun e => h2 e.symm) fun e => h1 e.symm

end Woken

namespace TreeInv

variable {t : Ptable}

theorem not_alive_unused : ¬ Alive .UNUSED := by decide

/-- The tree reads each slot only through its parent, its pid, and whether it is free, alive or a
zombie. -/
theorem relabel (h : TreeInv t) {t' : Ptable} (hi : t'.initproc = t.initproc) (hn : t'.nextpid = t.nextpid)
    (hpar : ∀ j, (t'.get j).parent = (t.get j).parent) (hpid : ∀ j, (t'.get j).pid = (t.get j).pid)
    (ha : ∀ j, Alive (t'.get j).state ↔ Alive (t.get j).state)
    (hz : ∀ j, (t'.get j).state = .ZOMBIE ↔ (t.get j).state = .ZOMBIE)
    (hu : ∀ j, (t'.get j).state = .UNUSED ↔ (t.get j).state = .UNUSED) : TreeInv t' := by
  obtain ⟨ι, hι, hια, hιp⟩ := h.init
  refine ⟨⟨ι, hi.trans hι, (ha ι).2 hια, (hpar ι).trans hιp⟩, fun i hni hl => ?_, fun i hiu => ?_,
    fun {i j} hiu hju he => ?_⟩
  · rw [hi] at hni
    rw [ha, hz] at hl
    obtain ⟨j, hj, hji, hja⟩ := h.parent i hni hl
    exact ⟨j, (hpar i).trans hj, hji, (ha j).2 hja⟩
  · rw [Ne, hu] at hiu
    rw [hpid, hn]
    exact h.pid i hiu
  · rw [Ne, hu] at hiu hju
    rw [hpid, hpid] at he
    exact h.pid_inj hiu hju he

theorem relabel_modify (h : TreeInv t) {k : Nat} (hk : k < NPROC) (f : Proc → Proc)
    (hpar : (f (t.get k)).parent = (t.get k).parent) (hpid : (f (t.get k)).pid = (t.get k).pid)
    (ha : Alive (f (t.get k)).state ↔ Alive (t.get k).state)
    (hz : (f (t.get k)).state = .ZOMBIE ↔ (t.get k).state = .ZOMBIE)
    (hu : (f (t.get k)).state = .UNUSED ↔ (t.get k).state = .UNUSED) : TreeInv (t.modify k f) := by
  have hget := t.get_modify hk f
  refine h.relabel rfl rfl (fun j => ?_) (fun j => ?_) (fun j => ?_) (fun j => ?_) (fun j => ?_) <;>
    rw [hget] <;> split
  all_goals first
    | next e => subst e; assumption
    | exact Iff.rfl
    | rfl

/-- A slot that is neither alive nor `initproc` is freed: nobody's parent is lost. -/
theorem modify_free (h : TreeInv t) {k : Nat} (hk : k < NPROC) (f : Proc → Proc)
    (ha : ¬ Alive (t.get k).state) (hu : (f (t.get k)).state = .UNUSED) : TreeInv (t.modify k f) := by
  have hget := t.get_modify hk f
  obtain ⟨ι, hι, hια, hιp⟩ := h.init
  have hιk : ι ≠ k := by rintro rfl; exact ha hια
  -- every slot the tree reads, but `k` itself, is as it was
  have hsame : ∀ j, j ≠ k → (t.modify k f).get j = t.get j := fun j hj => by rw [hget, if_neg (Ne.symm hj)]
  have hlive : ∀ i, Alive ((t.modify k f).get i).state ∨ ((t.modify k f).get i).state = .ZOMBIE → i ≠ k := by
    rintro i hl rfl
    rw [hget, if_pos rfl, hu] at hl
    rcases hl with hl | hl
    · exact not_alive_unused hl
    · cases hl
  refine ⟨⟨ι, hι, ?_, ?_⟩, fun i hni hl => ?_, fun i hiu => ?_, fun {i j} hiu hju he => ?_⟩
  · rw [hsame ι hιk]; exact hια
  · rw [hsame ι hιk]; exact hιp
  · have hik := hlive i hl
    rw [hsame i hik] at hl ⊢
    obtain ⟨j, hj, hji, hja⟩ := h.parent i hni hl
    refine ⟨j, hj, hji, ?_⟩
    rw [hsame j (by rintro rfl; exact ha hja)]
    exact hja
  · have hik : i ≠ k := by rintro rfl; rw [hget, if_pos rfl, hu] at hiu; exact hiu rfl
    rw [hsame i hik] at hiu ⊢
    exact h.pid i hiu
  · have hik : i ≠ k := by rintro rfl; rw [hget, if_pos rfl, hu] at hiu; exact hiu rfl
    have hjk : j ≠ k := by rintro rfl; rw [hget, if_pos rfl, hu] at hju; exact hju rfl
    rw [hsame i hik] at hiu he
    rw [hsame j hjk] at hju he
    exact h.pid_inj hiu hju he

/-- `allocproc`'s section: the first free slot becomes `EMBRYO` with a fresh pid. -/
theorem alloc (h : TreeInv t) {k : Nat} (hu : firstUnused t = some k) :
    TreeInv { t.modify k (fun q => { q with state := .EMBRYO, pid := t.nextpid }) with nextpid := t.nextpid + 1 } := by
  have hk : k < NPROC := t.size_eq ▸ findIdx?_lt hu
  have hfree : (t.get k).state = .UNUSED := by
    obtain ⟨hi', hp, -⟩ := List.findIdx?_eq_some_iff_getElem.1 hu
    simp only [decide_eq_true_eq] at hp
    rw [t.get_eq_getElem hi']
    exact hp
  have hget := t.get_alloc hk
  obtain ⟨ι, hι, hια, hιp⟩ := h.init
  have hpos : 0 < t.nextpid := Int.lt_trans (h.pid ι (by rcases hια with e | e | e <;> rw [e] <;> decide)).1
    (h.pid ι (by rcases hια with e | e | e <;> rw [e] <;> decide)).2
  -- only `k` changes, and it was free
  have hsame : ∀ j, j ≠ k → ({ t.modify k (fun q => { q with state := .EMBRYO, pid := t.nextpid }) with
      nextpid := t.nextpid + 1 } : Ptable).get j = t.get j := fun j hj => by rw [hget, if_neg (Ne.symm hj)]
  have hnk : ∀ {j}, Alive (t.get j).state ∨ (t.get j).state = .ZOMBIE → j ≠ k := by
    rintro j hl rfl
    rw [hfree] at hl
    rcases hl with hl | hl
    · exact not_alive_unused hl
    · cases hl
  refine ⟨⟨ι, hι, ?_, ?_⟩, fun i hni hl => ?_, fun i hiu => ?_, fun {i j} hiu hju he => ?_⟩
  · rw [hsame ι (hnk (Or.inl hια))]; exact hια
  · rw [hsame ι (hnk (Or.inl hια))]; exact hιp
  · have hik : i ≠ k := by
      rintro rfl
      rw [hget, if_pos rfl] at hl
      rcases hl with (hl | hl | hl) | hl <;> cases hl
    rw [hsame i hik] at hl ⊢
    obtain ⟨j, hj, hji, hja⟩ := h.parent i hni hl
    exact ⟨j, hj, hji, by rw [hsame j (hnk (Or.inl hja))]; exact hja⟩
  · rw [hget] at hiu ⊢
    split
    · exact ⟨hpos, Int.lt_succ _⟩
    · next hki =>
      rw [if_neg hki] at hiu
      exact ⟨(h.pid i hiu).1, Int.lt_trans (h.pid i hiu).2 (Int.lt_succ _)⟩
  · simp only [hget] at hiu hju he
    by_cases hki : k = i <;> by_cases hkj : k = j
    · exact hki.symm.trans hkj
    · rw [if_pos hki, if_neg hkj] at he
      rw [if_neg hkj] at hju
      exact absurd he (Int.ne_of_gt (h.pid j hju).2)
    · rw [if_neg hki, if_pos hkj] at he
      rw [if_neg hki] at hiu
      exact absurd he (Int.ne_of_lt (h.pid i hiu).2)
    · rw [if_neg hki, if_neg hkj] at he
      rw [if_neg hki] at hiu
      rw [if_neg hkj] at hju
      exact h.pid_inj hiu hju he

/-- `fork`'s last section: the `EMBRYO` slot becomes a `RUNNABLE` child of the running process. -/
theorem adopt (h : TreeInv t) {k p : Nat} (hk : (t.get k).state = .EMBRYO) (hp : (t.get p).state = .RUNNING) :
    TreeInv (t.modify k fun q => { q with parent := some p, state := .RUNNABLE }) := by
  have hkN : k < NPROC := Ptable.lt_of_state_ne (by rw [hk]; decide)
  have hget := t.get_modify hkN fun q => { q with parent := some p, state := .RUNNABLE }
  have hsame : ∀ j, j ≠ k → (t.modify k fun q => { q with parent := some p, state := .RUNNABLE }).get j = t.get j :=
    fun j hj => by rw [hget, if_neg (Ne.symm hj)]
  -- an alive slot is not the embryo
  have hnk : ∀ {j}, Alive (t.get j).state → j ≠ k := by
    rintro j ha rfl
    rw [hk] at ha
    rcases ha with ha | ha | ha <;> cases ha
  have hpk : p ≠ k := hnk (Or.inr (Or.inl hp))
  obtain ⟨ι, hι, hια, hιp⟩ := h.init
  refine ⟨⟨ι, hι, ?_, ?_⟩, fun i hni hl => ?_, fun i hiu => ?_, fun {i j} hiu hju he => ?_⟩
  · rw [hsame ι (hnk hια)]; exact hια
  · rw [hsame ι (hnk hια)]; exact hιp
  · by_cases hik : i = k
    · subst hik
      refine ⟨p, by rw [hget, if_pos rfl], hpk, ?_⟩
      rw [hsame p hpk, hp]
      exact Or.inr (Or.inl rfl)
    · rw [hsame i hik] at hl ⊢
      obtain ⟨j, hj, hji, hja⟩ := h.parent i hni hl
      exact ⟨j, hj, hji, by rw [hsame j (hnk hja)]; exact hja⟩
  · have hiu' : (t.get i).state ≠ .UNUSED := by
      by_cases hik : i = k
      · rw [hik, hk]; decide
      · rwa [hsame i hik] at hiu
    by_cases hik : i = k
    · subst hik
      rw [hget, if_pos rfl]
      exact h.pid i hiu'
    · rw [hsame i hik]
      exact h.pid i hiu'
  · -- pids and whether a slot is in use are as before
    have hpid : ∀ j, ((t.modify k fun q => { q with parent := some p, state := .RUNNABLE }).get j).pid =
        (t.get j).pid := fun j => by
      rw [hget]
      split
      · next e => rw [← e]
      · rfl
    have hu : ∀ j, ((t.modify k fun q => { q with parent := some p, state := .RUNNABLE }).get j).state ≠ .UNUSED →
        (t.get j).state ≠ .UNUSED := fun j hj => by
      by_cases hjk : j = k
      · rw [hjk, hk]; decide
      · rwa [hsame j hjk] at hj
    rw [hpid, hpid] at he
    exact h.pid_inj (hu i hiu) (hu j hju) he

theorem move_alive (h : TreeInv t) {k : Nat} (hk : k < NPROC) (f : Proc → Proc)
    (hpar : (f (t.get k)).parent = (t.get k).parent) (hpid : (f (t.get k)).pid = (t.get k).pid)
    (ha : Alive (t.get k).state) (ha' : Alive (f (t.get k)).state) : TreeInv (t.modify k f) := by
  have hz : ∀ {st : Procstate}, Alive st → st ≠ .ZOMBIE ∧ st ≠ .UNUSED := by
    rintro st (e | e | e) <;> rw [e] <;> exact ⟨by decide, by decide⟩
  exact h.relabel_modify hk f hpar hpid (iff_of_true ha' ha) (iff_of_false (hz ha').1 (hz ha).1)
    (iff_of_false (hz ha').2 (hz ha).2)

/-- `exit`: the caller becomes a zombie and its children pass to `initproc`. -/
theorem exit (h : TreeInv t) {cur : Nat} (hc : (t.get cur).state = .RUNNING) {t' : Ptable}
    (he : Xv6.exit t cur = .ok t') : TreeInv t' := by
  obtain ⟨hni, t₂, hw, hpar, rfl⟩ := Ptable.exit_eq_ok he
  have hcN : cur < NPROC := Ptable.lt_of_state_ne (by rw [hc]; decide)
  have hget := t₂.get_modify hcN fun p => { p with state := .ZOMBIE }
  have hsame : ∀ j, j ≠ cur → (t₂.modify cur fun p => { p with state := .ZOMBIE }).get j = t₂.get j :=
    fun j hj => by rw [hget, if_neg (Ne.symm hj)]
  obtain ⟨ι, hι, hια, hιp⟩ := h.init
  have hιc : ι ≠ cur := by rintro rfl; exact hni hι
  have hια' : Alive (t₂.get ι).state := (hw.alive_iff ι).2 hια
  -- the parent of `cur` is alive, and is not `cur`
  obtain ⟨q, hq, hqc, hqa⟩ := h.parent cur (by rw [hι]; exact fun e => hιc (Option.some.inj e))
    (Or.inl (Or.inr (Or.inl hc)))
  have hpid : ∀ j, ((t₂.modify cur fun p => { p with state := .ZOMBIE }).get j).pid = (t.get j).pid := by
    intro j
    rw [hget]
    split
    · next e => rw [← e]; exact hw.pid cur
    · exact hw.pid j
  have hu : ∀ j, ((t₂.modify cur fun p => { p with state := .ZOMBIE }).get j).state ≠ .UNUSED →
      (t.get j).state ≠ .UNUSED := by
    intro j hj
    by_cases hjc : j = cur
    · rw [hjc, hc]; decide
    · rwa [hsame j hjc, Ne, hw.state_iff (by decide) (by decide)] at hj
  refine ⟨⟨ι, by rw [Ptable.modify_initproc, hw.initproc, hι], by rw [hsame ι hιc]; exact hια', ?_⟩,
    fun i hni' hl => ?_, fun i hiu => ?_, fun {i j} hiu hju he => ?_⟩
  · rw [hsame ι hιc, hpar, hιp]
    rfl
  · rw [Ptable.modify_initproc, hw.initproc] at hni'
    by_cases hic : i = cur
    · subst hic
      refine ⟨q, ?_, hqc, ?_⟩
      · rw [hget, if_pos rfl]
        dsimp only
        rw [hpar, if_neg (by rw [hq]; exact fun e => hqc (Option.some.inj e)), hq]
      · rw [hsame q hqc]
        exact (hw.alive_iff q).2 hqa
    · rw [hsame i hic] at hl ⊢
      rw [hw.alive_iff, hw.state_iff (by decide) (by decide)] at hl
      obtain ⟨j, hj, hji, hja⟩ := h.parent i hni' hl
      by_cases hjc : j = cur
      · -- a child of `cur`, handed to `initproc`
        subst hjc
        refine ⟨ι, by rw [hpar, if_pos hj, hι], fun e => hni' (e ▸ hι), ?_⟩
        rw [hsame ι hιc]
        exact hια'
      · refine ⟨j, by rw [hpar, hj, if_neg fun e => hjc (Option.some.inj e)], hji, ?_⟩
        rw [hsame j hjc]
        exact (hw.alive_iff j).2 hja
  · rw [hpid, Ptable.modify_nextpid, hw.nextpid]
    exact h.pid i (hu i hiu)
  · rw [hpid, hpid] at he
    exact h.pid_inj (hu i hiu) (hu j hju) he

end TreeInv

namespace TreeInv

open Sched

variable {s s' : Sched}

/-- Every critical section keeps the tree; it reads `SchedInv` for who runs and which slot a fork
holds. -/
theorem next (h : TreeInv s.ptable) (hs : SchedInv s) {e : Event} (he : s.next e = some s') :
    TreeInv s'.ptable := by
  cases e with
  | scheduler c k =>
    simp only [Sched.next] at he
    split at he
    · next hc =>
      cases he
      dsimp only
      exact h.move_alive (Ptable.lt_of_state_ne (by rw [hc.2]; decide)) _ rfl rfl (Or.inl hc.2)
        (Or.inr (Or.inl rfl))
    · cases he
  | yield c =>
    obtain ⟨p, hc, rfl⟩ := Option.map_eq_some_iff.1 he
    dsimp only
    exact h.move_alive (hs.cpu_lt hc) _ rfl rfl (Or.inr (Or.inl (hs.cpu_running hc)))
      (Or.inl rfl)
  | sleep c a =>
    obtain ⟨p, hc, rfl⟩ := Option.map_eq_some_iff.1 he
    have hc := (caller_eq_some.1 hc).1
    dsimp only
    exact h.move_alive (hs.cpu_lt hc) _ rfl rfl (Or.inr (Or.inl (hs.cpu_running hc)))
      (Or.inr (Or.inr rfl))
  | wakeup ch =>
    cases he
    have hw := Ptable.woken_wakeup1 s.ptable ch
    exact h.relabel hw.initproc hw.nextpid (Ptable.parent_wakeup1 s.ptable ch) hw.pid hw.alive_iff
      (hw.state_iff (by decide) (by decide)) (hw.state_iff (by decide) (by decide))
  | allocproc c =>
    obtain ⟨p, -, he⟩ := Option.bind_eq_some_iff.1 he
    cases hu : firstUnused s.ptable with
    | none => simp [Xv6.allocproc, hu] at he
    | some i =>
      simp only [Xv6.allocproc, hu, if_true, Option.some.injEq] at he
      subst he
      exact h.alloc hu
  | forkFail c =>
    obtain ⟨p, -, he⟩ := Option.bind_eq_some_iff.1 he
    obtain ⟨i, hi, rfl⟩ := Option.map_eq_some_iff.1 he
    have hemb := hs.np hi
    dsimp only
    exact h.modify_free (Ptable.lt_of_state_ne (by rw [hemb]; decide)) _ (by rw [hemb]; decide) rfl
  | forkDone c =>
    obtain ⟨p, hc, he⟩ := Option.bind_eq_some_iff.1 he
    obtain ⟨i, hi, rfl⟩ := Option.map_eq_some_iff.1 he
    exact h.adopt (hs.np hi) (hs.cpu_running hc)
  | exit c =>
    obtain ⟨p, hc, he⟩ := Option.bind_eq_some_iff.1 he
    obtain ⟨t, ht, rfl⟩ := Option.map_eq_some_iff.1 he
    exact h.exit (hs.cpu_running (caller_eq_some.1 hc).1) (Except.eq_ok_of_toOption ht)
  | wait c =>
    obtain ⟨p, hc, rfl⟩ := Option.map_eq_some_iff.1 he
    have hp := hs.cpu_running (caller_eq_some.1 hc).1
    rcases wait_cases s.ptable p with ⟨i, hi, -, hz, e⟩ | ⟨-, ⟨-, e⟩ | ⟨-, e⟩⟩ <;> simp only [e]
    · -- a zombie child reaped
      exact h.modify_free hi _ (by rw [hz]; decide) rfl
    · exact h
    · exact h.move_alive (hs.cpu_lt (caller_eq_some.1 hc).1) _ rfl rfl (Or.inr (Or.inl hp))
        (Or.inr (Or.inr rfl))
  | kill c pid =>
    obtain ⟨p, -, rfl⟩ := Option.map_eq_some_iff.1 he
    rcases kill_cases s.ptable pid with e | ⟨i, hi, -, e⟩ <;> dsimp only <;> rw [e]
    · exact h
    · -- only a sleeper changes state, and it stays alive
      refine h.relabel_modify hi _ rfl rfl ?_ ?_ ?_ <;> dsimp only <;> split
      all_goals first
        | next hsl => rw [hsl]; decide
        | exact Iff.rfl

end TreeInv

/-! ### The tree in every reachable state -/

theorem treeInv_boot : TreeInv Sched.boot.ptable := by
  have hinit : Sched.boot.ptable.initproc = some 0 := rfl
  -- only slot 0 is in use
  have hused : ∀ i, (Sched.boot.ptable.get i).state ≠ .UNUSED → i = 0 := by
    intro i hi
    rw [Sched.boot_get] at hi
    split at hi
    · assumption
    · exact absurd rfl hi
  refine ⟨⟨0, hinit, ?_, ?_⟩, fun i hni hl => ?_, fun i hiu => ?_, fun {i j} hiu hju _ => ?_⟩
  · rw [Sched.boot_get]
    exact Or.inl rfl
  · rw [Sched.boot_get]
    rfl
  · have hne : (Sched.boot.ptable.get i).state ≠ .UNUSED := by
      rcases hl with (e | e | e) | e <;> rw [e] <;> decide
    obtain rfl := hused i hne
    exact absurd hinit hni
  · obtain rfl := hused i hiu
    rw [Sched.boot_get]
    decide
  · rw [hused i hiu, hused j hju]

theorem Sched.Reachable.treeInv {s : Sched} (h : s.Reachable) : TreeInv s.ptable :=
  Machine.Reachable.rec_inv' (fun s => TreeInv s.ptable) (fun _ e => by rw [e]; exact treeInv_boot)
    (fun _ _ hr ht ⟨_, he⟩ => ht.next (Sched.Reachable.schedInv hr) he) h

/-! ### Pids are never handed out twice -/

/-- Every slot in use after a step was in use before with the same pid, or holds a pid not below
the `nextpid` of before; `nextpid` only grows. -/
structure PidsFrom (t t' : Ptable) : Prop where
  nextpid : t.nextpid ≤ t'.nextpid
  pid : ∀ i, (t'.get i).state ≠ .UNUSED →
    (t.get i).state ≠ .UNUSED ∧ (t'.get i).pid = (t.get i).pid ∨ t.nextpid ≤ (t'.get i).pid

namespace PidsFrom

variable {t t₁ t₂ : Ptable}

theorem trans (h₁ : PidsFrom t t₁) (h₂ : PidsFrom t₁ t₂) : PidsFrom t t₂ := by
  refine ⟨Int.le_trans h₁.nextpid h₂.nextpid, fun i hi => ?_⟩
  rcases h₂.pid i hi with ⟨hi₁, e⟩ | hge
  · rw [e]
    rcases h₁.pid i hi₁ with ⟨hi₀, e'⟩ | hge'
    · exact Or.inl ⟨hi₀, e'⟩
    · exact Or.inr hge'
  · exact Or.inr (Int.le_trans h₁.nextpid hge)

theorem woken {P : Chan → Prop} (hw : Woken t t₁ P) : PidsFrom t t₁ := by
  refine ⟨Int.le_of_eq hw.nextpid.symm, fun i hi => Or.inl ⟨?_, hw.pid i⟩⟩
  rwa [Ne, hw.state_iff (by decide) (by decide)] at hi

theorem modify {k : Nat} (hk : k < NPROC) (f : Proc → Proc)
    (hf : (f (t.get k)).state ≠ .UNUSED → (t.get k).state ≠ .UNUSED ∧ (f (t.get k)).pid = (t.get k).pid) :
    PidsFrom t (t.modify k f) := by
  refine ⟨Int.le_refl _, fun i hi => Or.inl ?_⟩
  rw [t.get_modify hk] at hi ⊢
  split at hi
  · next e =>
    subst e
    rw [if_pos rfl]
    exact hf hi
  · next e =>
    rw [if_neg e]
    exact ⟨hi, rfl⟩

theorem alloc {k : Nat} (hu : firstUnused t = some k) :
    PidsFrom t { t.modify k (fun q => { q with state := .EMBRYO, pid := t.nextpid }) with nextpid := t.nextpid + 1 } := by
  have hk : k < NPROC := t.size_eq ▸ findIdx?_lt hu
  refine ⟨Int.le_add_of_nonneg_right (by decide), fun i hi => ?_⟩
  rw [t.get_alloc hk] at hi ⊢
  split
  · exact Or.inr (Int.le_refl _)
  · next e =>
    rw [if_neg e] at hi
    exact Or.inl ⟨hi, rfl⟩

end PidsFrom

open Sched in
theorem Sched.SchedInv.pidsFrom {s s' : Sched} (hs : SchedInv s) {e : Event} (he : s.next e = some s') :
    PidsFrom s.ptable s'.ptable := by
  cases e with
  | scheduler c k =>
    simp only [Sched.next] at he
    split at he
    · next hc =>
      cases he
      dsimp only
      exact PidsFrom.modify (Ptable.lt_of_state_ne (by rw [hc.2]; decide)) _
        fun _ => ⟨by rw [hc.2]; decide, rfl⟩
    · cases he
  | yield c =>
    obtain ⟨p, hc, rfl⟩ := Option.map_eq_some_iff.1 he
    dsimp only
    exact PidsFrom.modify (hs.cpu_lt hc) _ fun _ => ⟨by rw [hs.cpu_running hc]; decide, rfl⟩
  | sleep c a =>
    obtain ⟨p, hc, rfl⟩ := Option.map_eq_some_iff.1 he
    have hc := (caller_eq_some.1 hc).1
    dsimp only
    exact PidsFrom.modify (hs.cpu_lt hc) _ fun _ => ⟨by rw [hs.cpu_running hc]; decide, rfl⟩
  | wakeup ch =>
    cases he
    exact PidsFrom.woken (Ptable.woken_wakeup1 s.ptable ch)
  | allocproc c =>
    obtain ⟨p, -, he⟩ := Option.bind_eq_some_iff.1 he
    cases hu : firstUnused s.ptable with
    | none => simp [Xv6.allocproc, hu] at he
    | some i =>
      simp only [Xv6.allocproc, hu, if_true, Option.some.injEq] at he
      subst he
      exact PidsFrom.alloc hu
  | forkFail c =>
    obtain ⟨p, -, he⟩ := Option.bind_eq_some_iff.1 he
    obtain ⟨i, hi, rfl⟩ := Option.map_eq_some_iff.1 he
    have hemb := hs.np hi
    dsimp only
    exact PidsFrom.modify (Ptable.lt_of_state_ne (by rw [hemb]; decide)) _ fun hu => absurd rfl hu
  | forkDone c =>
    obtain ⟨p, -, he⟩ := Option.bind_eq_some_iff.1 he
    obtain ⟨i, hi, rfl⟩ := Option.map_eq_some_iff.1 he
    have hemb := hs.np hi
    dsimp only
    exact PidsFrom.modify (Ptable.lt_of_state_ne (by rw [hemb]; decide)) _
      fun _ => ⟨by rw [hemb]; decide, rfl⟩
  | exit c =>
    obtain ⟨p, hc, he⟩ := Option.bind_eq_some_iff.1 he
    obtain ⟨t, ht, rfl⟩ := Option.map_eq_some_iff.1 he
    have hc := (caller_eq_some.1 hc).1
    obtain ⟨-, t₂, hw, -, rfl⟩ := Ptable.exit_eq_ok (Except.eq_ok_of_toOption ht)
    -- waking first, then the caller becomes a zombie
    have hz : (t₂.get p).state = .RUNNING := (hw.running_iff p).2 (hs.cpu_running hc)
    dsimp only
    exact (PidsFrom.woken hw).trans <|
      PidsFrom.modify (hs.cpu_lt hc) _ fun _ => ⟨by rw [hz]; decide, rfl⟩
  | wait c =>
    obtain ⟨p, hc, rfl⟩ := Option.map_eq_some_iff.1 he
    have hc := (caller_eq_some.1 hc).1
    rcases wait_cases s.ptable p with ⟨i, hi, -, -, e⟩ | ⟨-, ⟨-, e⟩ | ⟨-, e⟩⟩ <;> simp only [e]
    · exact PidsFrom.modify hi _ fun hu => absurd rfl hu
    · exact PidsFrom.woken (Woken.refl _ fun _ => False)
    · exact PidsFrom.modify (hs.cpu_lt hc) _ fun _ => ⟨by rw [hs.cpu_running hc]; decide, rfl⟩
  | kill c pid =>
    obtain ⟨p, -, rfl⟩ := Option.map_eq_some_iff.1 he
    rcases kill_cases s.ptable pid with e | ⟨i, hi, -, e⟩ <;> dsimp only <;> rw [e]
    · exact PidsFrom.woken (Woken.refl _ fun _ => False)
    · refine PidsFrom.modify hi _ fun hu => ⟨?_, rfl⟩
      dsimp only at hu
      split at hu
      · next hsl => rw [hsl]; decide
      · exact hu

/-- No slot in use holds pid `r`, and `allocproc` never hands it out again. -/
def Gone (r : Int) (t : Ptable) : Prop := r < t.nextpid ∧ ∀ i, (t.get i).state ≠ .UNUSED → (t.get i).pid ≠ r

theorem Gone.of_pidsFrom {r : Int} {t t' : Ptable} (hg : Gone r t) (hp : PidsFrom t t') : Gone r t' := by
  refine ⟨Int.lt_of_lt_of_le hg.1 hp.nextpid, fun i hi => ?_⟩
  rcases hp.pid i hi with ⟨hi₀, e⟩ | hge
  · rw [e]
    exact hg.2 i hi₀
  · exact Int.ne_of_gt (Int.lt_of_lt_of_le hg.1 hge)

theorem Gone.run {r : Int} {s₀ s : Sched} (h₀ : s₀.Reachable) (hg : Gone r s₀.ptable)
    (h : Machine.Reachable (· = s₀) Sched.Step s) : Gone r s.ptable := by
  induction h with
  | init e => exact e ▸ hg
  | step hr hst ih =>
    obtain ⟨e, he⟩ := hst
    exact ih.of_pidsFrom (Sched.Reachable.schedInv (h₀.trans hr) |>.pidsFrom he)

theorem gone_of_reap {t : Ptable} (h : TreeInv t) {i : Nat} (hi : i < NPROC) (hz : (t.get i).state = .ZOMBIE) :
    Gone (t.get i).pid (t.modify i fun p => { p with pid := 0, parent := none, killed := false, state := .UNUSED }) := by
  have hu : (t.get i).state ≠ .UNUSED := by rw [hz]; decide
  refine ⟨(h.pid i hu).2, fun j hj => ?_⟩
  rw [t.get_modify hi] at hj ⊢
  split at hj
  · exact absurd rfl hj
  · next e =>
    rw [if_neg e]
    exact fun he => e (h.pid_inj hu hj he.symm)

/-! ### What `wait` returns -/

/-- `wait`'s test for children reads every slot. -/
theorem Ptable.parent_ne_of_any {t : Ptable} {cur : Nat}
    (h : (t.proc.any fun q => q.parent = some cur) = false) (i : Nat) : (t.get i).parent ≠ some cur := by
  rw [List.any_eq_false] at h
  by_cases hi : i < t.proc.length
  · rw [t.get_eq_getElem hi]
    simpa using h _ (List.getElem_mem hi)
  · simp [Ptable.get, List.getD_eq_getElem?_getD, List.getElem?_eq_none (Nat.le_of_not_lt hi), Proc.zero]

theorem wait_reaped {t t' : Ptable} {cur : Nat} {r : Int} (hw : wait t cur = (t', some r)) (hr : r ≠ -1) :
    ∃ i, i < NPROC ∧ (t.get i).parent = some cur ∧ (t.get i).state = .ZOMBIE ∧ (t.get i).pid = r ∧
      t' = t.modify i fun p => { p with pid := 0, parent := none, killed := false, state := .UNUSED } := by
  rcases wait_cases t cur with ⟨i, hi, hp, hz, e⟩ | ⟨-, ⟨-, e⟩ | ⟨-, e⟩⟩ <;> rw [e, Prod.mk.injEq] at hw
  · exact ⟨i, hi, hp, hz, Option.some.inj hw.2, hw.1.symm⟩
  · exact absurd (Option.some.inj hw.2).symm hr
  · cases hw.2

theorem proc_tree_invariant {s : Sched} (h : s.Reachable) :
    (∀ i, s.ptable.initproc ≠ some i →
      Alive (s.ptable.get i).state ∨ (s.ptable.get i).state = .ZOMBIE →
      ∃ j, (s.ptable.get i).parent = some j ∧ Alive (s.ptable.get j).state) ∧
    (∀ p t r, wait s.ptable p = (t, some r) →
      (r ≠ -1 → ∃ i, (s.ptable.get i).parent = some p ∧ (s.ptable.get i).state = .ZOMBIE ∧
        (s.ptable.get i).pid = r ∧ (t.get i).state = .UNUSED) ∧
      (r = -1 → (∀ i, (s.ptable.get i).parent ≠ some p) ∨ (s.ptable.get p).killed = true)) ∧
    (∀ c p t r, s.caller c = some p → wait s.ptable p = (t, some r) → r ≠ -1 →
      ∀ s'', Machine.Reachable (· = { s with ptable := t }) Sched.Step s'' →
      ∀ p' t' r', wait s''.ptable p' = (t', some r') → r' ≠ r) := by
  have ht := Sched.Reachable.treeInv h
  refine ⟨fun i hni hl => ?_, fun p t r hw => ⟨fun hr => ?_, fun hr => ?_⟩,
    fun c p t r hc hw hr s'' hs'' p' t' r' hw' => ?_⟩
  · obtain ⟨j, hj, -, hja⟩ := ht.parent i hni hl
    exact ⟨j, hj, hja⟩
  · obtain ⟨i, hi, hp, hz, hpid, rfl⟩ := wait_reaped hw hr
    refine ⟨i, hp, hz, hpid, ?_⟩
    rw [s.ptable.get_modify hi, if_pos rfl]
  · -- a reaped zombie has a positive pid, so -1 comes from the test for children
    subst hr
    rcases wait_cases s.ptable p with ⟨i, -, -, hz, e⟩ | ⟨-, ⟨hk, -⟩ | ⟨-, e⟩⟩
    · rw [e, Prod.mk.injEq] at hw
      have hpos := (ht.pid i (by rw [hz]; decide)).1
      rw [Option.some.inj hw.2] at hpos
      exact absurd hpos (by decide)
    · exact hk.imp Ptable.parent_ne_of_any id
    · rw [e, Prod.mk.injEq] at hw
      cases hw.2
  · -- the reaped pid is gone after the step, and stays gone
    obtain ⟨i, hi, -, hz, rfl, rfl⟩ := wait_reaped hw hr
    have hs' : Sched.Reachable { s with ptable := s.ptable.modify i fun p =>
        { p with pid := 0, parent := none, killed := false, state := .UNUSED } } :=
      h.step ⟨.wait c, by simp only [Sched.next, hc, Option.map_some, hw]⟩
    have hg := Gone.run hs' (gone_of_reap ht hi hz) hs''
    by_cases hr' : r' = -1
    · rw [hr']
      exact Ne.symm hr
    · obtain ⟨i', -, -, hz', rfl, -⟩ := wait_reaped hw' hr'
      exact hg.2 i' (by rw [hz']; decide)

/-- `init` forks a child, which runs on CPU 1 and exits: a zombie whose parent, `init`, runs. -/
theorem proc_tree_invariant_fork_exit :
    ∃ s, Machine.run Sched.next Sched.boot [.scheduler 0 0, .allocproc 0, .forkDone 0, .scheduler 1 1, .exit 1] =
        some s ∧ (s.ptable.get 1).state = .ZOMBIE ∧ (s.ptable.get 1).parent = some 0 ∧
      (∀ i, s.ptable.initproc ≠ some i →
        Alive (s.ptable.get i).state ∨ (s.ptable.get i).state = .ZOMBIE →
        ∃ j, (s.ptable.get i).parent = some j ∧ Alive (s.ptable.get j).state) ∧
      (∀ p t r, wait s.ptable p = (t, some r) →
        (r ≠ -1 → ∃ i, (s.ptable.get i).parent = some p ∧ (s.ptable.get i).state = .ZOMBIE ∧
          (s.ptable.get i).pid = r ∧ (t.get i).state = .UNUSED) ∧
        (r = -1 → (∀ i, (s.ptable.get i).parent ≠ some p) ∨ (s.ptable.get p).killed = true)) ∧
      (∀ c p t r, s.caller c = some p → wait s.ptable p = (t, some r) → r ≠ -1 →
        ∀ s'', Machine.Reachable (· = { s with ptable := t }) Sched.Step s'' →
        ∀ p' t' r', wait s''.ptable p' = (t', some r') → r' ≠ r) := by
  obtain ⟨s, hrun, hz, hp⟩ := Option.exists_of_map_decide
    (o := Machine.run Sched.next Sched.boot [.scheduler 0 0, .allocproc 0, .forkDone 0, .scheduler 1 1, .exit 1])
    (p := fun s : Sched => (s.ptable.get 1).state = .ZOMBIE ∧ (s.ptable.get 1).parent = some 0) (by decide +kernel)
  exact ⟨s, hrun, hz, hp, proc_tree_invariant (Machine.Reachable.of_run (fun _ _ _ h => ⟨_, h⟩) (.init rfl) hrun)⟩

end Xv6
