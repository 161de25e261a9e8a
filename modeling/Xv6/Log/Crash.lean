import Mathlib.Data.Finset.Card
import Xv6.Log.Admission

/-!
# Crash safety of the log (`commit`, `install_trans`, `recover_from_log`)

Whatever the interleaving of operations and wherever power fails, inside `commit` or inside a
recovery interrupted by an earlier failure, running `recover_from_log` on the disk left behind
gives every block outside the log region the value it has in `image`: the writes of all
committed groups, in order, over the image mkfs wrote. A group is committed at its first
`write_head`.

The proof is an invariant, `LogInv`, with one part for each phase. Before the commit point the
header is empty and the home blocks hold the committed image; from the commit point until the
header is cleared, the header names the group's blocks, their log copies hold the new image,
and every home block not yet installed holds it too. The second part of the invariant is what
makes recovery idempotent: installing a logged block again writes the value it already has.
Commits only start when no operation is in progress (`outstanding` counts the operations exactly),
so a group is made of whole operations.
-/

namespace Xv6

namespace LogSys

variable {β : Type} {s s' : LogSys β} {start size : Nat}

/-! ### Recovery as a function of the disk -/

section Counted

variable {α : Type}

/-- The partial map `ops` is defined at exactly `n` points. -/
def Counted (ops : Nat → Option α) (n : Nat) : Prop :=
  ∃ S : Finset Nat, (∀ c, ops c ≠ none ↔ c ∈ S) ∧ S.card = n

theorem Counted.add {ops : Nat → Option α} {n c : Nat} (h : Counted ops n) (hc : ops c = none)
    (a : α) : Counted (Function.update ops c (some a)) (n + 1) := by
  obtain ⟨S, hS, rfl⟩ := h
  have hcS : c ∉ S := fun hm => (hS c).2 hm hc
  refine ⟨insert c S, fun c' => ?_, Finset.card_insert_of_notMem hcS⟩
  by_cases e : c' = c
  · subst e; simp
  · simp [hS c', e]

theorem Counted.remove {ops : Nat → Option α} {n c : Nat} (h : Counted ops n) (hc : ops c ≠ none) :
    Counted (Function.update ops c none) (n - 1) := by
  obtain ⟨S, hS, rfl⟩ := h
  refine ⟨S.erase c, fun c' => ?_, Finset.card_erase_of_mem ((hS c).1 hc)⟩
  by_cases e : c' = c
  · subst e; simp
  · simp [hS c', e]

theorem Counted.replace {ops : Nat → Option α} {n c : Nat} (h : Counted ops n) (hc : ops c ≠ none)
    (a : α) : Counted (Function.update ops c (some a)) n := by
  obtain ⟨S, hS, rfl⟩ := h
  refine ⟨S, fun c' => ?_, rfl⟩
  by_cases e : c' = c
  · subst e; simpa using (hS c').1 hc
  · simp [Function.update_of_ne e, hS c']

theorem Counted.eq_none {ops : Nat → Option α} (h : Counted ops 0) (c : Nat) : ops c = none := by
  obtain ⟨S, hS, hcard⟩ := h
  by_contra hc
  simp [Finset.card_eq_zero.1 hcard] at hS
  exact hc (hS c)

end Counted

/-- No operation is in progress. -/
def Idle (s : LogSys β) : Prop := ∀ c, s.ops c = none

/-- Every home block holds the committed image. -/
def HomeIs (s : LogSys β) : Prop := ∀ b, ¬ s.inLog b → s.disk.blk b = s.image b

/-- What the operations read: the committed image overwritten by the current group. -/
def ViewIs (s : LogSys β) : Prop :=
  ∀ b, ¬ s.inLog b → s.view b = Writes.applyWrites s.cur s.image b

/-- The current group's writes and the dirty buffers are all recorded in `lh`. -/
def Pinned (s : LogSys β) : Prop :=
  (∀ w ∈ s.cur, w.1 ∈ s.log.lh) ∧ ∀ b, s.cache b ≠ none → b ∈ s.log.lh

/-- Log slot `i` holds the committed image of `lh[i]`. -/
def Logged (s : LogSys β) : Prop :=
  ∀ i (h : i < s.log.lh.length), s.disk.blk (s.log.start + 1 + i) = s.image s.log.lh[i]

/-- Every home block holds the committed image, except possibly those of `lh.drop t`. -/
def HomeAfter (s : LogSys β) (t : Nat) : Prop :=
  ∀ b, ¬ s.inLog b → b ∉ s.log.lh.drop t → s.disk.blk b = s.image b

/-- The disk and memory in each phase. -/
def PhaseInv (s : LogSys β) : Phase → Prop
  | .running => s.disk.hdr = [] ∧ s.log.committing = false ∧ HomeIs s ∧ ViewIs s ∧ Pinned s
  | .writeLog t =>
    s.disk.hdr = [] ∧ s.log.committing = true ∧ HomeIs s ∧ ViewIs s ∧ Pinned s ∧ Idle s ∧
      t ≤ s.log.lh.length ∧
      ∀ i (h : i < s.log.lh.length), i < t → s.disk.blk (s.log.start + 1 + i) = s.view s.log.lh[i]
  | .install t =>
    s.disk.hdr = s.log.lh ∧ s.log.committing = true ∧ Logged s ∧ HomeAfter s t ∧
      (∀ b, ¬ s.inLog b → s.view b = s.image b) ∧ (∀ b, s.cache b ≠ none → b ∈ s.log.lh.drop t) ∧
      Idle s ∧ s.cur = [] ∧ t ≤ s.log.lh.length
  | .recovering t =>
    s.disk.hdr = s.log.lh ∧ s.log.committing = false ∧ Logged s ∧ HomeAfter s t ∧
      (∀ b, s.cache b = none) ∧ Idle s ∧ s.cur = [] ∧ t ≤ s.log.lh.length

/-- The log invariant, for a log at `start` that is `size` blocks long. -/
structure LogInv (start size : Nat) (s : LogSys β) : Prop where
  start_eq : s.log.start = start
  size_eq : s.log.size = size
  lh_nodup : s.log.lh.Nodup
  lh_out : ∀ b ∈ s.log.lh, ¬ s.inLog b
  lh_len : s.log.lh.length ≤ size - 1
  counted : Counted s.ops s.log.outstanding
  phase : PhaseInv s s.phase

/-! ### What the phases have in common -/

theorem image_commit (s : LogSys β) :
    Writes.applyWrites (s.committed ++ [s.cur]).flatten s.img0 = Writes.applyWrites s.cur s.image := by
  simp [image, Writes.applyWrites_append]

theorem HomeAfter.homeIs {t : Nat} (ha : HomeAfter s t) (ht : s.log.lh.length ≤ t) : HomeIs s :=
  fun b hb => ha b hb (by simp [List.drop_eq_nil_of_le ht])

/-- The installs of a commit and of recovery: block `lh[t]` gets its log copy, after which every
home block outside `lh.drop (t + 1)` holds the committed image. -/
theorem HomeAfter.install {t : Nat} (ha : HomeAfter s t) (hl : Logged s) (ht : t < s.log.lh.length) :
    ∀ b, ¬ s.inLog b → b ∉ s.log.lh.drop (t + 1) →
      (s.put s.log.lh[t] (s.disk.blk (s.log.start + 1 + t))).blk b = s.image b := by
  intro b hb hd
  rw [put_blk]
  split
  · rename_i e
    rw [e]
    exact hl t ht
  · rename_i e
    refine ha b hb fun hd' => ?_
    rw [List.drop_eq_getElem_cons ht, List.mem_cons] at hd'
    exact hd'.elim e hd

namespace LogInv

theorem slot_inLog (h : LogInv start size s) {i : Nat} (hi : i < s.log.lh.length) :
    s.inLog (s.log.start + 1 + i) := by
  have := h.lh_len
  rw [← h.size_eq] at this
  constructor <;> omega

theorem lh_ne_slot (h : LogInv start size s) {b : Nat} (hb : b ∈ s.log.lh) {i : Nat}
    (hi : i < s.log.lh.length) : b ≠ s.log.start + 1 + i :=
  fun he => h.lh_out b hb (he ▸ h.slot_inLog hi)

theorem hdr_cases (h : LogInv start size s) : s.disk.hdr = [] ∨ s.disk.hdr = s.log.lh := by
  have hp := h.phase
  cases hph : s.phase <;> rw [hph] at hp
  exacts [.inl hp.1, .inl hp.1, .inr hp.1, .inr hp.1]

theorem hdr_logged (h : LogInv start size s) :
    ∀ i (hi : i < s.disk.hdr.length), s.disk.blk (s.log.start + 1 + i) = s.image s.disk.hdr[i] := by
  have hp := h.phase
  -- before the commit point the header is empty; after it, it is `lh`, whose slots are logged
  have logged : s.disk.hdr = s.log.lh → Logged s →
      ∀ i (hi : i < s.disk.hdr.length), s.disk.blk (s.log.start + 1 + i) = s.image s.disk.hdr[i] := by
    intro he hl i hi
    simp only [he] at hi ⊢
    exact hl i hi
  cases hph : s.phase <;> rw [hph] at hp
  · simp [hp.1]
  · simp [hp.1]
  · exact logged hp.1 hp.2.2.1
  · exact logged hp.1 hp.2.2.1

theorem hdr_home (h : LogInv start size s) :
    ∀ b, ¬ s.inLog b → b ∉ s.disk.hdr → s.disk.blk b = s.image b := by
  have hp := h.phase
  have after : ∀ t, s.disk.hdr = s.log.lh → HomeAfter s t →
      ∀ b, ¬ s.inLog b → b ∉ s.disk.hdr → s.disk.blk b = s.image b :=
    fun t he ha b hb hn => ha b hb fun hd => hn (he ▸ List.mem_of_mem_drop hd)
  cases hph : s.phase <;> rw [hph] at hp
  · exact fun b hb _ => hp.2.2.1 b hb
  · exact fun b hb _ => hp.2.2.1 b hb
  · exact after _ hp.1 hp.2.2.2.1
  · exact after _ hp.1 hp.2.2.2.1

theorem init (hi : Init start size s) : LogInv start size s := by
  obtain ⟨hl, hh, hc, ho, hp, hi0, hcm, hcur⟩ := hi
  have himg : s.image = s.disk.blk := by simp [image, hcm, hi0]
  refine ⟨by simp [hl], by simp [hl], by simp [hl], by simp [hl], by simp [hl],
    ⟨∅, by simp [ho], by simp [hl]⟩, ?_⟩
  rw [hp]
  exact ⟨by simp [hh, hl], by simp [hl], fun i hi => by simp [hl] at hi, fun b _ _ => by rw [himg],
    by simp [hc], fun c => by simp [ho], hcur, by simp⟩

theorem begin (h : LogInv start size s) {c : Nat} (hs : s.next (.begin c) = some s') :
    LogInv start size s' := by
  obtain ⟨hp, hc, -, -, rfl⟩ := next_begin hs
  refine ⟨h.start_eq, h.size_eq, h.lh_nodup, h.lh_out, h.lh_len, h.counted.add hc [], ?_⟩
  have hphase := h.phase
  rw [hp] at hphase ⊢
  exact hphase

theorem write (h : LogInv start size s) {c b : Nat} {v : β} (hs : s.next (.write c b v) = some s') :
    LogInv start size s' := by
  obtain ⟨ws, hp, hw, hb, -, hlen, -, rfl⟩ := next_write hs
  have hphase := h.phase
  rw [hp] at hphase
  obtain ⟨hhdr, hcomm, hhome, hview, hcur, hcache⟩ := hphase
  refine ⟨h.start_eq, h.size_eq, Log.nodup_absorb h.lh_nodup,
    fun b' hb' => (Log.mem_absorb.1 hb').elim (h.lh_out b') (fun e => e ▸ hb),
    (Log.length_absorb).trans (by have := h.size_eq; omega), h.counted.replace (by simp [hw]) _, ?_⟩
  show PhaseInv _ s.phase
  rw [hp]
  refine ⟨hhdr, hcomm, hhome, fun b' hb' => ?_, fun w hw' => ?_, fun b' hb' => ?_⟩
  · -- the new dirty buffer is the group's last write
    show (Function.update s.cache b (some v) b').getD (s.disk.blk b') =
      Writes.applyWrites (s.cur ++ [(b, v)]) s.image b'
    rw [Writes.applyWrites_append, Writes.applyWrites_cons, Writes.applyWrites_nil]
    by_cases e : b' = b
    · subst e; simp
    · rw [Function.update_of_ne e, Function.update_of_ne e]
      exact hview b' hb'
  · rcases List.mem_append.1 hw' with hw' | hw'
    · exact Log.mem_absorb.2 (.inl (hcur w hw'))
    · exact Log.mem_absorb.2 (.inr (List.mem_singleton.1 hw' ▸ rfl))
  · by_cases e : b' = b
    · exact Log.mem_absorb.2 (.inr e)
    · exact Log.mem_absorb.2 (.inl (hcache b' (by simpa [Function.update_of_ne e] using hb')))

theorem finish (h : LogInv start size s) {c : Nat} (hs : s.next (.finish c) = some s') :
    LogInv start size s' := by
  obtain ⟨hp, hc, hcomm, hcase⟩ := next_finish hs
  have hphase := h.phase
  rw [hp] at hphase
  obtain ⟨hhdr, -, hhome, hview, hpin⟩ := hphase
  have hcnt := h.counted.remove hc
  rcases hcase with ⟨h0, -, rfl⟩ | ⟨-, rfl⟩
  · -- the last operation out starts the commit: none is left in progress
    rw [h0] at hcnt
    exact ⟨h.start_eq, h.size_eq, h.lh_nodup, h.lh_out, h.lh_len, hcnt,
      hhdr, rfl, hhome, hview, hpin, hcnt.eq_none, Nat.zero_le _, fun i _ hi => absurd hi (Nat.not_lt_zero i)⟩
  · refine ⟨h.start_eq, h.size_eq, h.lh_nodup, h.lh_out, h.lh_len, hcnt, ?_⟩
    show PhaseInv _ s.phase
    rw [hp]
    exact ⟨hhdr, hcomm, hhome, hview, hpin⟩

theorem logged_install (h : LogInv start size s) (hl : Logged s) {t : Nat} (ht : t < s.log.lh.length)
    (v : β) :
    ∀ i (hi : i < s.log.lh.length), (s.put s.log.lh[t] v).blk (s.log.start + 1 + i) = s.image s.log.lh[i] := by
  intro i hi
  rw [put_blk, if_neg (h.lh_ne_slot (List.getElem_mem ht) hi).symm]
  exact hl i hi

theorem advance (h : LogInv start size s) (hs : s.next .advance = some s') :
    LogInv start size s' := by
  have hphase := h.phase
  rcases next_advance hs with ⟨t, ht, hp, rfl⟩ | ⟨t, ht, hp, rfl⟩ | ⟨t, ht, hp, rfl⟩ |
    ⟨t, ht, hp, rfl⟩ | ⟨t, ht, hp, rfl⟩ | ⟨t, ht, hp, rfl⟩
  · -- `write_log` copies block `lh[t]` to log slot `t`; home blocks are untouched
    rw [hp] at hphase
    obtain ⟨hhdr, hcomm, hhome, hview, hpin, hidle, -, hslots⟩ := hphase
    have hslot := h.slot_inLog ht
    have hhome' : ∀ b, ¬ s.inLog b → (s.put (s.log.start + 1 + t) (s.view s.log.lh[t])).blk b = s.disk.blk b :=
      fun b hb => by rw [put_blk, if_neg fun (e : b = _) => hb (e ▸ hslot)]
    have hview' : ∀ b, ¬ s.inLog b → (s.cache b).getD ((s.put (s.log.start + 1 + t) (s.view s.log.lh[t])).blk b) = s.view b :=
      fun b hb => by rw [hhome' b hb]; rfl
    refine ⟨h.start_eq, h.size_eq, h.lh_nodup, h.lh_out, h.lh_len, h.counted, hhdr, hcomm,
      fun b hb => (hhome' b hb).trans (hhome b hb), fun b hb => (hview' b hb).trans (hview b hb), hpin,
      hidle, ht, fun i hi hit => ?_⟩
    dsimp only at hi hit
    show (s.put (s.log.start + 1 + t) (s.view s.log.lh[t])).blk (s.log.start + 1 + i) =
      (s.cache s.log.lh[i]).getD ((s.put (s.log.start + 1 + t) (s.view s.log.lh[t])).blk s.log.lh[i])
    rw [hview' _ (h.lh_out _ (List.getElem_mem hi)), put_blk]
    split
    · rename_i e
      obtain rfl : i = t := by omega
      rfl
    · exact hslots i hi (by omega)
  · -- `write_head`: the commit point
    rw [hp] at hphase
    obtain ⟨-, hcomm, hhome, hview, hpin, hidle, -, hslots⟩ := hphase
    refine ⟨h.start_eq, h.size_eq, h.lh_nodup, h.lh_out, h.lh_len, h.counted, rfl, hcomm,
      fun i hi => ?_, fun b hb _ => ?_, fun b hb => ?_, fun b hb => by simpa using hpin.2 b hb, hidle, rfl,
      Nat.zero_le _⟩
    · dsimp only at hi
      show _ = Writes.applyWrites (s.committed ++ [s.cur]).flatten s.img0 s.log.lh[i]
      rw [image_commit, hslots i hi (by omega), hview _ (h.lh_out _ (List.getElem_mem hi))]
    · show _ = Writes.applyWrites _ _ _
      rw [image_commit, hhome b hb, Writes.applyWrites_of_not_mem]
      intro w hw e
      exact ‹b ∉ s.log.lh.drop 0› (by simpa [← e] using hpin.1 w hw)
    · show _ = Writes.applyWrites _ _ _
      rw [image_commit]
      exact hview b hb
  · -- `install_trans` copies log slot `t` home
    rw [hp] at hphase
    obtain ⟨hhdr, hcomm, hl, ha, hview, hcache, hidle, hcur, -⟩ := hphase
    refine ⟨h.start_eq, h.size_eq, h.lh_nodup, h.lh_out, h.lh_len, h.counted, hhdr, hcomm,
      h.logged_install hl ht _, ha.install hl ht, fun b hb => ?_, fun b hb => ?_, hidle, hcur, ht⟩
    · show (Function.update s.cache _ none b).getD _ = _
      by_cases e : b = s.log.lh[t]
      · rw [e, Function.update_self, Option.getD_none, put_blk, if_pos rfl]
        exact hl t ht
      · rw [Function.update_of_ne e, put_blk, if_neg e]
        exact hview b hb
    · by_cases e : b = s.log.lh[t]
      · simp [e] at hb
      · have := hcache b (by simpa [Function.update_of_ne e] using hb)
        rw [List.drop_eq_getElem_cons ht, List.mem_cons] at this
        exact this.resolve_left e
  · -- the `write_head` that ends the commit
    rw [hp] at hphase
    obtain ⟨-, -, -, ha, hview, hcache, -, hcur, -⟩ := hphase
    have hdrop : s.log.lh.drop t = [] := List.drop_eq_nil_of_le ht
    refine ⟨h.start_eq, h.size_eq, List.nodup_nil, by simp, by simp, h.counted, rfl, rfl,
      ha.homeIs ht, fun b hb => ?_, by simp [hcur], fun b hb => by simpa [hdrop] using hcache b hb⟩
    rw [hcur, Writes.applyWrites_nil]
    exact hview b hb
  · -- recovery copies log slot `t` home
    rw [hp] at hphase
    obtain ⟨hhdr, hcomm, hl, ha, hcache, hidle, hcur, -⟩ := hphase
    exact ⟨h.start_eq, h.size_eq, h.lh_nodup, h.lh_out, h.lh_len, h.counted, hhdr, hcomm,
      h.logged_install hl ht _, ha.install hl ht, hcache, hidle, hcur, ht⟩
  · -- the `write_head` that ends recovery
    rw [hp] at hphase
    obtain ⟨-, hcomm, -, ha, hcache, -, hcur, -⟩ := hphase
    have hhome := ha.homeIs ht
    refine ⟨h.start_eq, h.size_eq, List.nodup_nil, by simp, by simp, h.counted, rfl, hcomm,
      hhome, fun b hb => ?_, by simp [hcur], fun b hb => absurd (hcache b) hb⟩
    show (s.cache b).getD _ = _
    rw [hcache b, Option.getD_none, hcur, Writes.applyWrites_nil]
    exact hhome b hb

/-- A crash keeps the disk; the header it holds becomes `lh`, and recovery starts. -/
theorem crash (h : LogInv start size s) (hs : s.next .crash = some s') : LogInv start size s' := by
  obtain rfl := next_crash hs
  have hsub : ∀ b ∈ s.disk.hdr, b ∈ s.log.lh := by
    rcases h.hdr_cases with e | e <;> simp [e]
  refine ⟨h.start_eq, h.size_eq, ?_, fun b hb => h.lh_out b (hsub b hb), ?_, ⟨∅, by simp, rfl⟩,
    rfl, rfl, h.hdr_logged, fun b hb hn => h.hdr_home b hb (by simpa using hn), fun _ => rfl,
    fun _ => rfl, rfl, Nat.zero_le _⟩
  · rcases h.hdr_cases with e | e
    · rw [e]; exact List.nodup_nil
    · rw [e]; exact h.lh_nodup
  · rcases h.hdr_cases with e | e
    · rw [e]; exact Nat.zero_le _
    · rw [e]; exact h.lh_len

theorem step (h : LogInv start size s) (hs : Step s s') : LogInv start size s' := by
  obtain ⟨l, hl⟩ := hs
  cases l with
  | begin c => exact h.begin hl
  | write c b v => exact h.write hl
  | finish c => exact h.finish hl
  | advance => exact h.advance hl
  | crash => exact h.crash hl

end LogInv

end LogSys

end Xv6
