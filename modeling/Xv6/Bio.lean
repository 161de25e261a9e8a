import Xv6.Lib.Dlist
import Xv6.Lib.Except
import Xv6.Lib.Machine
import Xv6.Param

/-!
# The buffer cache (`bio.c`, with `iderw` and `ideintr` from `ide.c`)

`bcache.buf[0..NBUF)` are the nodes `0 .. NBUF - 1` and `bcache.head` is the node `NBUF`; `next`
and `prev` are the pointers of all of them. A step is one critical section, made by any process:
`bget`'s search and `refcnt++` under `bcache.lock`, the `acquiresleep` that follows it, the disk
transfer of `bread` or `bwrite` by the holder of the buffer, the holder's change of the data
followed by `log_write`, and `brelse`. `iderw` queues the buffer and sleeps until `ideintr` has
marked it; its holder keeps the sleep-lock and its reference all that time, so nothing else reads
or changes the buffer, and the transfer is one step.

Block contents are abstract (`β`); the disk holds a value for each device and block number. The
ghost `last` records what a holder of its buffer last wrote to each block, with `log_write` or
`bwrite`, since every holder that changes the data calls one of them. The loops of `bget` follow
the pointers until they are back at the head, for at most `NBUF + 1` passes, which a list of the
`NBUF` buffers never needs more than.
-/

namespace Xv6

/-- `struct buf`: `flags` as `valid` (`B_VALID`) and `dirty` (`B_DIRTY`), the sleep-lock as
`locked`. -/
structure Buf (β : Type) where
  dev : Nat
  blockno : Nat
  valid : Bool
  dirty : Bool
  refcnt : Nat
  locked : Bool
  data : β

/-- `bcache` and the disk. -/
structure Bcache (β : Type) where
  buf : Nat → Buf β
  next : Nat → Nat
  prev : Nat → Nat
  disk : Nat → Nat → β
  /-- Ghost: the value a holder last wrote to each block. -/
  last : Nat → Nat → β

namespace Bcache

variable {β : Type} (c : Bcache β)

def setBuf (k : Nat) (b : Buf β) : Bcache β := { c with buf := Function.update c.buf k b }

/-- Whether buffer `k` holds block `blockno` of `dev`. -/
def holds (dev blockno k : Nat) : Bool := (c.buf k).dev == dev && (c.buf k).blockno == blockno

/-- The loop of `binit()`: the head linked to itself, then each buffer put after it in turn. The
buffers' own pointers are written before they are read. -/
def binitLinks : (Nat → Nat) × (Nat → Nat) :=
  (List.range NBUF).foldl (fun np b => Dlist.pushFront np.1 np.2 NBUF b) (fun _ => NBUF, fun _ => NBUF)

/-- `binit()` over the disk `d`, from the zeroed `bcache`, whose buffers hold `z`. -/
def binit (z : β) (d : Nat → Nat → β) : Bcache β :=
  ⟨fun _ => ⟨0, 0, false, false, 0, false, z⟩, binitLinks.1, binitLinks.2, d, d⟩

/-- `bget(dev, blockno)` under `bcache.lock`: the buffer that holds the block, searched from the
most recently used; otherwise the least recently used buffer with no reference that is not dirty,
recycled for the block. -/
def bget (dev blockno : Nat) : Except String (Nat × Bcache β) :=
  match Dlist.scan c.next NBUF (c.holds dev blockno) (NBUF + 1) (c.next NBUF) with
  | some k => pure (k, c.setBuf k { c.buf k with refcnt := (c.buf k).refcnt + 1 })
  | none =>
    match Dlist.scan c.prev NBUF (fun k => (c.buf k).refcnt == 0 && !(c.buf k).dirty) (NBUF + 1) (c.prev NBUF) with
    | some k => pure (k, c.setBuf k { c.buf k with dev, blockno, valid := false, dirty := false, refcnt := 1 })
    | none => throw "bget: no buffers"

/-- `brelse(b)` by the holder: the lock released, and a buffer nobody else waits for moved to the
front of the list. -/
def brelse (k : Nat) : Bcache β :=
  let c := c.setBuf k { c.buf k with locked := false, refcnt := (c.buf k).refcnt - 1 }
  if (c.buf k).refcnt = 0 then
    let links := Dlist.unlink c.next c.prev k
    let links := Dlist.pushFront links.1 links.2 NBUF k
    { c with next := links.1, prev := links.2 }
  else c

/-- One critical section of the buffer cache. -/
inductive Label (β : Type)
  | bget (dev blockno : Nat)
  /-- `acquiresleep(&b->lock)` after `bget`. -/
  | acquire (k : Nat)
  /-- `bread`'s `iderw` of a buffer that is not valid: the block read from disk. -/
  | read (k : Nat)
  /-- The holder changes the data to `v` and calls `log_write`, which marks the buffer dirty. -/
  | logWrite (k : Nat) (v : β)
  /-- The holder changes the data to `v` and calls `bwrite`: the block written to disk. -/
  | bwrite (k : Nat) (v : β)
  | brelse (k : Nat)

/-- Whether the lock of buffer `k` is held, as the holder's steps require (`holdingsleep`). -/
def Held (k : Nat) : Prop := k < NBUF ∧ (c.buf k).locked = true

instance (k : Nat) : Decidable (c.Held k) := inferInstanceAs (Decidable (_ ∧ _))

/-- A buffer that `bget` must find for its block: it holds the block's contents (`B_VALID`) or is
referenced. -/
def Busy (k : Nat) : Prop := (c.buf k).valid = true ∨ 0 < (c.buf k).refcnt

/-- The cache after a step; `none` where the step cannot be made: a panic, a lock held by another
process, or a holder's step by a process that does not hold the buffer. -/
def exec : Label β → Option (Bcache β)
  | .bget dev blockno => (c.bget dev blockno).toOption.map Prod.snd
  | .acquire k =>
    if k < NBUF ∧ (c.buf k).locked = false ∧ 0 < (c.buf k).refcnt then some (c.setBuf k { c.buf k with locked := true })
    else none
  | .read k =>
    if c.Held k ∧ (c.buf k).valid = false then
      some (c.setBuf k { c.buf k with data := c.disk (c.buf k).dev (c.buf k).blockno, valid := true })
    else none
  | .logWrite k v =>
    if c.Held k ∧ (c.buf k).valid = true then
      some { c.setBuf k { c.buf k with data := v, dirty := true } with
        last := Function.update c.last (c.buf k).dev (Function.update (c.last (c.buf k).dev) (c.buf k).blockno v) }
    else none
  | .bwrite k v =>
    if c.Held k ∧ (c.buf k).valid = true then
      some { c.setBuf k { c.buf k with data := v, dirty := false } with
        disk := Function.update c.disk (c.buf k).dev (Function.update (c.disk (c.buf k).dev) (c.buf k).blockno v)
        last := Function.update c.last (c.buf k).dev (Function.update (c.last (c.buf k).dev) (c.buf k).blockno v) }
    else none
  | .brelse k => if c.Held k then some (c.brelse k) else none

def Step (c c' : Bcache β) : Prop := ∃ l, c.exec l = some c'

/-- The caches reached from `binit` over the disk `d`. -/
def Reachable (z : β) (d : Nat → Nat → β) : Bcache β → Prop := Machine.Reachable (· = binit z d) Step

end Bcache

/-- What the coherence of the cache reads of a buffer: its block, its flags and its data. -/
def Buf.contents {β : Type} (b : Buf β) : Nat × Nat × Bool × Bool × β := (b.dev, b.blockno, b.valid, b.dirty, b.data)

namespace Bcache

variable {β : Type} {c c' : Bcache β} {l : List Nat} {j k dev blockno : Nat} {b : Buf β} {v : β}

@[simp] theorem setBuf_buf_self : (c.setBuf k b).buf k = b := Function.update_self ..
theorem setBuf_buf_of_ne (e : j ≠ k) : (c.setBuf k b).buf j = c.buf j := Function.update_of_ne e ..
@[simp] theorem setBuf_next : (c.setBuf k b).next = c.next := rfl
@[simp] theorem setBuf_prev : (c.setBuf k b).prev = c.prev := rfl
@[simp] theorem setBuf_disk : (c.setBuf k b).disk = c.disk := rfl
@[simp] theorem setBuf_last : (c.setBuf k b).last = c.last := rfl

theorem holds_iff : c.holds dev blockno k = true ↔ (c.buf k).dev = dev ∧ (c.buf k).blockno = blockno := by
  simp [holds]

theorem contents_setBuf (hb : b.contents = (c.buf k).contents) (j : Nat) :
    ((c.setBuf k b).buf j).contents = (c.buf j).contents := by
  rcases eq_or_ne j k with rfl | e
  · rw [setBuf_buf_self, hb]
  · rw [setBuf_buf_of_ne e]

theorem locked_setBuf (hlock : ∀ j, (c.buf j).locked = true → 0 < (c.buf j).refcnt)
    (hb : b.locked = true → 0 < b.refcnt) (j : Nat) :
    ((c.setBuf k b).buf j).locked = true → 0 < ((c.setBuf k b).buf j).refcnt := by
  rcases eq_or_ne j k with rfl | e
  · rw [setBuf_buf_self]
    exact hb
  · rw [setBuf_buf_of_ne e]
    exact hlock j

theorem update_update_of_ne {f : Nat → Nat → β} {dev' blockno' : Nat} (hne : ¬(dev' = dev ∧ blockno' = blockno)) :
    Function.update f dev (Function.update (f dev) blockno v) dev' blockno' = f dev' blockno' := by
  rcases eq_or_ne dev' dev with rfl | hd
  · rw [Function.update_self, Function.update_of_ne fun e => hne ⟨rfl, e⟩]
  · rw [Function.update_of_ne hd]

theorem update_update_self {f : Nat → Nat → β} :
    Function.update f dev (Function.update (f dev) blockno v) dev blockno = v := by
  rw [Function.update_self, Function.update_self]

/-! ### The list and the keys -/

/-- The list through the head, and the buffers `bget` must find. -/
structure ListInv (c : Bcache β) (l : List Nat) : Prop where
  /-- `l`, from the most recently used, holds each buffer once. -/
  perm : l.Perm (List.range NBUF)
  circ : Dlist.Circ c.next c.prev NBUF l
  /-- A buffer in use is the first in `l` that holds its block. -/
  first : ∀ k, k < NBUF → c.Busy k → l.find? (c.holds (c.buf k).dev (c.buf k).blockno) = some k

namespace ListInv

theorem mem_iff (h : c.ListInv l) : k ∈ l ↔ k < NBUF := by
  rw [h.perm.mem_iff, List.mem_range]

theorem length_eq (h : c.ListInv l) : l.length = NBUF := by
  rw [h.perm.length_eq, List.length_range]

theorem head_not_mem (h : c.ListInv l) : NBUF ∉ l :=
  (List.nodup_cons.1 h.circ.nodup).1

/-- The first loop of `bget`, from the most recently used buffer. -/
theorem scan_next (h : c.ListInv l) (p : Nat → Bool) :
    Dlist.scan c.next NBUF p (NBUF + 1) (c.next NBUF) = l.find? p :=
  h.circ.chain.scan h.head_not_mem p (by rw [h.length_eq]; omega)

/-- The second loop of `bget`, from the least recently used buffer. -/
theorem scan_prev (h : c.ListInv l) (p : Nat → Bool) :
    Dlist.scan c.prev NBUF p (NBUF + 1) (c.prev NBUF) = l.reverse.find? p :=
  h.circ.chain_prev.scan (by rw [List.mem_reverse]; exact h.head_not_mem) p
    (by rw [List.length_reverse, h.length_eq]; omega)

theorem unique (h : c.ListInv l) (hj : j < NBUF) (hk : k < NBUF) (bj : c.Busy j) (bk : c.Busy k)
    (hjk : c.holds (c.buf k).dev (c.buf k).blockno j = true) : j = k := by
  obtain ⟨hd, hb⟩ := holds_iff.1 hjk
  have hf := h.first j hj bj
  rw [hd, hb, h.first k hk bk] at hf
  exact (Option.some.inj hf).symm

theorem of_frame (h : c.ListInv l) (hn : c'.next = c.next) (hp : c'.prev = c.prev)
    (hk : ∀ j, (c'.buf j).dev = (c.buf j).dev ∧ (c'.buf j).blockno = (c.buf j).blockno)
    (hb : ∀ k, k < NBUF → c'.Busy k → c.Busy k ∨ l.find? (c.holds (c.buf k).dev (c.buf k).blockno) = some k) :
    c'.ListInv l := by
  have hh : c'.holds = c.holds := by
    funext dev blockno j
    simp only [holds, hk]
  refine ⟨h.perm, hn ▸ hp ▸ h.circ, fun k hk' bk => ?_⟩
  rw [hh, (hk k).1, (hk k).2]
  exact (hb k hk' bk).elim (h.first k hk') id

theorem of_busy (h : c.ListInv l) (bk : c.Busy k) (hn : c'.next = c.next) (hp : c'.prev = c.prev)
    (hother : ∀ j, j ≠ k → c'.buf j = c.buf j) (hkd : (c'.buf k).dev = (c.buf k).dev)
    (hkb : (c'.buf k).blockno = (c.buf k).blockno) (hbusy : c'.Busy k → c.Busy k) : c'.ListInv l := by
  refine h.of_frame hn hp (fun j => ?_) fun j _ bj => .inl ?_
  · rcases eq_or_ne j k with rfl | e
    · exact ⟨hkd, hkb⟩
    · rw [hother j e]
      exact ⟨rfl, rfl⟩
  · rcases eq_or_ne j k with rfl | e
    · exact hbusy bj
    · rwa [Busy, hother j e] at bj

end ListInv

/-! ### Coherence -/

/-- Flags and data agree with the disk and with the last write of each block. -/
structure DataInv (c : Bcache β) : Prop where
  locked : ∀ k, (c.buf k).locked = true → 0 < (c.buf k).refcnt
  dirty : ∀ k, (c.buf k).dirty = true → (c.buf k).valid = true
  /-- A valid buffer holds the last write of its block. -/
  data : ∀ k, k < NBUF → (c.buf k).valid = true → (c.buf k).data = c.last (c.buf k).dev (c.buf k).blockno
  /-- A valid buffer that is not dirty agrees with the disk. -/
  clean : ∀ k, k < NBUF → (c.buf k).valid = true → (c.buf k).dirty = false →
    c.disk (c.buf k).dev (c.buf k).blockno = (c.buf k).data
  /-- A block no buffer holds the contents of is up to date on disk. -/
  disk : ∀ dev blockno, (∀ k, k < NBUF → c.holds dev blockno k = true → (c.buf k).valid = false) →
    c.disk dev blockno = c.last dev blockno

theorem DataInv.of_frame (h : c.DataInv) (hc : ∀ j, (c'.buf j).contents = (c.buf j).contents)
    (hd : c'.disk = c.disk) (hl : c'.last = c.last) (hlock : ∀ j, (c'.buf j).locked = true → 0 < (c'.buf j).refcnt) :
    c'.DataInv := by
  simp only [Buf.contents, Prod.mk.injEq] at hc
  have hh : c'.holds = c.holds := by
    funext dev blockno j
    simp only [holds, hc]
  refine ⟨hlock, fun j => ?_, fun j => ?_, fun j => ?_, fun dev blockno hv => ?_⟩
  · simp only [hc]
    exact h.dirty j
  · simp only [hc, hl]
    exact h.data j
  · simp only [hc, hd]
    exact h.clean j
  · rw [hd, hl]
    refine h.disk dev blockno fun j hj hhj => ?_
    rw [← hh] at hhj
    rw [← (hc j).2.2.1]
    exact hv j hj hhj

theorem DataInv.other_invalid (h : c.DataInv) (hl : c.ListInv l) (hk : c.Held k) {x : Nat} (hx : x < NBUF)
    (hxk : x ≠ k) (hh : c.holds (c.buf k).dev (c.buf k).blockno x = true) : (c.buf x).valid = false := by
  cases hv : (c.buf x).valid
  · rfl
  · exact absurd (hl.unique hx hk.1 (.inl hv) (.inr (h.locked k hk.2)) hh) hxk

theorem DataInv.disk_of_held (h : c.DataInv) (hl : c.ListInv l) (hk : c.Held k) (hv : (c.buf k).valid = false) :
    c.disk (c.buf k).dev (c.buf k).blockno = c.last (c.buf k).dev (c.buf k).blockno := by
  refine h.disk _ _ fun x hx hh => ?_
  by_cases e : x = k
  · exact e ▸ hv
  · exact h.other_invalid hl hk hx e hh

theorem DataInv.of_held (h : c.DataInv) (hl : c.ListInv l) (hk : c.Held k)
    (hother : ∀ j, j ≠ k → c'.buf j = c.buf j) (hkd : (c'.buf k).dev = (c.buf k).dev)
    (hkb : (c'.buf k).blockno = (c.buf k).blockno)
    (hout : ∀ dev blockno, ¬(dev = (c.buf k).dev ∧ blockno = (c.buf k).blockno) →
      c'.disk dev blockno = c.disk dev blockno ∧ c'.last dev blockno = c.last dev blockno)
    (hlock : (c'.buf k).locked = true → 0 < (c'.buf k).refcnt) (hvalid : (c'.buf k).valid = true)
    (hdata : (c'.buf k).data = c'.last (c.buf k).dev (c.buf k).blockno)
    (hclean : (c'.buf k).dirty = false → c'.disk (c.buf k).dev (c.buf k).blockno = (c'.buf k).data) :
    c'.DataInv := by
  -- another valid buffer holds another block, where the disk and the ghost are unchanged
  have hne : ∀ j, j < NBUF → j ≠ k → (c.buf j).valid = true →
      ¬((c.buf j).dev = (c.buf k).dev ∧ (c.buf j).blockno = (c.buf k).blockno) := by
    intro j hj e hv hjk
    have := h.other_invalid hl hk hj e (holds_iff.2 hjk)
    rw [hv] at this
    cases this
  refine ⟨fun j => ?_, fun j => ?_, fun j hj => ?_, fun j hj => ?_, fun dev blockno hv => ?_⟩
  · by_cases e : j = k
    · exact e ▸ hlock
    · rw [hother j e]
      exact h.locked j
  · by_cases e : j = k
    · exact e ▸ fun _ => hvalid
    · rw [hother j e]
      exact h.dirty j
  · rcases eq_or_ne j k with rfl | e
    · rw [hkd, hkb]
      exact fun _ => hdata
    · rw [hother j e]
      intro hv
      rw [(hout _ _ (hne j hj e hv)).2]
      exact h.data j hj hv
  · rcases eq_or_ne j k with rfl | e
    · rw [hkd, hkb]
      exact fun _ => hclean
    · rw [hother j e]
      intro hv hc
      rw [(hout _ _ (hne j hj e hv)).1]
      exact h.clean j hj hv hc
  · by_cases hK : dev = (c.buf k).dev ∧ blockno = (c.buf k).blockno
    · -- the held buffer is valid for this block
      have := hv k hk.1 (holds_iff.2 ⟨hkd.trans hK.1.symm, hkb.trans hK.2.symm⟩)
      rw [hvalid] at this
      cases this
    · rw [(hout _ _ hK).1, (hout _ _ hK).2]
      refine h.disk dev blockno fun x hx hh => ?_
      rcases eq_or_ne x k with rfl | e
      · exact absurd ⟨(holds_iff.1 hh).1.symm, (holds_iff.1 hh).2.symm⟩ hK
      · have hv' := hv x hx (by simp only [holds, hother x e]; exact hh)
        rwa [hother x e] at hv'

def Inv (c : Bcache β) : Prop := (∃ l, c.ListInv l) ∧ c.DataInv

/-! ### Every step keeps the invariant -/

theorem binitLinks_circ : Dlist.Circ binitLinks.1 binitLinks.2 NBUF (List.range NBUF).reverse := by
  have h0 : Dlist.Circ (fun _ => NBUF) (fun _ => NBUF) NBUF ([] : List Nat) := Dlist.circ_nil rfl rfl
  have hc : Dlist.Circ binitLinks.1 binitLinks.2 NBUF ((List.range NBUF).reverse ++ []) :=
    h0.foldl_pushFront List.nodup_range fun b hb => ?_
  · rwa [List.append_nil] at hc
  · rw [List.mem_range] at hb
    rw [List.mem_singleton]
    exact Nat.ne_of_lt hb

theorem binit_inv (z : β) (d : Nat → Nat → β) : (binit z d).Inv := by
  -- no buffer is valid, referenced, locked or dirty, and the disk is its own last write
  refine ⟨⟨_, ⟨List.reverse_perm _, binitLinks_circ, fun k _ bk => ?_⟩⟩, ⟨fun k e => ?_, fun k e => ?_, fun k _ e => ?_,
    fun k _ e => ?_, fun _ _ _ => rfl⟩⟩
  · rcases bk with e | e <;> cases e
  all_goals cases e

theorem bget_cases (h : c.bget dev blockno = .ok (k, c')) :
    (Dlist.scan c.next NBUF (c.holds dev blockno) (NBUF + 1) (c.next NBUF) = some k ∧
      c' = c.setBuf k { c.buf k with refcnt := (c.buf k).refcnt + 1 }) ∨
    (Dlist.scan c.next NBUF (c.holds dev blockno) (NBUF + 1) (c.next NBUF) = none ∧
      Dlist.scan c.prev NBUF (fun k => (c.buf k).refcnt == 0 && !(c.buf k).dirty) (NBUF + 1) (c.prev NBUF) = some k ∧
      c' = c.setBuf k { c.buf k with dev, blockno, valid := false, dirty := false, refcnt := 1 }) := by
  unfold bget at h
  split at h
  · rename_i k' hk'
    obtain ⟨rfl, rfl⟩ := Prod.mk.inj (Except.ok.inj h)
    exact .inl ⟨hk', rfl⟩
  · rename_i hn
    split at h
    · rename_i k' hk'
      obtain ⟨rfl, rfl⟩ := Prod.mk.inj (Except.ok.inj h)
      exact .inr ⟨hn, hk', rfl⟩
    · cases h

theorem inv_hit (hl : c.ListInv l) (hd : c.DataInv) (hk : l.find? (c.holds dev blockno) = some k) :
    (c.setBuf k { c.buf k with refcnt := (c.buf k).refcnt + 1 }).Inv := by
  obtain ⟨hkd, hkb⟩ := holds_iff.1 (List.find?_some hk)
  refine ⟨⟨l, hl.of_frame rfl rfl (fun j => ?_) fun j _ bj => ?_⟩,
    hd.of_frame (contents_setBuf rfl) rfl rfl (locked_setBuf hd.locked fun _ => Nat.succ_pos _)⟩
  · rcases eq_or_ne j k with rfl | e
    · rw [setBuf_buf_self]
      exact ⟨rfl, rfl⟩
    · rw [setBuf_buf_of_ne e]
      exact ⟨rfl, rfl⟩
  · by_cases e : j = k
    · -- the buffer now in use is the one the scan found
      subst e
      right
      rw [hkd, hkb]
      exact hk
    · left
      rwa [Busy, setBuf_buf_of_ne e] at bj

/-- `bget` recycles a buffer nobody references and that is not dirty, for a block no buffer holds. -/
theorem inv_recycle (hl : c.ListInv l) (hd : c.DataInv) (hnone : ∀ x ∈ l, c.holds dev blockno x = false)
    (hk : k ∈ l) (hr : (c.buf k).refcnt = 0) (hdirty : (c.buf k).dirty = false) :
    (c.setBuf k { c.buf k with dev, blockno, valid := false, dirty := false, refcnt := 1 }).Inv := by
  have hkn := hl.mem_iff.1 hk
  refine ⟨⟨l, ⟨hl.perm, hl.circ, fun j hj bj => ?_⟩⟩,
    ⟨locked_setBuf hd.locked fun _ => Nat.one_pos, fun j => ?_, fun j hj => ?_, fun j hj => ?_, fun dev' blockno' hv => ?_⟩⟩
  · by_cases e : j = k
    · -- the recycled buffer is the only one that holds its new block
      subst e
      refine Dlist.find?_eq_some_of_unique hk (by simp [holds]) fun x hx hh => ?_
      by_contra e
      rw [holds, setBuf_buf_of_ne e, ← holds, setBuf_buf_self, hnone x hx] at hh
      cases hh
    · -- a buffer in use holds another block, which the recycled buffer no longer holds
      have bj' : c.Busy j := by rwa [Busy, setBuf_buf_of_ne e] at bj
      rw [setBuf_buf_of_ne e]
      have hf := hl.first j hj bj'
      refine Dlist.find?_of_imp hf (by simp [holds, setBuf_buf_of_ne e]) fun x hx hxj hh => ?_
      rcases eq_or_ne x k with rfl | ex
      · obtain ⟨hd', hb'⟩ := holds_iff.1 hh
        simp only [setBuf_buf_self] at hd' hb'
        have := hnone j (hl.mem_iff.2 hj)
        rw [hd', hb', holds_iff.2 ⟨rfl, rfl⟩] at this
        cases this
      · rwa [holds, setBuf_buf_of_ne ex] at hh
  · rcases eq_or_ne j k with rfl | e
    · rw [setBuf_buf_self]
      exact fun e => by cases e
    · rw [setBuf_buf_of_ne e]
      exact hd.dirty j
  · rcases eq_or_ne j k with rfl | e
    · rw [setBuf_buf_self]
      exact fun e => by cases e
    · rw [setBuf_buf_of_ne e]
      exact hd.data j hj
  · rcases eq_or_ne j k with rfl | e
    · rw [setBuf_buf_self]
      exact fun e => by cases e
    · rw [setBuf_buf_of_ne e]
      exact hd.clean j hj
  · by_cases hkv : (c.buf k).valid = true ∧ c.holds dev' blockno' k = true
    · -- the block the buffer held was clean, so the disk had its last write
      obtain ⟨hd', hb'⟩ := holds_iff.1 hkv.2
      show c.disk dev' blockno' = c.last dev' blockno'
      rw [← hd', ← hb']
      exact (hd.clean k hkn hkv.1 hdirty).trans (hd.data k hkn hkv.1)
    · refine hd.disk dev' blockno' fun x hx hh => ?_
      rcases eq_or_ne x k with rfl | e
      · cases hv' : (c.buf x).valid
        · rfl
        · exact absurd ⟨hv', hh⟩ hkv
      · have hv' := hv x hx (by rw [holds, setBuf_buf_of_ne e]; exact hh)
        rwa [setBuf_buf_of_ne e] at hv'

theorem inv_acquire (hl : c.ListInv l) (hd : c.DataInv) (hr : 0 < (c.buf k).refcnt) :
    (c.setBuf k { c.buf k with locked := true }).Inv :=
  ⟨⟨l, hl.of_busy (.inr hr) rfl rfl (fun _ e => setBuf_buf_of_ne e) (by simp) (by simp) fun _ => .inr hr⟩,
    hd.of_frame (contents_setBuf rfl) rfl rfl (locked_setBuf hd.locked fun _ => hr)⟩

/-- `bread`'s disk transfer: the buffer now holds the last write of its block. -/
theorem inv_read (hl : c.ListInv l) (hd : c.DataInv) (hk : c.Held k) (hv : (c.buf k).valid = false) :
    (c.setBuf k { c.buf k with data := c.disk (c.buf k).dev (c.buf k).blockno, valid := true }).Inv := by
  have bk : c.Busy k := .inr (hd.locked k hk.2)
  have hdirty : (c.buf k).dirty = false := by
    cases e : (c.buf k).dirty
    · rfl
    · rw [hd.dirty k e] at hv
      cases hv
  refine ⟨⟨l, hl.of_busy bk rfl rfl (fun _ e => setBuf_buf_of_ne e) (by simp) (by simp) fun _ => bk⟩,
    hd.of_held hl hk (fun _ e => setBuf_buf_of_ne e) (by simp) (by simp) (fun _ _ _ => ⟨rfl, rfl⟩) ?_ (by simp) ?_ ?_⟩
  · rw [setBuf_buf_self]
    exact hd.locked k
  · rw [setBuf_buf_self]
    exact hd.disk_of_held hl hk hv
  · rw [setBuf_buf_self]
    exact fun _ => rfl

theorem inv_logWrite (hl : c.ListInv l) (hd : c.DataInv) (hk : c.Held k) (hv : (c.buf k).valid = true) :
    ({ c.setBuf k { c.buf k with data := v, dirty := true } with
      last := Function.update c.last (c.buf k).dev (Function.update (c.last (c.buf k).dev) (c.buf k).blockno v) } :
      Bcache β).Inv := by
  have bk : c.Busy k := .inr (hd.locked k hk.2)
  refine ⟨⟨l, hl.of_busy bk rfl rfl (fun _ e => setBuf_buf_of_ne e) (by simp) (by simp) fun _ => bk⟩,
    hd.of_held hl hk (fun _ e => setBuf_buf_of_ne e) (by simp) (by simp)
      (fun _ _ hne => ⟨rfl, update_update_of_ne hne⟩) ?_ (by simp [hv]) ?_ ?_⟩
  · rw [setBuf_buf_self]
    exact hd.locked k
  · rw [setBuf_buf_self]
    exact update_update_self.symm
  · rw [setBuf_buf_self]
    exact fun e => by cases e

theorem inv_bwrite (hl : c.ListInv l) (hd : c.DataInv) (hk : c.Held k) (hv : (c.buf k).valid = true) :
    ({ c.setBuf k { c.buf k with data := v, dirty := false } with
      disk := Function.update c.disk (c.buf k).dev (Function.update (c.disk (c.buf k).dev) (c.buf k).blockno v)
      last := Function.update c.last (c.buf k).dev (Function.update (c.last (c.buf k).dev) (c.buf k).blockno v) } :
      Bcache β).Inv := by
  have bk : c.Busy k := .inr (hd.locked k hk.2)
  refine ⟨⟨l, hl.of_busy bk rfl rfl (fun _ e => setBuf_buf_of_ne e) (by simp) (by simp) fun _ => bk⟩,
    hd.of_held hl hk (fun _ e => setBuf_buf_of_ne e) (by simp) (by simp)
      (fun _ _ hne => ⟨update_update_of_ne hne, update_update_of_ne hne⟩) ?_ (by simp [hv]) ?_ ?_⟩
  · rw [setBuf_buf_self]
    exact hd.locked k
  · rw [setBuf_buf_self]
    exact update_update_self.symm
  · rw [setBuf_buf_self]
    exact fun _ => update_update_self

/-- `brelse`'s relinking of a buffer that holds no other in-use buffer's block to the front. -/
theorem ListInv.relink (h : c.ListInv l) (hk : k < NBUF)
    (hkey : ∀ j, j < NBUF → j ≠ k → c.Busy j → c.holds (c.buf j).dev (c.buf j).blockno k = false) :
    ({ c with next := (Dlist.pushFront (Dlist.unlink c.next c.prev k).1 (Dlist.unlink c.next c.prev k).2 NBUF k).1,
              prev := (Dlist.pushFront (Dlist.unlink c.next c.prev k).1 (Dlist.unlink c.next c.prev k).2 NBUF k).2 } :
      Bcache β).ListInv (k :: l.erase k) := by
  have hkl := h.mem_iff.2 hk
  refine ⟨(List.perm_cons_erase hkl).symm.trans h.perm, (h.circ.unlink hkl).pushFront ?_, fun j hj bj => ?_⟩
  · -- `k` is neither the head nor left in the list
    rw [List.mem_cons, not_or]
    exact ⟨Nat.ne_of_lt hk, (List.nodup_cons.1 h.circ.nodup).2.not_mem_erase⟩
  · show (k :: l.erase k).find? (c.holds (c.buf j).dev (c.buf j).blockno) = some j
    rcases eq_or_ne j k with rfl | e
    · exact List.find?_cons_of_pos (holds_iff.2 ⟨rfl, rfl⟩)
    · rw [List.find?_cons_of_neg (by simp [hkey j hj e bj]), Dlist.find?_erase_of_neg (hkey j hj e bj)]
      exact h.first j hj bj

theorem inv_brelse (hl : c.ListInv l) (hd : c.DataInv) (hk : c.Held k) : (c.brelse k).Inv := by
  have bk : c.Busy k := .inr (hd.locked k hk.2)
  have hl₁ : (c.setBuf k { c.buf k with locked := false, refcnt := (c.buf k).refcnt - 1 }).ListInv l :=
    hl.of_busy bk rfl rfl (fun _ e => setBuf_buf_of_ne e) (by simp) (by simp) fun _ => bk
  have hd₁ : (c.setBuf k { c.buf k with locked := false, refcnt := (c.buf k).refcnt - 1 }).DataInv :=
    hd.of_frame (contents_setBuf rfl) rfl rfl (locked_setBuf hd.locked fun e => by cases e)
  unfold brelse
  dsimp only
  split_ifs
  · -- no other buffer in use holds the block of `k`, which is in use before the release
    refine ⟨⟨_, hl₁.relink hk.1 fun j hj e bj => ?_⟩, hd₁.of_frame (fun _ => rfl) rfl rfl hd₁.locked⟩
    have bj' : c.Busy j := by rwa [Busy, setBuf_buf_of_ne e] at bj
    have hkey : c.holds (c.buf j).dev (c.buf j).blockno k = false := by
      cases hh : c.holds (c.buf j).dev (c.buf j).blockno k
      · rfl
      · exact absurd (hl.unique hk.1 hj bk bj' hh).symm e
    simp only [holds, setBuf_buf_of_ne e, setBuf_buf_self]
    exact hkey
  · exact ⟨⟨l, hl₁⟩, hd₁⟩

theorem Inv.step (h : c.Inv) (hs : c.Step c') : c'.Inv := by
  obtain ⟨⟨l, hl⟩, hd⟩ := h
  obtain ⟨lab, hlab⟩ := hs
  cases lab with
  | bget dev blockno =>
    obtain ⟨k, hk⟩ := Except.exists_of_toOption_map hlab
    rcases bget_cases hk with ⟨hscan, rfl⟩ | ⟨hnone, hscan, rfl⟩
    · rw [hl.scan_next] at hscan
      exact inv_hit hl hd hscan
    · rw [hl.scan_next, List.find?_eq_none] at hnone
      rw [hl.scan_prev] at hscan
      have hp := List.find?_some hscan
      simp only [Bool.and_eq_true, beq_iff_eq, Bool.not_eq_eq_eq_not, Bool.not_true] at hp
      exact inv_recycle hl hd (fun x hx => by simpa using hnone x hx)
        (List.mem_reverse.1 (List.mem_of_find?_eq_some hscan)) hp.1 hp.2
  | acquire k =>
    simp only [exec] at hlab
    split_ifs at hlab with hc
    obtain rfl := Option.some.inj hlab
    exact inv_acquire hl hd hc.2.2
  | read k =>
    simp only [exec] at hlab
    split_ifs at hlab with hc
    obtain rfl := Option.some.inj hlab
    exact inv_read hl hd hc.1 hc.2
  | logWrite k v =>
    simp only [exec] at hlab
    split_ifs at hlab with hc
    obtain rfl := Option.some.inj hlab
    exact inv_logWrite hl hd hc.1 hc.2
  | bwrite k v =>
    simp only [exec] at hlab
    split_ifs at hlab with hc
    obtain rfl := Option.some.inj hlab
    exact inv_bwrite hl hd hc.1 hc.2
  | brelse k =>
    simp only [exec] at hlab
    split_ifs at hlab with hc
    obtain rfl := Option.some.inj hlab
    exact inv_brelse hl hd hc

theorem inv_of_reachable {z : β} {d : Nat → Nat → β} (hc : c.Reachable z d) : c.Inv :=
  Machine.Reachable.rec_inv Inv (fun _ e => e ▸ binit_inv z d) (fun _ _ h hs => h.step hs) hc

end Bcache

end Xv6
