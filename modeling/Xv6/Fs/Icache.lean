import Xv6.Fs.Mkfs
import Xv6.Lib.Machine

/-!
# The inode cache over the block layer (`fs.c`: `iget`, `ilock`, `iunlock`, `iupdate`, `iput`)

`Xv6.Fs.Block` writes an inode's `addrs` and `size` to disk where the code changes them in the
cache. Here the cache keeps its own copy: an entry of `icache.inode[]` holds, beside `dev`, `inum`
and `ref`, its sleep-lock, `valid`, and the fields that `ilock` reads from the on-disk inode and
`iupdate` writes back. `readi` and `writei` run the block layer on the cached copy: `bmap` stores
a block it allocates into `ip->addrs` in memory, and writes the bitmap, the zeroed block and the
indirect block through the log; of the two only `writei` calls `iupdate`, where the file grew.

Every write goes through `log_write`, which panics outside a transaction (`log.c`); the cache
keeps `log.outstanding`, which `begin_op` and `end_op` count. The rest of the log (its header,
the commit) is `Xv6.Log`: the disk here is the disk as the buffer cache shows it.

A call is a step of any process, made where the code makes it: `ilock` and `iput` when the
sleep-lock is free (otherwise `acquiresleep` waits, and the step is the one after the release),
`iunlock`, `iupdate`, `readi` and `writei` by the holder of the lock. The model does not say which
process holds a lock, so `iunlock`'s `holdingsleep` reads the lock as held. The callers' changes
of `major`, `minor` and `nlink` (`create`, `sys_link`, `sys_unlink`) are made together with the
`iupdate` that follows them. A device's reads and writes go to its driver and leave the cache as
it is, so they are not steps.
-/

namespace Xv6

namespace Fs

/-- Whether `readi(ip, dst, off, n)` on inode `i` calls `balloc`: it passes its checks, reads at
least one byte, and a block it reads, below `MAXFILE`, has no address. The blocks are read in order,
those from `MAXFILE` on last, and the disk does not change before the first `balloc`. -/
def Disk.readiAllocates (d : Disk) (i off n : Nat) : Prop :=
  off < min (off + n) (d.dinode i).size ∧ off + n < 2 ^ 32 ∧
    ∃ bn < MAXFILE, off < (bn + 1) * BSIZE ∧ bn * BSIZE < min (off + n) (d.dinode i).size ∧ d.addrOf i bn = 0

instance (d : Disk) (i off n : Nat) : Decidable (d.readiAllocates i off n) :=
  inferInstanceAs (Decidable (_ ∧ _ ∧ _))

/-- `struct inode`; `din` is the copy of the on-disk inode (`type`, `major`, `minor`, `nlink`,
`size`, `addrs`). -/
structure Inode where
  dev : Nat
  inum : Nat
  ref : Nat
  locked : Bool
  valid : Bool
  din : Disk.Dinode

/-- The disk as the buffer cache and the log show it, `icache.inode[]`, and `log.outstanding`. -/
structure Icache where
  disk : Disk
  inode : Nat → Inode
  outstanding : Nat

namespace Icache

/-- A zeroed `struct inode`. -/
def blank : Inode := ⟨0, 0, 0, false, false, ⟨0, 0, 0, 0, 0, fun _ => 0⟩⟩

/-- The cache `iinit` leaves, over the disk `d`. -/
def boot (d : Disk) : Icache := ⟨d, fun _ => blank, 0⟩

variable (c : Icache)

def setInode (k : Nat) (ip : Inode) : Icache := { c with inode := Function.update c.inode k ip }

/-- `iget(dev, inum)`: the slot of the entry that caches the inode, or of the first empty one,
recycled for it. -/
def iget (dev inum : Nat) : Except String (Nat × Icache) :=
  match (List.range NINODE).find? fun k =>
      0 < (c.inode k).ref && (c.inode k).dev == dev && (c.inode k).inum == inum with
  | some k => pure (k, c.setInode k { c.inode k with ref := (c.inode k).ref + 1 })
  | none =>
    match (List.range NINODE).find? fun k => (c.inode k).ref == 0 with
    | some k => pure (k, c.setInode k { c.inode k with dev := dev, inum := inum, ref := 1, valid := false })
    | none => throw "iget: no inodes"

/-- `ialloc(dev, type)`: the on-disk inode taken and its block logged, then `iget`. -/
def ialloc (dev type : Nat) : Except String (Nat × Icache) := do
  let (inum, d) ← c.disk.ialloc type
  if c.outstanding = 0 then throw "log_write outside of trans"
  iget { c with disk := d } dev inum

/-- `ilock(ip)`, once `acquiresleep` holds the lock: an entry that is not valid reads the on-disk
inode. -/
def ilock (k : Nat) : Except String Icache :=
  let ip := c.inode k
  if ip.ref < 1 then throw "ilock"
  else if ip.valid then pure (c.setInode k { ip with locked := true })
  else if (c.disk.dinode ip.inum).type = 0 then throw "ilock: no type"
  else pure (c.setInode k { ip with locked := true, valid := true, din := c.disk.dinode ip.inum })

/-- `iunlock(ip)`. -/
def iunlock (k : Nat) : Except String Icache :=
  let ip := c.inode k
  if ip.locked = false ∨ ip.ref < 1 then throw "iunlock" else pure (c.setInode k { ip with locked := false })

/-- `iupdate(ip)`: the cached copy written to the on-disk inode, through `log_write`. -/
def iupdate (k : Nat) : Except String Icache :=
  if c.outstanding = 0 then throw "log_write outside of trans"
  else pure { c with disk := c.disk.setDinode (c.inode k).inum (c.inode k).din }

/-- `iput(ip)`, once `acquiresleep` holds the lock: the last reference to a valid inode with no
links frees it on disk (`itrunc`, which ends with `iupdate`, then `ip->type = 0` and `iupdate`). -/
def iput (k : Nat) : Except String Icache :=
  let ip := c.inode k
  if ip.valid ∧ ip.din.nlink = 0 ∧ ip.ref = 1 then do
    let d ← (c.disk.setDinode ip.inum ip.din).iputFree ip.inum
    -- `itrunc`'s `bfree`s and the `iupdate`s write through the log
    if c.outstanding = 0 then throw "log_write outside of trans"
    pure { c with
      disk := d
      inode := Function.update c.inode k { ip with ref := ip.ref - 1, valid := false, din := d.dinode ip.inum } }
  else pure (c.setInode k { ip with ref := ip.ref - 1 })

/-- `readi(ip, dst, off, n)` for an inode that is not a device: the block layer's `readi` on the
cached copy. The addresses `bmap` allocates stay in the copy; the on-disk inode is not written.
Only `bmap`'s `balloc` writes, so outside a transaction a read that allocates panics at the first. -/
def readi (k off n : Nat) : Except String (Option (List UInt8) × Icache) := do
  let ip := c.inode k
  let d := c.disk.setDinode ip.inum ip.din
  if c.outstanding = 0 ∧ d.readiAllocates ip.inum off n then
    -- `balloc` finds no free block, or logs the bitmap block
    discard d.balloc
    throw "log_write outside of trans"
  let (r, d) ← d.readi ip.inum off n
  pure (r, { c with
    disk := d.setDinode ip.inum (c.disk.dinode ip.inum)
    inode := Function.update c.inode k { ip with din := d.dinode ip.inum } })

/-- `writei(ip, src, off, n)` for an inode that is not a device: the block layer's `writei` on the
cached copy, which `iupdate` writes to disk where the file grew. Outside a transaction a write
that passes the checks panics at its first `log_write`. -/
def writei (k off : Nat) (src : List UInt8) : Except String (Option Nat × Icache) := do
  let ip := c.inode k
  let d := c.disk.setDinode ip.inum ip.din
  if c.outstanding = 0 ∧ src ≠ [] ∧ off ≤ ip.din.size ∧ off + src.length ≤ MAXFILE * BSIZE then
    -- the first pass's `bmap` allocates and logs the bitmap, or the pass logs the data block
    if d.addrOf ip.inum (off / BSIZE) = 0 then
      discard d.balloc
    throw "log_write outside of trans"
  let (r, d) ← d.writei ip.inum off src
  let disk := if r.isSome ∧ 0 < src.length ∧ ip.din.size < off + src.length then d
    else d.setDinode ip.inum (c.disk.dinode ip.inum)
  pure (r, { c with disk, inode := Function.update c.inode k { ip with din := d.dinode ip.inum } })

/-- A call into the inode cache, `k` the slot of `ip`. -/
inductive Call
  /-- `begin_op`, once the log admits the operation. -/
  | beginOp
  /-- `end_op`; the commit of the last operation writes home what the buffer cache shows. -/
  | endOp
  | iget (dev inum : Nat)
  | ialloc (dev type : Nat)
  | ilock (k : Nat)
  | iunlock (k : Nat)
  /-- A caller's change of `major`, `minor` and `nlink`, then `iupdate(ip)`. -/
  | iupdate (k major minor nlink : Nat)
  | iput (k : Nat)
  | readi (k off n : Nat)
  | writei (k off : Nat) (src : List UInt8)

/-- Whether the lock of slot `k` is held, as `readi`, `writei` and `iupdate` require. -/
def Held (k : Nat) : Prop := k < NINODE ∧ (c.inode k).locked = true

instance (k : Nat) : Decidable (c.Held k) := inferInstanceAs (Decidable (_ ∧ _))

/-- The cache after a call; `none` where the kernel panics or the call is not made. -/
def next : Call → Option Icache
  | .beginOp =>
    if (c.outstanding + 1) * MAXOPBLOCKS ≤ LOGSIZE then some { c with outstanding := c.outstanding + 1 } else none
  | .endOp => if 0 < c.outstanding then some { c with outstanding := c.outstanding - 1 } else none
  | .iget dev inum => (c.iget dev inum).toOption.map Prod.snd
  | .ialloc dev type => (c.ialloc dev type).toOption.map Prod.snd
  | .ilock k => if k < NINODE ∧ (c.inode k).locked = false then (c.ilock k).toOption else none
  | .iunlock k => if k < NINODE then (c.iunlock k).toOption else none
  | .iupdate k major minor nlink =>
    if c.Held k then
      ((c.setInode k { c.inode k with din := { (c.inode k).din with major, minor, nlink } }).iupdate k).toOption
    else none
  | .iput k => if k < NINODE ∧ (c.inode k).locked = false ∧ 0 < (c.inode k).ref then (c.iput k).toOption else none
  | .readi k off n =>
    if c.Held k ∧ (c.inode k).din.type ≠ T_DEV then (c.readi k off n).toOption.map Prod.snd else none
  | .writei k off src =>
    if c.Held k ∧ (c.inode k).din.type ≠ T_DEV then (c.writei k off src).toOption.map Prod.snd else none

def Step (c c' : Icache) : Prop := ∃ call, c.next call = some c'

/-- The caches reached from boot over the image `d`. -/
def Reachable (d : Disk) : Icache → Prop := Machine.Reachable (· = boot d) Step

/-! ### One entry for each cached inode -/

/-- No two entries with references cache the same inode. -/
def Unique : Prop :=
  ∀ k₁ < NINODE, ∀ k₂ < NINODE, 0 < (c.inode k₁).ref → 0 < (c.inode k₂).ref →
    (c.inode k₁).dev = (c.inode k₂).dev → (c.inode k₁).inum = (c.inode k₂).inum → k₁ = k₂

/-- Every entry keeps its inode, and an entry without references gets none. -/
def KeysKept (c' : Icache) : Prop :=
  ∀ k, (c'.inode k).dev = (c.inode k).dev ∧ (c'.inode k).inum = (c.inode k).inum ∧
    (0 < (c'.inode k).ref → 0 < (c.inode k).ref)

variable {c} {c' : Icache} {k : Nat}

@[simp] theorem setInode_inode {ip : Inode} : (c.setInode k ip).inode = Function.update c.inode k ip := rfl

theorem Unique.of_keysKept (h : c.Unique) (hk : c.KeysKept c') : c'.Unique := by
  intro k₁ h₁ k₂ h₂ hr₁ hr₂ hd hi
  obtain ⟨hd₁, hi₁, hp₁⟩ := hk k₁
  obtain ⟨hd₂, hi₂, hp₂⟩ := hk k₂
  exact h k₁ h₁ k₂ h₂ (hp₁ hr₁) (hp₂ hr₂) (hd₁ ▸ hd₂ ▸ hd) (hi₁ ▸ hi₂ ▸ hi)

theorem keysKept_update {ip : Inode} (he : c'.inode = Function.update c.inode k ip) (hd : ip.dev = (c.inode k).dev)
    (hi : ip.inum = (c.inode k).inum) (hr : 0 < ip.ref → 0 < (c.inode k).ref) : c.KeysKept c' := by
  intro k'
  rw [he]
  by_cases e : k' = k
  · subst e
    rw [Function.update_self]
    exact ⟨hd, hi, hr⟩
  · rw [Function.update_of_ne e]
    exact ⟨rfl, rfl, id⟩

theorem Unique.setInode_fresh {ip : Inode} (h : c.Unique)
    (hfresh : ∀ k' < NINODE, 0 < (c.inode k').ref → (c.inode k').dev = ip.dev → (c.inode k').inum = ip.inum → False) :
    (c.setInode k ip).Unique := by
  intro k₁ h₁ k₂ h₂ hr₁ hr₂ hd hi
  simp only [setInode_inode] at hr₁ hr₂ hd hi
  by_cases e₁ : k₁ = k <;> by_cases e₂ : k₂ = k
  · rw [e₁, e₂]
  · subst e₁
    rw [Function.update_self, Function.update_of_ne e₂] at *
    exact (hfresh k₂ h₂ hr₂ hd.symm hi.symm).elim
  · subst e₂
    rw [Function.update_self, Function.update_of_ne e₁] at *
    exact (hfresh k₁ h₁ hr₁ hd hi).elim
  · rw [Function.update_of_ne e₁, Function.update_of_ne e₂] at *
    exact h k₁ h₁ k₂ h₂ hr₁ hr₂ hd hi

theorem Unique.iget_cached (h : c.Unique) (hk : k < NINODE) (hr : 0 < (c.inode k).ref) :
    c.iget (c.inode k).dev (c.inode k).inum = .ok (k, c.setInode k { c.inode k with ref := (c.inode k).ref + 1 }) := by
  obtain ⟨k', hk'⟩ : ∃ k', (List.range NINODE).find? (fun k' => 0 < (c.inode k').ref &&
      (c.inode k').dev == (c.inode k).dev && (c.inode k').inum == (c.inode k).inum) = some k' := by
    refine Option.isSome_iff_exists.1 (List.find?_isSome.2 ⟨k, List.mem_range.2 hk, ?_⟩)
    simp [hr]
  have hp := List.find?_some hk'
  have hm := List.mem_range.1 (List.mem_of_find?_eq_some hk')
  simp only [Bool.and_eq_true, decide_eq_true_eq, beq_iff_eq] at hp
  obtain rfl := h k' hm k hk hp.1.1 hr hp.1.2 hp.2
  rw [Icache.iget, hk']
  rfl

theorem iget_recycles_free {dev inum : Nat} (hg : c.iget dev inum = .ok (k, c')) :
    (c.inode k).ref = 0 ∨ (c.inode k).dev = dev ∧ (c.inode k).inum = inum := by
  unfold iget at hg
  split at hg
  · rename_i k' hk'
    cases hg
    have hp := List.find?_some hk'
    simp only [Bool.and_eq_true, decide_eq_true_eq, beq_iff_eq] at hp
    exact Or.inr ⟨hp.1.2, hp.2⟩
  · split at hg
    · rename_i k' hk'
      cases hg
      exact Or.inl (by simpa using List.find?_some hk')
    · cases hg

theorem Unique.iget (h : c.Unique) {dev inum : Nat} (hg : c.iget dev inum = .ok (k, c')) : c'.Unique := by
  unfold Icache.iget at hg
  split at hg
  · rename_i k' hk'
    cases hg
    have hp := List.find?_some hk'
    simp only [Bool.and_eq_true, decide_eq_true_eq, beq_iff_eq] at hp
    exact h.of_keysKept (keysKept_update rfl rfl rfl fun _ => hp.1.1)
  · rename_i hnone
    split at hg
    · cases hg
      refine h.setInode_fresh fun k' hk' hr hd hi => ?_
      have := List.find?_eq_none.1 hnone k' (List.mem_range.2 hk')
      simp_all
    · cases hg

/-! Every call but `iget` rewrites the entry it is given and keeps its inode. -/

theorem ilock_keysKept (h : c.ilock k = .ok c') : c.KeysKept c' := by
  unfold ilock at h
  dsimp only at h
  -- the two branches that do not panic
  split_ifs at h
  · cases h
    exact keysKept_update rfl rfl rfl id
  · cases h
    exact keysKept_update rfl rfl rfl id

theorem iunlock_keysKept (h : c.iunlock k = .ok c') : c.KeysKept c' := by
  unfold iunlock at h
  dsimp only at h
  split_ifs at h
  cases h
  exact keysKept_update rfl rfl rfl id

theorem iput_keysKept (h : c.iput k = .ok c') : c.KeysKept c' := by
  unfold iput at h
  dsimp only at h
  split_ifs at h
  · -- outside a transaction the free panics
    obtain ⟨d, -, hd⟩ := Except.bind_eq_ok.1 h
    cases hd
  · obtain ⟨d, -, hd⟩ := Except.bind_eq_ok.1 h
    cases hd
    exact keysKept_update rfl rfl rfl fun hr => Nat.lt_of_lt_of_le hr (Nat.sub_le _ _)
  · cases h
    exact keysKept_update rfl rfl rfl fun hr => Nat.lt_of_lt_of_le hr (Nat.sub_le _ _)

theorem readi_keysKept {off n : Nat} {r : Option (List UInt8)} (h : c.readi k off n = .ok (r, c')) :
    c.KeysKept c' := by
  unfold readi at h
  dsimp only at h
  split_ifs at h
  · exact absurd h (Except.discard_throw_ne_ok _ _ _ _)
  · obtain ⟨⟨r', d⟩, -, hd⟩ := Except.bind_eq_ok.1 h
    cases hd
    exact keysKept_update rfl rfl rfl id

theorem writei_keysKept {off : Nat} {src : List UInt8} {r : Option Nat} (h : c.writei k off src = .ok (r, c')) :
    c.KeysKept c' := by
  unfold writei at h
  dsimp only at h
  split_ifs at h
  · exact absurd h (Except.discard_throw_ne_ok _ _ _ _)
  · cases h
  · obtain ⟨⟨r', d⟩, -, hd⟩ := Except.bind_eq_ok.1 h
    cases hd
    exact keysKept_update rfl rfl rfl id

theorem Unique.next (h : c.Unique) {call : Call} (hn : c.next call = some c') : c'.Unique := by
  cases call with
  | beginOp =>
    rw [Icache.next] at hn
    split_ifs at hn
    cases hn
    exact h
  | endOp =>
    rw [Icache.next] at hn
    split_ifs at hn
    cases hn
    exact h
  | iget dev inum =>
    obtain ⟨k, hk⟩ := Except.exists_of_toOption_map hn
    exact h.iget hk
  | ialloc dev type =>
    obtain ⟨k, hk⟩ := Except.exists_of_toOption_map hn
    obtain ⟨⟨inum, d⟩, -, hg⟩ := Except.bind_eq_ok.1 hk
    dsimp only at hg
    split_ifs at hg
    · cases hg
    · exact Unique.iget (c := { c with disk := d }) h hg
  | ilock k =>
    rw [Icache.next] at hn
    split_ifs at hn
    exact h.of_keysKept (ilock_keysKept (Except.eq_ok_of_toOption hn))
  | iunlock k =>
    rw [Icache.next] at hn
    split_ifs at hn
    exact h.of_keysKept (iunlock_keysKept (Except.eq_ok_of_toOption hn))
  | iupdate k major minor nlink =>
    rw [Icache.next] at hn
    split_ifs at hn
    have hu := Except.eq_ok_of_toOption hn
    unfold iupdate at hu
    -- outside a transaction the write panics
    split_ifs at hu
    cases hu
    exact h.of_keysKept (keysKept_update rfl rfl rfl id)
  | iput k =>
    rw [Icache.next] at hn
    split_ifs at hn
    exact h.of_keysKept (iput_keysKept (Except.eq_ok_of_toOption hn))
  | readi k off n =>
    rw [Icache.next] at hn
    split_ifs at hn
    obtain ⟨r, hr⟩ := Except.exists_of_toOption_map hn
    exact h.of_keysKept (readi_keysKept hr)
  | writei k off src =>
    rw [Icache.next] at hn
    split_ifs at hn
    obtain ⟨r, hr⟩ := Except.exists_of_toOption_map hn
    exact h.of_keysKept (writei_keysKept hr)

theorem Reachable.unique {d : Disk} (h : Reachable d c) : c.Unique := by
  refine Machine.Reachable.rec_inv Unique (fun c₀ e => ?_) (fun _ _ hu ⟨_, hn⟩ => hu.next hn) h
  subst e
  intro k₁ _ k₂ _ hr
  exact absurd hr (Nat.lt_irrefl 0)

/-! ### The cached copy and the disk -/

/-- Every valid entry whose lock is free holds the on-disk inode. -/
def Coherent : Prop :=
  ∀ k < NINODE, (c.inode k).valid = true → (c.inode k).locked = false →
    (c.inode k).din = c.disk.dinode (c.inode k).inum

end Icache

namespace Disk

variable {d d₁ : Disk} {i k off n m a : Nat}

theorem readiLoop_pass (hn : n ≠ 0) (hb : d.bmap i (off / BSIZE) = .ok (a, d₁))
    (hm : min n (BSIZE - off % BSIZE) = m) :
    d.readiLoop i (k + 1) off n = (do
      let (rest, d₂) ← d₁.readiLoop i k (off + m) (n - m)
      pure ((List.range m).map (fun j => d₁.blk a (off % BSIZE + j).toUInt32) ++ rest, d₂)) := by
  rw [readiLoop, if_neg hn, hb, Except.ok_bind]
  subst hm
  rfl

theorem readiLoop_done : d.readiLoop i k off 0 = .ok ([], d) := by
  cases k <;> rfl

theorem readiLoop_addressed (hb : ∀ bn, bn * BSIZE < off + n → off < (bn + 1) * BSIZE →
    bn < MAXFILE ∧ d.addrOf i bn ≠ 0) : ∃ bytes, d.readiLoop i k off n = .ok (bytes, d) := by
  induction k generalizing off n with
  | zero => exact ⟨[], rfl⟩
  | succ k ih =>
    by_cases hn : n = 0
    · subst hn
      exact ⟨[], readiLoop_done⟩
    have hbs : BSIZE = 512 := rfl
    -- the block `off` is in, then the rest of the range
    have hfirst := hb (off / BSIZE) (by rw [hbs]; omega) (by rw [hbs]; omega)
    obtain ⟨bytes, hrest⟩ : ∃ bytes, d.readiLoop i k (off + min n (BSIZE - off % BSIZE))
        (n - min n (BSIZE - off % BSIZE)) = .ok (bytes, d) :=
      ih fun bn h₁ h₂ => hb bn (by rw [hbs] at h₁ ⊢; omega) (by rw [hbs] at h₂ ⊢; omega)
    rw [readiLoop_pass hn (bmap_of_addrOf hfirst.1 hfirst.2) rfl, hrest, Except.ok_bind]
    exact ⟨_, rfl⟩

theorem readi_addressed (hb : ∀ bn, bn * BSIZE < off + n → off < (bn + 1) * BSIZE →
    bn < MAXFILE ∧ d.addrOf i bn ≠ 0) : ∃ r, d.readi i off n = .ok (r, d) := by
  unfold Disk.readi
  dsimp only
  split_ifs with hchk hclip
  · exact ⟨none, rfl⟩
  -- the count cut at the size reads a part of the range
  · obtain ⟨bytes, hl⟩ : ∃ bytes, d.readiLoop i ((d.dinode i).size - off) off ((d.dinode i).size - off) =
        .ok (bytes, d) := readiLoop_addressed fun bn h₁ h₂ => hb bn (by omega) h₂
    rw [hl, Except.ok_bind]
    exact ⟨_, rfl⟩
  · obtain ⟨bytes, hl⟩ : ∃ bytes, d.readiLoop i n off n = .ok (bytes, d) := readiLoop_addressed hb
    rw [hl, Except.ok_bind]
    exact ⟨_, rfl⟩

/-- Reading the entry at 512 of an image whose root has no second block, with the blocks up to the
root's in use: `bmap` allocates the first free block for block 1. -/
theorem readi_root_hole (hroot : d.dinode ROOTINO = Mkfs.rootAfter (2 * BSIZE))
    (hbm : d.blk sb.bmapstart = mkfsBitmap (nmeta + 1)) :
    ∃ bytes, d.readi ROOTINO (DIRENT * 32) DIRENT =
      .ok (some bytes, ((d.setBit (nmeta + 1)).bzero (nmeta + 1)).setAddr ROOTINO 1 (nmeta + 1)) := by
  have hused : ∀ j, j < nmeta + 1 → d.inUse j := fun j hj =>
    (inUse_mkfsBitmap hbm (by decide) (by rw [nmeta_eq] at hj; rw [BPB_eq]; omega)).2 hj
  have hfree : ¬ d.inUse (nmeta + 1) := fun hu =>
    Nat.lt_irrefl _ ((inUse_mkfsBitmap hbm (by decide) (by decide)).1 hu)
  -- block 1 has no address and gets the first free block
  have h₁ : d.bmap ROOTINO ((DIRENT * 32) / BSIZE) =
      .ok (nmeta + 1, ((d.setBit (nmeta + 1)).bzero (nmeta + 1)).setAddr ROOTINO 1 (nmeta + 1)) := by
    unfold Disk.bmap
    rw [hroot]
    dsimp only
    rw [if_pos (by decide), if_pos (by decide), balloc_first (by decide) (by decide) hfree hused, Except.ok_bind]
    rfl
  unfold Disk.readi
  rw [hroot]
  dsimp only
  rw [if_neg (by decide), if_neg (by decide),
    show d.readiLoop ROOTINO DIRENT (DIRENT * 32) DIRENT = d.readiLoop ROOTINO (15 + 1) (DIRENT * 32) DIRENT from rfl,
    readiLoop_pass (m := DIRENT) (by decide) h₁ (by decide), Nat.sub_self, readiLoop_done]
  exact ⟨_, rfl⟩

end Disk

namespace Icache

variable {c : Icache} {k off n : Nat}

theorem next_readi_addressed (hk : c.Held k) (ht : (c.inode k).din.type ≠ T_DEV)
    (hb : ∀ bn, bn * BSIZE < off + n → off < (bn + 1) * BSIZE →
      bn < MAXFILE ∧ (c.disk.setDinode (c.inode k).inum (c.inode k).din).addrOf (c.inode k).inum bn ≠ 0) :
    c.next (.readi k off n) = some c := by
  obtain ⟨r, hr⟩ := Disk.readi_addressed hb
  have hno : ¬ (c.disk.setDinode (c.inode k).inum (c.inode k).din).readiAllocates (c.inode k).inum off n := by
    rintro ⟨-, -, bn, -, h₁, h₂, h0⟩
    exact (hb bn (lt_of_lt_of_le h₂ (min_le_left _ _)) h₁).2 h0
  rw [Icache.next, if_pos ⟨hk, ht⟩]
  unfold Icache.readi
  dsimp only
  rw [if_neg (fun h => hno h.2), hr, Except.ok_bind]
  -- the copy goes back into the entry, and the on-disk inode stays
  simp only [Disk.setDinode, Function.update_idem, Function.update_eq_self, Function.update_self]
  rfl

/-- The calls `unlink(path)` makes of the inode cache when `path` is `/` and a name the root
directory, `size` bytes in slot `k`, does not hold: `nameiparent` takes the root and checks that
it is a directory; `sys_unlink` locks it, and `dirlookup` reads every entry; then `iunlockput`
and `end_op`. -/
def unlinkMissing (k size : Nat) : List Call :=
  [.beginOp, .iget ROOTDEV ROOTINO, .ilock k, .iunlock k, .ilock k] ++
    (List.range (size / DIRENT)).map (fun j => .readi k (DIRENT * j) DIRENT) ++ [.iunlock k, .iput k, .endOp]

theorem thirty_root_not_x : ∃ d, Mkfs.main Mkfs.thirtyFiles = .ok d ∧
    ∀ j < 32, namecmp [120] (deName ((List.range DIRENT).map fun b => d.blk nmeta (DIRENT * j + b).toUInt32)) =
      false :=
  ⟨_, rfl, by decide⟩

/-- On the image `mkfs` writes for thirty empty files, with the root held as a process's cwd,
`unlink("/x")` fails inside its transaction: no entry is named `x`. Its `dirlookup` reaches the
root's second block, which has no address, and `bmap` allocates it in the cached copy only. After
`end_op` the root's entry is valid, unlocked and referenced, with an address for block 1 that the
on-disk inode does not have. -/
theorem unlink_root_hole_incoherent :
    ∃ d c, Mkfs.main Mkfs.thirtyFiles = .ok d ∧
      (∀ j < 32, namecmp [120] (deName ((List.range DIRENT).map fun b => d.blk nmeta (DIRENT * j + b).toUInt32)) =
        false) ∧
      Machine.run next (boot d) (.iget ROOTDEV ROOTINO :: unlinkMissing 0 (2 * BSIZE)) = some c ∧ Reachable d c ∧
      ¬ c.Coherent ∧ 0 < (c.inode 0).ref ∧ c.outstanding = 0 ∧
      (c.inode 0).din.addrs 1 = nmeta + 1 ∧ (c.disk.dinode ROOTINO).addrs 1 = 0 := by
  obtain ⟨d, hmain, hroot, hbm⟩ := Mkfs.main_thirty_empty (show Mkfs.thirtyFiles.length = 30 from rfl) (by decide)
  obtain ⟨d', hmain', hnames⟩ := thirty_root_not_x
  rw [hmain, Except.ok.injEq] at hmain'
  subst hmain'
  obtain ⟨bytes, hr⟩ := Disk.readi_root_hole hroot hbm
  set d₂ := ((d.setBit (nmeta + 1)).bzero (nmeta + 1)).setAddr ROOTINO 1 (nmeta + 1) with hd₂
  have hself : d.setDinode ROOTINO (d.dinode ROOTINO) = d := by
    rw [Disk.setDinode, Function.update_eq_self]
  have hnlink : (d₂.dinode ROOTINO).nlink = 1 := by
    rw [hd₂, Disk.setAddr_dinode, Function.update_self, Disk.bzero_dinode, Disk.setBit_dinode, hroot]
    rfl
  -- the caches after each call: the cwd's `iget`, then `unlink`'s
  set c₁ := (boot d).setInode 0 { blank with dev := ROOTDEV, inum := ROOTINO, ref := 1, valid := false } with hc₁
  set c₂ : Icache := { c₁ with outstanding := 1 } with hc₂
  set c₃ := c₂.setInode 0 { c₂.inode 0 with ref := 2 } with hc₃
  set c₄ := c₃.setInode 0 { c₃.inode 0 with locked := true, valid := true, din := d.dinode ROOTINO } with hc₄
  set c₅ := c₄.setInode 0 { c₄.inode 0 with locked := false } with hc₅
  set c₆ := c₅.setInode 0 { c₅.inode 0 with locked := true } with hc₆
  set c₇ : Icache := { c₆ with
    disk := d₂.setDinode ROOTINO (d.dinode ROOTINO)
    inode := Function.update c₆.inode 0 { c₆.inode 0 with din := d₂.dinode ROOTINO } } with hc₇
  set c₈ := c₇.setInode 0 { c₇.inode 0 with locked := false } with hc₈
  set c₉ := c₈.setInode 0 { c₈.inode 0 with ref := 1 } with hc₉
  set c₁₀ : Icache := { c₉ with outstanding := 0 } with hc₁₀
  have e₁ : (boot d).next (.iget ROOTDEV ROOTINO) = some c₁ := rfl
  have e₂ : c₁.next .beginOp = some c₂ := rfl
  have e₃ : c₂.next (.iget ROOTDEV ROOTINO) = some c₃ := rfl
  have e₄ : c₃.next (.ilock 0) = some c₄ := by
    have ht : (d.dinode ROOTINO).type ≠ 0 := by
      rw [hroot]
      decide
    have hs : c₃.inode 0 = { blank with dev := ROOTDEV, inum := ROOTINO, ref := 2, valid := false } := rfl
    rw [Icache.next, if_pos ⟨by decide, rfl⟩, Icache.ilock, hs, show c₃.disk = d from rfl]
    rw [if_neg (by decide), if_neg (by decide), if_neg ht]
    rfl
  have e₅ : c₄.next (.iunlock 0) = some c₅ := rfl
  have e₆ : c₅.next (.ilock 0) = some c₆ := rfl
  have hdir : (d.dinode ROOTINO).type ≠ T_DEV := by
    rw [hroot]
    decide
  -- the entries of block 0, which has an address
  have r₁ : Machine.run next c₆ ((List.range 32).map fun j => .readi 0 (DIRENT * j) DIRENT) = some c₆ := by
    refine Machine.run_of_fixed fun l hl => ?_
    obtain ⟨j, hj, rfl⟩ := List.mem_map.1 hl
    have hj' := List.mem_range.1 hj
    refine next_readi_addressed ⟨by decide, rfl⟩ hdir fun bn h₁ _ => ?_
    have hbn : bn = 0 := by
      simp only [DIRENT, BSIZE] at h₁
      omega
    subst hbn
    show 0 < MAXFILE ∧ (d.setDinode ROOTINO (d.dinode ROOTINO)).addrOf ROOTINO 0 ≠ 0
    rw [hself, Disk.addrOf, if_pos (by decide), hroot]
    decide
  have e₇ : c₆.next (.readi 0 (DIRENT * 32) DIRENT) = some c₇ := by
    rw [Icache.next, if_pos ⟨⟨by decide, rfl⟩, hdir⟩]
    show ((c₆.readi 0 (DIRENT * 32) DIRENT).toOption.map Prod.snd) = some c₇
    unfold Icache.readi
    dsimp only
    rw [if_neg (fun h => Nat.one_ne_zero h.1), show (c₆.inode 0).inum = ROOTINO from rfl,
      show (c₆.inode 0).din = d.dinode ROOTINO from rfl, show c₆.disk = d from rfl, hself, hr]
    rfl
  -- the entries of block 1, which the copy now addresses
  have r₂ : Machine.run next c₇ ((List.range' 33 31).map fun j => .readi 0 (DIRENT * j) DIRENT) = some c₇ := by
    refine Machine.run_of_fixed fun l hl => ?_
    obtain ⟨j, hj, rfl⟩ := List.mem_map.1 hl
    have hj' := List.mem_range'_1.1 hj
    refine next_readi_addressed ⟨by decide, rfl⟩ ?_ fun bn h₁ h₂ => ?_
    · show (d₂.dinode ROOTINO).type ≠ T_DEV
      rw [hd₂, Disk.setAddr_dinode, Function.update_self, Disk.bzero_dinode, Disk.setBit_dinode, hroot]
      decide
    have hbn : bn = 1 := by
      simp only [DIRENT, BSIZE] at h₁ h₂
      omega
    subst hbn
    show 1 < MAXFILE ∧ ((d₂.setDinode ROOTINO (d.dinode ROOTINO)).setDinode ROOTINO (d₂.dinode ROOTINO)).addrOf ROOTINO 1 ≠ 0
    rw [Disk.addrOf, if_pos (by decide)]
    simp only [Disk.setDinode_dinode, Function.update_self, hd₂, Disk.setAddr_dinode]
    decide
  have e₈ : c₇.next (.iunlock 0) = some c₈ := rfl
  have e₉ : c₈.next (.iput 0) = some c₉ := by
    rw [Icache.next, if_pos ⟨by decide, rfl, Nat.two_pos⟩]
    show (c₈.iput 0).toOption = some c₉
    unfold Icache.iput
    rw [if_neg (fun h => absurd (show (d₂.dinode ROOTINO).nlink = 0 from h.2.1) (by rw [hnlink]; decide))]
    rfl
  have e₁₀ : c₉.next .endOp = some c₁₀ := rfl
  have hsplit : (List.range (2 * BSIZE / DIRENT)).map (fun j => (Call.readi 0 (DIRENT * j) DIRENT)) =
      (List.range 32).map (fun j => .readi 0 (DIRENT * j) DIRENT) ++
        .readi 0 (DIRENT * 32) DIRENT :: (List.range' 33 31).map fun j => .readi 0 (DIRENT * j) DIRENT := rfl
  have hrun : Machine.run next (boot d) (.iget ROOTDEV ROOTINO :: unlinkMissing 0 (2 * BSIZE)) = some c₁₀ := by
    rw [unlinkMissing, hsplit]
    simp only [List.cons_append, List.append_assoc, Machine.run_cons, Machine.run_append, e₁, e₂, e₃, e₄, e₅, e₆,
      r₁, e₇, r₂, e₈, e₉, e₁₀, Option.bind_some, Machine.run_nil]
  have hdisk : c₁₀.disk.dinode ROOTINO = d.dinode ROOTINO := by
    show (d₂.setDinode ROOTINO (d.dinode ROOTINO)).dinode ROOTINO = _
    rw [Disk.setDinode_dinode, Function.update_self]
  have hcopy : (c₁₀.inode 0).din.addrs 1 = nmeta + 1 := by
    show (d₂.dinode ROOTINO).addrs 1 = _
    rw [hd₂, Disk.setAddr_dinode]
    simp only [Function.update_self]
  have hroot1 : (c₁₀.disk.dinode ROOTINO).addrs 1 = 0 := by
    rw [hdisk, hroot]
    rfl
  refine ⟨d, c₁₀, hmain, hnames, hrun,
    Machine.Reachable.of_run (fun _ _ _ h => ⟨_, h⟩) (Machine.Reachable.init rfl) hrun, fun hc => ?_, Nat.one_pos, rfl,
    hcopy, hroot1⟩
  -- slot 0 is valid and unlocked, and its copy names block `nmeta + 1` where the disk has 0
  have := congrArg (fun din => din.addrs 1) (hc 0 (by decide) rfl rfl)
  rw [hcopy, show (c₁₀.inode 0).inum = ROOTINO from rfl, hroot1] at this
  exact absurd this (by decide)

end Icache

end Fs

end Xv6
