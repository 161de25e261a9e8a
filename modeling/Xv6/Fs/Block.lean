import Xv6.Fs.Inode
import Xv6.Lib.Word

/-!
# Blocks and the free bitmap (`fs.c`)

What `Xv6.Fs.Inode` leaves out: which disk blocks hold an inode's contents, and the bitmap that
says which blocks are free. An on-disk inode holds `NDIRECT` block addresses and the address of an
indirect block, whose `NINDIRECT` words address further blocks; 0 is no block. `bmap` finds the
block that holds a block of a file, allocating it (and the indirect block) with `balloc` where the
address is 0, and `itrunc` gives every block back with `bfree`.

The disk is laid out as `mkfs` lays it out (`sb`): the boot block, the superblock, the log, the
inode blocks, one bitmap block, then the data blocks. The on-disk inodes are a field of their own
(`Disk.dinode`); every other block is its 512 bytes. The log makes each system call one
transaction, so what a call writes is written on disk. The inode cache is write-through: the model
writes `ip->addrs` and `ip->size` to the on-disk inode where the code changes them in the cache,
which `writei` and `itrunc` copy to disk with `iupdate` before they return.
-/

namespace Xv6

namespace Fs

/-- Bitmap bits per block. -/
def BPB : Nat := BSIZE * 8
/-- Inodes per block, `BSIZE / sizeof(struct dinode)` with a 64-byte `dinode`. -/
def IPB : Nat := BSIZE / 64

/-! The layout `mkfs` computes. -/

def nbitmap : Nat := FSSIZE / (BSIZE * 8) + 1
def ninodeblocks : Nat := NINODES / IPB + 1
def nlog : Nat := LOGSIZE
/-- Number of meta blocks: boot, superblock, log, inode and bitmap blocks. -/
def nmeta : Nat := 2 + nlog + ninodeblocks + nbitmap

/-- The fields of `struct superblock` the block layer reads. -/
structure Superblock where
  size : Nat
  ninodes : Nat
  bmapstart : Nat

/-- The superblock `mkfs` writes, which `readsb` reads at boot. -/
def sb : Superblock := ⟨FSSIZE, NINODES, 2 + nlog + ninodeblocks⟩

/-- `BBLOCK(b, sb)`: the bitmap block holding block `b`'s bit. -/
def BBLOCK (b : Nat) : Nat := b / BPB + sb.bmapstart

/-- `struct dinode`; `addrs k` is `addrs[k]`, for `k ≤ NDIRECT`. -/
structure Disk.Dinode where
  type : Nat
  major : Nat
  minor : Nat
  nlink : Nat
  size : Nat
  addrs : Nat → Nat

/-- The disk: the on-disk inodes and the bytes of every block. -/
structure Disk where
  dinode : Nat → Disk.Dinode
  blk : Nat → UInt32 → UInt8

namespace Disk

variable (d : Disk)

def setBlock (n : Nat) (b : UInt32 → UInt8) : Disk := { d with blk := Function.update d.blk n b }

def setDinode (i : Nat) (di : Dinode) : Disk := { d with dinode := Function.update d.dinode i di }

/-- `ip->addrs[k] = a`. -/
def setAddr (i k a : Nat) : Disk :=
  d.setDinode i { d.dinode i with addrs := Function.update (d.dinode i).addrs k a }

/-- `ip->size = n`. -/
def setSize (i n : Nat) : Disk := d.setDinode i { d.dinode i with size := n }

/-- `m = 1 << (bi % 8)`, the mask of bit `bi` in its byte. -/
def bit (bi : Nat) : UInt8 := 1 <<< (bi % 8).toUInt8

/-- The word `a[j]` of a block read as an array of `uint`. -/
def word (bp : UInt32 → UInt8) (j : Nat) : Nat := (Word.load bp (4 * j).toUInt32).toNat

/-- Bit `b` of the free bitmap is set: block `b` is in use. -/
def inUse (b : Nat) : Prop := d.blk (BBLOCK b) (b % BPB / 8).toUInt32 &&& bit (b % BPB) ≠ 0

instance : DecidablePred d.inUse := fun _ => inferInstanceAs (Decidable (_ ≠ _))

/-- `bzero(dev, bno)`. -/
def bzero (b : Nat) : Disk := d.setBlock b (Word.fill (d.blk b) 0 BSIZE 0)

/-- `balloc`'s scan of the bits of bitmap block `BBLOCK(b)` from `bi` on: the first free block is
marked in use and zeroed. -/
def ballocScan (b : Nat) : Nat → Nat → Option (Nat × Disk)
  | 0, _ => none
  | k + 1, bi =>
    if bi < BPB ∧ b + bi < sb.size then
      let bp := d.blk (BBLOCK b)
      if bp (bi / 8).toUInt32 &&& bit bi = 0 then
        let d := d.setBlock (BBLOCK b) (Function.update bp (bi / 8).toUInt32 (bp (bi / 8).toUInt32 ||| bit bi))
        some (b + bi, d.bzero (b + bi))
      else ballocScan b k (bi + 1)
    else none

/-- `balloc`'s loop over the bitmap blocks, `b` stepping by `BPB`. -/
def ballocLoop : Nat → Nat → Option (Nat × Disk)
  | 0, _ => none
  | k + 1, b =>
    if b < sb.size then
      match d.ballocScan b BPB 0 with
      | some r => some r
      | none => ballocLoop k (b + BPB)
    else none

/-- `balloc(dev)`. -/
def balloc : Except String (Nat × Disk) :=
  match d.ballocLoop sb.size 0 with
  | some r => pure r
  | none => throw "balloc: out of blocks"

/-- `bfree(dev, b)`. -/
def bfree (b : Nat) : Except String Disk :=
  let bp := d.blk (BBLOCK b)
  let bi := b % BPB
  if bp (bi / 8).toUInt32 &&& bit bi = 0 then throw "freeing free block"
  else pure (d.setBlock (BBLOCK b) (Function.update bp (bi / 8).toUInt32 (bp (bi / 8).toUInt32 &&& ~~~(bit bi))))

/-- The indirect half of `bmap`: word `bn` of indirect block `ind`, allocated if it is 0 and stored
into the buffer `bp` read before `balloc`. -/
def bmapWord (ind bn : Nat) : Except String (Nat × Disk) :=
  let bp := d.blk ind
  if word bp bn = 0 then do
    let (a, d) ← d.balloc
    pure (a, d.setBlock ind (Word.store bp (4 * bn).toUInt32 a.toUInt32))
  else pure (word bp bn, d)

/-- `bmap(ip, bn)` for inode `i`. -/
def bmap (i bn : Nat) : Except String (Nat × Disk) :=
  let addrs := (d.dinode i).addrs
  if bn < NDIRECT then
    if addrs bn = 0 then do
      let (a, d) ← d.balloc
      pure (a, d.setAddr i bn a)
    else pure (addrs bn, d)
  else if bn - NDIRECT < NINDIRECT then
    -- load the indirect block, allocating if necessary
    if addrs NDIRECT = 0 then do
      let (a, d) ← d.balloc
      (d.setAddr i NDIRECT a).bmapWord a (bn - NDIRECT)
    else d.bmapWord (addrs NDIRECT) (bn - NDIRECT)
  else throw "bmap: out of range"

/-- `writei`'s loop: `src` is what is left to write, from `off` on; a pass writes up to the end of
the block `off` is in. -/
def writeiLoop (i : Nat) : Nat → Nat → List UInt8 → Disk → Except String Disk
  | 0, _, _, d => pure d
  | k + 1, off, src, d =>
    if src = [] then pure d
    else do
      let (a, d) ← d.bmap i (off / BSIZE)
      let m := min src.length (BSIZE - off % BSIZE)
      let d := d.setBlock a (Word.copy (d.blk a) (off % BSIZE).toUInt32 (src.take m))
      writeiLoop i k (off + m) (src.drop m) d

/-- `writei(ip, src, off, n)` for an inode that is not a device: the count written, `none` for -1.
`off + n < off` is the 32-bit sum wrapping. -/
def writei (i off : Nat) (src : List UInt8) : Except String (Option Nat × Disk) :=
  if off > (d.dinode i).size ∨ 2 ^ 32 ≤ off + src.length then pure (none, d)
  else if off + src.length > MAXFILE * BSIZE then pure (none, d)
  else do
    let d ← writeiLoop i src.length off src d
    let off := off + src.length
    if src.length > 0 ∧ off > (d.dinode i).size then pure (some src.length, d.setSize i off)
    else pure (some src.length, d)

/-- `readi`'s loop: `n` bytes are left to read, from `off` on. -/
def readiLoop (i : Nat) : Nat → Nat → Nat → Disk → Except String (List UInt8 × Disk)
  | 0, _, _, d => pure ([], d)
  | k + 1, off, n, d =>
    if n = 0 then pure ([], d)
    else do
      let (a, d) ← d.bmap i (off / BSIZE)
      let m := min n (BSIZE - off % BSIZE)
      let bytes := (List.range m).map fun j => d.blk a (off % BSIZE + j).toUInt32
      let (rest, d) ← readiLoop i k (off + m) (n - m) d
      pure (bytes ++ rest, d)

/-- `readi(ip, dst, off, n)` for an inode that is not a device: the bytes read, `none` for -1. -/
def readi (i off n : Nat) : Except String (Option (List UInt8) × Disk) :=
  let size := (d.dinode i).size
  if off > size ∨ 2 ^ 32 ≤ off + n then pure (none, d)
  else do
    let n := if off + n > size then size - off else n
    let (bytes, d) ← readiLoop i n off n d
    pure (some bytes, d)

/-- A pass of `itrunc`'s loop over the direct addresses: free `addrs[k]`, if it names a block. -/
def itruncDirect (i k : Nat) : Except String Disk :=
  if (d.dinode i).addrs k ≠ 0 then do
    let d ← d.bfree ((d.dinode i).addrs k)
    pure (d.setAddr i k 0)
  else pure d

/-- A pass of `itrunc`'s loop over the words of the indirect block `bp`: free `a[j]`, if it names a
block. -/
def itruncWord (bp : UInt32 → UInt8) (j : Nat) : Except String Disk :=
  if word bp j ≠ 0 then d.bfree (word bp j) else pure d

/-- `itrunc(ip)` for inode `i`. -/
def itrunc (i : Nat) : Except String Disk := do
  let d ← (List.range NDIRECT).foldlM (fun d k => d.itruncDirect i k) d
  let ind := (d.dinode i).addrs NDIRECT
  let d ← if ind ≠ 0 then do
      let bp := d.blk ind
      let d ← (List.range NINDIRECT).foldlM (fun d j => d.itruncWord bp j) d
      let d ← d.bfree ind
      pure (d.setAddr i NDIRECT 0)
    else pure d
  pure (d.setSize i 0)

/-- What `iput` does on disk to an inode it frees: `itrunc`, then `ip->type = 0` and `iupdate`. -/
def iputFree (i : Nat) : Except String Disk := do
  let d ← d.itrunc i
  pure (d.setDinode i { d.dinode i with type := 0 })

/-- `ialloc`'s scan of the on-disk inodes from `inum` on. -/
def iallocLoop (type : Nat) : Nat → Nat → Except String (Nat × Disk)
  | 0, _ => throw "ialloc: no inodes"
  | k + 1, inum =>
    if inum < sb.ninodes then
      if (d.dinode inum).type = 0 then
        -- `memset(dip, 0, sizeof(*dip))`, then the type
        pure (inum, d.setDinode inum ⟨type, 0, 0, 0, 0, fun _ => 0⟩)
      else iallocLoop type k (inum + 1)
    else throw "ialloc: no inodes"

/-- `ialloc(dev, type)` on disk. -/
def ialloc (type : Nat) : Except String (Nat × Disk) := d.iallocLoop type sb.ninodes 1

/-- `iupdate` of an inode whose `major`, `minor` and `nlink` were changed in the cache. -/
def iupdate (i major minor nlink : Nat) : Disk :=
  d.setDinode i { d.dinode i with major := major, minor := minor, nlink := nlink }

/-! ### The image `mkfs` builds -/

/-- `mkfs`'s `balloc(used)`: the bitmap block with the first `used` bits set. -/
def mkfsBitmap (used : Nat) : UInt32 → UInt8 :=
  (List.range used).foldl (fun buf i => Function.update buf (i / 8).toUInt32 (buf (i / 8).toUInt32 ||| bit i))
    fun _ => 0

/-- The image `mkfs` builds with no file but the root: the root directory holds `.` and `..` in
the first data block, `nmeta`, and its size is rounded up to `BSIZE`; the bitmap marks the meta
blocks and that one in use. -/
def mkfs : Disk where
  dinode i :=
    if i = ROOTINO then ⟨T_DIR, 0, 0, 1, BSIZE, fun k => if k = 0 then nmeta else 0⟩
    else ⟨0, 0, 0, 0, 0, fun _ => 0⟩
  blk n :=
    if n = sb.bmapstart then mkfsBitmap (nmeta + 1)
    else if n = nmeta then Word.copy (fun _ => 0) 0 (encodeDirent ROOTINO [46] ++ encodeDirent ROOTINO [46, 46])
    else fun _ => 0

/-! ### Updates -/

variable {d} {n i k a : Nat} {b : UInt32 → UInt8} {di : Dinode}

@[simp] theorem setBlock_dinode : (d.setBlock n b).dinode = d.dinode := rfl
@[simp] theorem setBlock_blk : (d.setBlock n b).blk = Function.update d.blk n b := rfl
@[simp] theorem setDinode_blk : (d.setDinode i di).blk = d.blk := rfl
@[simp] theorem setDinode_dinode : (d.setDinode i di).dinode = Function.update d.dinode i di := rfl
@[simp] theorem setAddr_blk : (d.setAddr i k a).blk = d.blk := rfl
@[simp] theorem setSize_blk : (d.setSize i n).blk = d.blk := rfl
@[simp] theorem bzero_dinode : (d.bzero n).dinode = d.dinode := rfl

theorem setAddr_dinode :
    (d.setAddr i k a).dinode =
      Function.update d.dinode i { d.dinode i with addrs := Function.update (d.dinode i).addrs k a } := rfl

theorem setSize_dinode : (d.setSize i n).dinode = Function.update d.dinode i { d.dinode i with size := n } :=
  rfl

end Disk

end Fs

end Xv6
