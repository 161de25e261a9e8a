import Xv6.Lib.Except
import Xv6.Param
import Xv6.Pipe

/-!
# Inodes, directories and path names (`fs.c`)

The file system as the namespace system calls see it, one transaction at a time: the on-disk
inodes with their contents, the inode cache, and the directory and path-name layers above them.
An inode's contents are the list of its bytes, so `size` is their length; which disk blocks hold
them is the business of the block layer, which this model leaves out (so `balloc` never runs out
of blocks here). The inode cache is write-through (`iupdate` follows every change of an inode in
these calls), so the cached copy of an inode is the on-disk one and the cache is modelled by its
entries' inode numbers and reference counts. A `panic` is an `Except` error.

An `ip` pointer to a cache entry is the inode number it holds: while its `ref` is positive an
entry is the only one for its inode, as `iget` keeps it.
-/

namespace Xv6

namespace Fs

/-- Inode number of the root directory. -/
def ROOTINO : Nat := 1
/-- Block size. -/
def BSIZE : Nat := 512
def NDIRECT : Nat := 12
def NINDIRECT : Nat := BSIZE / 4
/-- Maximum file size in blocks. -/
def MAXFILE : Nat := NDIRECT + NINDIRECT
/-- Length of a directory entry's name. -/
def DIRSIZ : Nat := 14
def T_DIR : Nat := 1
def T_FILE : Nat := 2
def T_DEV : Nat := 3
/-- `sb.ninodes` of the image `mkfs` builds. -/
def NINODES : Nat := 200
/-- `sizeof(struct dirent)`: a `ushort` inode number and `DIRSIZ` bytes of name. -/
def DIRENT : Nat := 16

/-- `struct dinode`, its block addresses replaced by the bytes they hold. -/
structure Dinode where
  type : Nat
  major : Nat
  minor : Nat
  nlink : Nat
  data : List UInt8
  deriving DecidableEq

namespace Dinode

/-- `size`. -/
def size (d : Dinode) : Nat := d.data.length

end Dinode

/-- An entry of the inode cache: `ref` in-memory pointers to inode `inum` of the root device. -/
structure Slot where
  inum : Nat
  ref : Nat
  deriving DecidableEq

/-- `struct file`'s type. -/
inductive FdType
  | FD_NONE
  | FD_PIPE
  | FD_INODE
  deriving DecidableEq

/-- `struct file`; `pipe` names the pipe of an `FD_PIPE` entry by the page that holds it, and `ip`
the inode of an `FD_INODE` one. -/
structure File where
  type : FdType
  ref : Nat
  readable : Bool
  writable : Bool
  pipe : Nat
  ip : Nat
  off : Nat
  deriving DecidableEq

/-- What the file-system calls read and write of a process: `ofile[]` (indices into the file
table) and `cwd`. -/
structure PFiles where
  ofile : List (Option Nat)
  cwd : Nat
  deriving DecidableEq

/-- The on-disk inodes, the inode cache `icache.inode[]`, the file table `ftable.file[]`, each
process slot's files (`none` for a slot with no process) and the pipes, by the page `kalloc` gave
each. -/
structure FsState where
  dinode : Nat → Dinode
  icache : List Slot
  ftable : List File
  procs : Nat → Option PFiles
  pipes : Nat → Option Pipe

namespace FsState

def setDinode (s : FsState) (inum : Nat) (d : Dinode) : FsState :=
  { s with dinode := fun i => if i = inum then d else s.dinode i }

/-- The cache entry that holds `inum`. -/
def slotOf (s : FsState) (inum : Nat) : Option Nat :=
  s.icache.findIdx? fun e => 0 < e.ref && e.inum == inum

/-- `ip->ref` of the entry holding `inum`, 0 if none does. -/
def refOf (s : FsState) (inum : Nat) : Nat :=
  match s.slotOf inum with
  | some i => (s.icache.getD i ⟨0, 0⟩).ref
  | none => 0

/-- Add `1` to, or take `1` from, `ip->ref` of the entry holding `inum`. -/
def bumpRef (s : FsState) (inum : Nat) (up : Bool) : FsState :=
  match s.slotOf inum with
  | some i => { s with icache := s.icache.modify i fun e => { e with ref := if up then e.ref + 1 else e.ref - 1 } }
  | none => s

end FsState

open FsState

variable (s : FsState)

/-- `iget(ROOTDEV, inum)`: the cached entry, or the first free one. -/
def iget (inum : Nat) : Except String FsState :=
  match s.slotOf inum with
  | some _ => pure (s.bumpRef inum true)
  | none =>
    match s.icache.findIdx? fun e => e.ref == 0 with
    | some i => pure { s with icache := s.icache.set i ⟨inum, 1⟩ }
    | none => throw "iget: no inodes"

/-- `idup(ip)`. -/
def idup (inum : Nat) : FsState := s.bumpRef inum true

/-- `ilock(ip)`: the inode must be allocated. -/
def ilock (inum : Nat) : Except String Unit :=
  if (s.dinode inum).type = 0 then throw "ilock: no type" else pure ()

/-- `iput(ip)`: the last reference to an inode with no links frees it, after `itrunc` has
discarded its contents. Every inode that reaches `iput` in these calls was locked since it was
cached, so `ip->valid` is set. -/
def iput (inum : Nat) : FsState :=
  let d := s.dinode inum
  let s := if d.nlink = 0 ∧ s.refOf inum = 1 then s.setDinode inum { d with type := 0, data := [] } else s
  s.bumpRef inum false

/-- `readi(ip, dst, off, n)` for an inode that is not a device: the bytes read, `none` for -1. -/
def readi (d : Dinode) (off n : Nat) : Option (List UInt8) :=
  if off > d.size then none else some ((d.data.drop off).take n)

/-- `writei(ip, src, off, n)` for an inode that is not a device: the inode written, `none` for -1. -/
def writei (d : Dinode) (off : Nat) (src : List UInt8) : Option Dinode :=
  if off > d.size then none
  else if off + src.length > MAXFILE * BSIZE then none
  else some { d with data := d.data.take off ++ src ++ d.data.drop (off + src.length) }

/-! ### Directories -/

/-- The inode number of a directory entry, a little-endian `ushort`. -/
def deInum (de : List UInt8) : Nat := (de.getD 0 0).toNat + 256 * (de.getD 1 0).toNat

/-- The name of a directory entry. -/
def deName (de : List UInt8) : List UInt8 := de.drop 2

/-- A name as `strncmp` with `DIRSIZ` reads it: at most `DIRSIZ` bytes, up to a NUL. -/
def cname (x : List UInt8) : List UInt8 := (x.take DIRSIZ).takeWhile (· != 0)

/-- `namecmp(s, t) == 0`. -/
def namecmp (s t : List UInt8) : Bool := cname s == cname t

/-- The entry `dirlink` writes: the inode number, then `strncpy(de.name, name, DIRSIZ)`. -/
def encodeDirent (inum : Nat) (name : List UInt8) : List UInt8 :=
  [(inum % 256).toUInt8, (inum / 256 % 256).toUInt8] ++ name.take DIRSIZ ++
    List.replicate (DIRSIZ - (name.take DIRSIZ).length) 0

/-- `dirlookup`'s loop over the entries from `off` on: the inode number and offset found. -/
def dirlookupLoop (d : Dinode) (name : List UInt8) : Nat → Nat → Except String (Option (Nat × Nat))
  | 0, _ => pure none
  | k + 1, off =>
    if off < d.size then
      match readi d off DIRENT with
      | some de =>
        if de.length ≠ DIRENT then throw "dirlookup read"
        else if deInum de = 0 then dirlookupLoop d name k (off + DIRENT)
        else if namecmp name (deName de) then pure (some (deInum de, off))
        else dirlookupLoop d name k (off + DIRENT)
      | none => throw "dirlookup read"
    else pure none

/-- `dirlookup(dp, name, &off)`: the entry's inode, got from the cache, and its offset. -/
def dirlookup (dp : Nat) (name : List UInt8) : Except String (Option (Nat × Nat) × FsState) :=
  if (s.dinode dp).type ≠ T_DIR then throw "dirlookup not DIR"
  else do
    match ← dirlookupLoop (s.dinode dp) name ((s.dinode dp).size / DIRENT + 1) 0 with
    | none => pure (none, s)
    | some (inum, off) => pure (some (inum, off), ← iget s inum)

/-- `dirlink`'s scan for a free entry from `off` on; `size` if there is none. -/
def emptyOff (d : Dinode) : Nat → Nat → Except String Nat
  | 0, off => pure off
  | k + 1, off =>
    if off < d.size then
      match readi d off DIRENT with
      | some de =>
        if de.length ≠ DIRENT then throw "dirlink read"
        else if deInum de = 0 then pure off
        else emptyOff d k (off + DIRENT)
      | none => throw "dirlink read"
    else pure off

/-- `dirlink(dp, name, inum)`: 0, or -1 if the name is present. -/
def dirlink (dp : Nat) (name : List UInt8) (inum : Nat) : Except String (Int × FsState) := do
  let (r, s) ← dirlookup s dp name
  match r with
  | some (ip, _) => pure (-1, iput s ip)
  | none =>
    let off ← emptyOff (s.dinode dp) ((s.dinode dp).size / DIRENT + 1) 0
    match writei (s.dinode dp) off (encodeDirent inum name) with
    | some d => pure (0, s.setDinode dp d)
    | none => throw "dirlink"

/-! ### Path names -/

/-- `skipelem(path, name)`: the next element, cut to `DIRSIZ` bytes, and the path after it and
its slashes; `none` if no element is left. -/
def skipelem (path : List UInt8) : Option (List UInt8 × List UInt8) :=
  let path := path.dropWhile (· == 47)
  if path = [] then none
  else some ((path.takeWhile (· != 47)).take DIRSIZ, (path.dropWhile (· != 47)).dropWhile (· == 47))

/-- `namex`'s loop, holding a reference to `ip`; `k` passes are left, and each consumes a byte of
the path. With `nameiparent` it stops one element early and returns that element. -/
def namexLoop (nameiparent : Bool) : Nat → List UInt8 → List UInt8 → Nat → FsState →
    Except String (Option (Nat × List UInt8) × FsState)
  | 0, _, _, _, s => pure (none, s)
  | k + 1, path, name, ip, s =>
    match skipelem path with
    | none => if nameiparent then pure (none, iput s ip) else pure (some (ip, name), s)
    | some (name, path) => do
      ilock s ip
      if (s.dinode ip).type ≠ T_DIR then pure (none, iput s ip)
      else if nameiparent && path == [] then pure (some (ip, name), s)
      else
        let (r, s) ← dirlookup s ip name
        match r with
        | none => pure (none, iput s ip)
        | some (next, _) => namexLoop nameiparent k path name next (iput s ip)

/-- `namex(path, nameiparent, name)` for a process whose working directory is `cwd`. -/
def namex (cwd : Nat) (path : List UInt8) (nameiparent : Bool) :
    Except String (Option (Nat × List UInt8) × FsState) := do
  let s ← if path.head? = some 47 then iget s ROOTINO else pure (idup s cwd)
  let ip := if path.head? = some 47 then ROOTINO else cwd
  namexLoop nameiparent (path.length + 1) path [] ip s

/-- `namei(path)`. -/
def namei (cwd : Nat) (path : List UInt8) : Except String (Option Nat × FsState) := do
  let (r, s) ← namex s cwd path false
  pure (r.map Prod.fst, s)

/-- `nameiparent(path, name)`: the parent directory and the last element. -/
def nameiparent (cwd : Nat) (path : List UInt8) : Except String (Option (Nat × List UInt8) × FsState) :=
  namex s cwd path true

/-! ### Allocation -/

/-- `ialloc`'s scan of the inodes from `inum` on for a free one. -/
def iallocLoop (type : Nat) : Nat → Nat → Except String (Nat × FsState)
  | 0, _ => throw "ialloc: no inodes"
  | k + 1, inum =>
    if inum < NINODES then
      if (s.dinode inum).type = 0 then do
        -- `memset(dip, 0, sizeof(*dip))`, then the type
        let s' ← iget (s.setDinode inum ⟨type, 0, 0, 0, []⟩) inum
        pure (inum, s')
      else iallocLoop type k (inum + 1)
    else throw "ialloc: no inodes"

/-- `ialloc(dev, type)`. -/
def ialloc (type : Nat) : Except String (Nat × FsState) := iallocLoop s type NINODES 1

end Fs

end Xv6
