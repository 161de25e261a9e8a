import Xv6.Fs.Ownership

/-!
# The image `mkfs` writes (`mkfs.c`)

`mkfs fs.img files...` zeroes every block, allocates the root directory with `.` and `..`, and
then, for each host file, an inode, the file's entry in the root and its bytes, appended by
`iappend`, which takes data blocks from `freeblock` up and never checks it against `FSSIZE`. It
then rounds the root's size up to the next block boundary and writes the bitmap, marking the first
`freeblock` blocks in use. A failed `assert` is an `Except` error; an image returned is a run that
exits with status 0.

The image is a `Disk` as the kernel model reads it. The on-disk inodes are `Disk.dinode`, so
`winode` of an inode past the inode blocks reaches no other block, and the superblock's bytes are
left out: the kernel model reads the constant `sb`. `xint` and `xshort` are the identity on the
little-endian hosts `mkfs` runs on.

The rounding of the root's size adds a whole block when the entries fill their blocks exactly, and
that block has no address: with 30 host files, of any names and no bytes, the root's size is two
blocks, it has one, and the image breaks the kernel's invariant (`mkfs_root_hole`).
-/

namespace Xv6

namespace Fs

/-- A file named on `mkfs`'s command line: its name and its bytes. -/
structure HostFile where
  name : List UInt8
  data : List UInt8
  deriving DecidableEq

/-- `mkfs`'s globals while it writes the image. -/
structure Mkfs where
  img : Disk
  freeinode : Nat
  freeblock : Nat

namespace Mkfs

/-- The image after `wsect(i, zeroes)` of every block: every byte and every inode zero. -/
def blank : Disk := ⟨fun _ => ⟨0, 0, 0, 0, 0, fun _ => 0⟩, fun _ _ => 0⟩

/-- `ialloc(type)`: the next inode, with `nlink` 1 and size 0. -/
def ialloc (m : Mkfs) (type : Nat) : Nat × Mkfs :=
  (m.freeinode,
    { m with
      img := m.img.setDinode m.freeinode ⟨type, 0, 0, 1, 0, fun _ => 0⟩
      freeinode := m.freeinode + 1 })

/-- The block holding block `fbn` of `iappend`'s copy `din` of the inode: a missing address takes
`freeblock`, and a new word of the indirect block is written at once. -/
def appendBlock (m : Mkfs) (din : Disk.Dinode) (fbn : Nat) : Disk.Dinode × Nat × Mkfs :=
  if fbn < NDIRECT then
    if din.addrs fbn = 0 then
      ({ din with addrs := Function.update din.addrs fbn m.freeblock }, m.freeblock,
        { m with freeblock := m.freeblock + 1 })
    else (din, din.addrs fbn, m)
  else
    let (din, m) :=
      if din.addrs NDIRECT = 0 then
        ({ din with addrs := Function.update din.addrs NDIRECT m.freeblock }, { m with freeblock := m.freeblock + 1 })
      else (din, m)
    let indirect := m.img.blk (din.addrs NDIRECT)
    if Disk.word indirect (fbn - NDIRECT) = 0 then
      (din, m.freeblock,
        { m with
          img := m.img.setBlock (din.addrs NDIRECT)
            (Word.store indirect (4 * (fbn - NDIRECT)).toUInt32 m.freeblock.toUInt32)
          freeblock := m.freeblock + 1 })
    else (din, Disk.word indirect (fbn - NDIRECT), m)

/-- `iappend`'s loop: `p` is what is left to append, at `off`; a pass fills the rest of the block
`off` is in. -/
def iappendLoop : Nat → Disk.Dinode → Nat → List UInt8 → Mkfs → Except String (Disk.Dinode × Nat × Mkfs)
  | 0, din, off, _, m => pure (din, off, m)
  | k + 1, din, off, p, m =>
    if p = [] then pure (din, off, m)
    else
      let fbn := off / BSIZE
      if fbn < MAXFILE then
        let (din, x, m) := m.appendBlock din fbn
        let n1 := min p.length ((fbn + 1) * BSIZE - off)
        let m := { m with img := m.img.setBlock x (Word.copy (m.img.blk x) (off - fbn * BSIZE).toUInt32 (p.take n1)) }
        iappendLoop k din (off + n1) (p.drop n1) m
      else throw "assert fbn < MAXFILE"

/-- `iappend(inum, p, n)`: `rinode`, the loop, then `winode` with the new size. -/
def iappend (m : Mkfs) (inum : Nat) (p : List UInt8) : Except String Mkfs := do
  let din := m.img.dinode inum
  let (din, off, m) ← iappendLoop p.length din din.size p m
  pure { m with img := m.img.setDinode inum { din with size := off } }

/-- `while((cc = read(fd, buf, sizeof(buf))) > 0) iappend(inum, buf, cc)`: the bytes of a host
file in reads of at most `BSIZE`. -/
def appendFile (inum : Nat) : Nat → List UInt8 → Mkfs → Except String Mkfs
  | 0, _, m => pure m
  | k + 1, data, m =>
    if data = [] then pure m
    else do
      let m ← m.iappend inum (data.take BSIZE)
      appendFile inum k (data.drop BSIZE) m

/-- One pass of `main`'s loop over the host files: the file's inode, its entry in the root, with
a leading `_` of its name skipped, then its bytes. -/
def addFile (rootino : Nat) (m : Mkfs) (f : HostFile) : Except String Mkfs := do
  if 47 ∈ f.name then throw "assert index(argv[i], '/') == 0"
  let name := if f.name.head? = some 95 then f.name.tail else f.name
  let (inum, m) := m.ialloc T_FILE
  let m ← m.iappend rootino (encodeDirent inum name)
  appendFile inum f.data.length f.data m

/-- `balloc(used)`: the bitmap block with the first `used` bits set. -/
def balloc (m : Mkfs) (used : Nat) : Except String Mkfs :=
  if used < BSIZE * 8 then pure { m with img := m.img.setBlock sb.bmapstart (Disk.mkfsBitmap used) }
  else throw "assert used < BSIZE*8"

/-- `mkfs fs.img files...`: the image written, or the `assert` that failed. -/
def main (files : List HostFile) : Except String Disk := do
  let (rootino, m) := (⟨blank, 1, nmeta⟩ : Mkfs).ialloc T_DIR
  if rootino ≠ ROOTINO then throw "assert rootino == ROOTINO"
  let m ← m.iappend rootino (encodeDirent rootino [46])
  let m ← m.iappend rootino (encodeDirent rootino [46, 46])
  let m ← files.foldlM (addFile rootino) m
  -- fix size of root inode dir
  let off := ((m.img.dinode rootino).size / BSIZE + 1) * BSIZE
  let m := { m with img := m.img.setSize rootino off }
  let m ← m.balloc m.freeblock
  pure m.img

/-! ### Appending inside one direct block -/

theorem length_encodeDirent (inum : Nat) (name : List UInt8) : (encodeDirent inum name).length = 16 := by
  simp only [encodeDirent, List.length_append, List.length_cons, List.length_nil, List.length_take,
    List.length_replicate, DIRSIZ]
  omega

section Append

variable {m : Mkfs} {din : Disk.Dinode} {off fbn : Nat} {p : List UInt8}

theorem iappendLoop_nil (k : Nat) (din : Disk.Dinode) (off : Nat) (m : Mkfs) :
    iappendLoop k din off [] m = .ok (din, off, m) := by
  cases k <;> rfl

theorem appendBlock_new (hf : fbn < NDIRECT) (h0 : din.addrs fbn = 0) :
    m.appendBlock din fbn = ({ din with addrs := Function.update din.addrs fbn m.freeblock }, m.freeblock,
      { m with freeblock := m.freeblock + 1 }) := by
  rw [appendBlock, if_pos hf, if_pos h0]

theorem appendBlock_old (hf : fbn < NDIRECT) (h0 : din.addrs fbn ≠ 0) : m.appendBlock din fbn = (din, din.addrs fbn, m) := by
  rw [appendBlock, if_pos hf, if_neg h0]

theorem iappendLoop_fits (k : Nat) (hp : p ≠ []) (hf : off / BSIZE < MAXFILE) (hfit : off % BSIZE + p.length ≤ BSIZE) :
    iappendLoop (k + 1) din off p m =
      .ok ((m.appendBlock din (off / BSIZE)).1, off + p.length,
        { (m.appendBlock din (off / BSIZE)).2.2 with
          img := (m.appendBlock din (off / BSIZE)).2.2.img.setBlock (m.appendBlock din (off / BSIZE)).2.1
            (Word.copy ((m.appendBlock din (off / BSIZE)).2.2.img.blk (m.appendBlock din (off / BSIZE)).2.1)
              (off - off / BSIZE * BSIZE).toUInt32 p) }) := by
  have hn1 : min p.length ((off / BSIZE + 1) * BSIZE - off) = p.length := by
    simp only [BSIZE] at hfit ⊢
    omega
  rw [iappendLoop, if_neg hp]
  dsimp only
  rw [if_pos hf]
  rcases m.appendBlock din (off / BSIZE) with ⟨din', x, m'⟩
  dsimp only
  rw [hn1, List.take_length, List.drop_length, iappendLoop_nil]

/-- `iappend` of bytes that fit in the direct block holding the end of the inode, which has a
block. -/
theorem iappend_old (inum : Nat) (hp : p ≠ []) (hf : (m.img.dinode inum).size / BSIZE < NDIRECT)
    (ha : (m.img.dinode inum).addrs ((m.img.dinode inum).size / BSIZE) ≠ 0)
    (hfit : (m.img.dinode inum).size % BSIZE + p.length ≤ BSIZE) :
    ∃ b, m.iappend inum p = .ok { m with
      img := (m.img.setBlock ((m.img.dinode inum).addrs ((m.img.dinode inum).size / BSIZE)) b).setDinode inum
        { m.img.dinode inum with size := (m.img.dinode inum).size + p.length } } := by
  have hf' : (m.img.dinode inum).size / BSIZE < MAXFILE := by
    simp only [MAXFILE, NDIRECT, NINDIRECT, BSIZE] at hf ⊢
    omega
  obtain ⟨k, hk⟩ : ∃ k, p.length = k + 1 := ⟨p.length - 1, by have := List.length_pos_iff.2 hp; omega⟩
  rw [iappend]
  dsimp only
  rw [hk, iappendLoop_fits k hp hf' hfit, appendBlock_old hf ha, Except.ok_bind, ← hk]
  exact ⟨_, rfl⟩

/-- `iappend` of bytes that fit in the direct block holding the end of the inode, which has no
block yet: it takes `freeblock`. -/
theorem iappend_new (inum : Nat) (hp : p ≠ []) (hf : (m.img.dinode inum).size / BSIZE < NDIRECT)
    (ha : (m.img.dinode inum).addrs ((m.img.dinode inum).size / BSIZE) = 0)
    (hfit : (m.img.dinode inum).size % BSIZE + p.length ≤ BSIZE) :
    ∃ b, m.iappend inum p = .ok
      { img := (m.img.setBlock m.freeblock b).setDinode inum
          { m.img.dinode inum with
            addrs := Function.update (m.img.dinode inum).addrs ((m.img.dinode inum).size / BSIZE) m.freeblock
            size := (m.img.dinode inum).size + p.length }
        freeinode := m.freeinode
        freeblock := m.freeblock + 1 } := by
  have hf' : (m.img.dinode inum).size / BSIZE < MAXFILE := by
    simp only [MAXFILE, NDIRECT, NINDIRECT, BSIZE] at hf ⊢
    omega
  obtain ⟨k, hk⟩ : ∃ k, p.length = k + 1 := ⟨p.length - 1, by have := List.length_pos_iff.2 hp; omega⟩
  rw [iappend]
  dsimp only
  rw [hk, iappendLoop_fits k hp hf' hfit, appendBlock_new hf ha, Except.ok_bind, ← hk]
  exact ⟨_, rfl⟩

end Append

/-! ### Thirty files with no bytes -/

/-- The root directory with `s` bytes of entries, all in its first block. -/
def rootAfter (s : Nat) : Disk.Dinode := ⟨T_DIR, 0, 0, 1, s, Function.update (fun _ => 0) 0 nmeta⟩

theorem addFile_empty {m : Mkfs} {f : HostFile} {s : Nat} (hf : f.data = [] ∧ 47 ∉ f.name)
    (hroot : m.img.dinode ROOTINO = rootAfter s) (hfree : ROOTINO < m.freeinode) (hs : s + 16 ≤ BSIZE) :
    ∃ m', addFile ROOTINO m f = .ok m' ∧ m'.img.dinode ROOTINO = rootAfter (s + 16) ∧
      m'.freeinode = m.freeinode + 1 ∧ m'.freeblock = m.freeblock := by
  -- `ialloc` takes an inode past the root, which keeps its entries
  have hroot₁ : (m.ialloc T_FILE).2.img.dinode ROOTINO = rootAfter s := by
    rw [ialloc, Disk.setDinode_dinode, Function.update_of_ne (Nat.ne_of_lt hfree), hroot]
  have hs' : s < BSIZE := by omega
  obtain ⟨b, hb⟩ := iappend_old (m := (m.ialloc T_FILE).2) (p := encodeDirent m.freeinode (if f.name.head? = some 95 then f.name.tail else f.name))
    ROOTINO
    (List.ne_nil_of_length_pos (by rw [length_encodeDirent]; decide))
    (by rw [hroot₁, rootAfter]; simp only [BSIZE, NDIRECT] at hs' ⊢; omega)
    (by rw [hroot₁, rootAfter]; simp only [BSIZE] at hs' ⊢; rw [Nat.div_eq_of_lt hs']; decide)
    (by rw [hroot₁, rootAfter, length_encodeDirent]; simp only [BSIZE] at hs ⊢; omega)
  -- no bytes to append after the entry
  have hadd : addFile ROOTINO m f = (m.ialloc T_FILE).2.iappend ROOTINO
      (encodeDirent m.freeinode (if f.name.head? = some 95 then f.name.tail else f.name)) := by
    rw [addFile, if_neg hf.2]
    dsimp only
    rw [hf.1]
    exact bind_pure _
  refine ⟨_, hadd.trans hb, ?_, rfl, rfl⟩
  rw [Disk.setDinode_dinode, Function.update_self, hroot₁, length_encodeDirent]
  rfl

theorem foldlM_addFile_empty :
    ∀ (files : List HostFile) (m : Mkfs) (s : Nat), (∀ f ∈ files, f.data = [] ∧ 47 ∉ f.name) →
      m.img.dinode ROOTINO = rootAfter s → ROOTINO < m.freeinode → s + 16 * files.length ≤ BSIZE →
      ∃ m', files.foldlM (addFile ROOTINO) m = .ok m' ∧ m'.img.dinode ROOTINO = rootAfter (s + 16 * files.length) ∧
        m'.freeblock = m.freeblock
  | [], m, s, _, hroot, _, _ => ⟨m, rfl, hroot, rfl⟩
  | f :: files, m, s, hf, hroot, hfree, hs => by
    rw [List.length_cons] at hs
    obtain ⟨m₁, h₁, hroot₁, hfree₁, hfb₁⟩ := addFile_empty (hf f List.mem_cons_self) hroot hfree (by omega)
    obtain ⟨m', h', hroot', hfb'⟩ := foldlM_addFile_empty files m₁ (s + 16)
      (fun g hg => hf g (List.mem_cons_of_mem _ hg)) hroot₁ (by omega) (by omega)
    refine ⟨m', ?_, ?_, by rw [hfb', hfb₁]⟩
    · rw [List.foldlM_cons, h₁, Except.ok_bind, h']
    · rw [hroot', List.length_cons]
      congr 1
      omega

/-- What `mkfs` writes for 30 host files with no bytes, whatever their names: the root's 32
entries fill its first block, the rounding makes its size two blocks with no second address, and
the bitmap marks the blocks up to the root's. -/
theorem main_thirty_empty {files : List HostFile} (hlen : files.length = 30)
    (hf : ∀ f ∈ files, f.data = [] ∧ 47 ∉ f.name) :
    ∃ d, Mkfs.main files = .ok d ∧ d.dinode ROOTINO = rootAfter (2 * BSIZE) ∧
      d.blk sb.bmapstart = Disk.mkfsBitmap (nmeta + 1) := by
  -- the root, then `.` in a new block and `..` after it
  set m₁ := ((⟨blank, 1, nmeta⟩ : Mkfs).ialloc T_DIR).2 with hm₁
  have hr₁ : m₁.img.dinode ROOTINO = ⟨T_DIR, 0, 0, 1, 0, fun _ => 0⟩ := rfl
  obtain ⟨b₁, h₁⟩ := iappend_new (m := m₁) (p := encodeDirent ROOTINO [46]) ROOTINO
    (List.ne_nil_of_length_pos (by rw [length_encodeDirent]; decide)) (by rw [hr₁]; decide) (by rw [hr₁])
    (by rw [hr₁, length_encodeDirent]; decide)
  set m₂ : Mkfs := ⟨(m₁.img.setBlock m₁.freeblock b₁).setDinode ROOTINO
    { m₁.img.dinode ROOTINO with
      addrs := Function.update (m₁.img.dinode ROOTINO).addrs ((m₁.img.dinode ROOTINO).size / BSIZE) m₁.freeblock
      size := (m₁.img.dinode ROOTINO).size + (encodeDirent ROOTINO [46]).length }, m₁.freeinode, m₁.freeblock + 1⟩
    with hm₂
  have hr₂ : m₂.img.dinode ROOTINO = rootAfter 16 := by
    rw [hm₂, Disk.setDinode_dinode, Function.update_self, hr₁, length_encodeDirent]
    rfl
  obtain ⟨b₂, h₂⟩ := iappend_old (m := m₂) (p := encodeDirent ROOTINO [46, 46]) ROOTINO
    (List.ne_nil_of_length_pos (by rw [length_encodeDirent]; decide)) (by rw [hr₂]; decide)
    (by rw [hr₂]; decide) (by rw [hr₂, length_encodeDirent]; decide)
  set m₃ : Mkfs := { m₂ with
    img := (m₂.img.setBlock ((m₂.img.dinode ROOTINO).addrs ((m₂.img.dinode ROOTINO).size / BSIZE)) b₂).setDinode
      ROOTINO { m₂.img.dinode ROOTINO with size := (m₂.img.dinode ROOTINO).size + (encodeDirent ROOTINO [46, 46]).length } }
    with hm₃
  have hr₃ : m₃.img.dinode ROOTINO = rootAfter 32 := by
    rw [hm₃, Disk.setDinode_dinode, Function.update_self, hr₂, length_encodeDirent]
    rfl
  -- the thirty entries fill the first block
  obtain ⟨m₄, h₄, hr₄, hfb₄⟩ := foldlM_addFile_empty files m₃ 32 hf hr₃ (show ROOTINO < 2 by decide) (by rw [hlen]; decide)
  rw [hlen] at hr₄
  have hfb : m₄.freeblock = nmeta + 1 := hfb₄
  refine ⟨(m₄.img.setSize ROOTINO 1024).setBlock sb.bmapstart (Disk.mkfsBitmap m₄.freeblock), ?_, ?_, ?_⟩
  · have hi : (⟨blank, 1, nmeta⟩ : Mkfs).ialloc T_DIR = (ROOTINO, m₁) := rfl
    rw [main, hi]
    dsimp only
    rw [if_neg (by decide), h₁, Except.ok_bind, h₂, Except.ok_bind, h₄, Except.ok_bind]
    rw [hr₄, balloc, if_pos (by rw [hfb]; decide)]
    rfl
  · rw [Disk.setBlock_dinode, Disk.setSize_dinode, Function.update_self, hr₄]
    rfl
  · rw [Disk.setBlock_blk, Function.update_self, hfb]

/-- With 30 host files with no bytes, whatever their names, `mkfs` exits with status 0, but the
entries of the root fill its first block exactly, the rounding makes its size two blocks, and its
second block has no address: the kernel's invariant fails on the image. -/
theorem mkfs_root_hole {files : List HostFile} (hlen : files.length = 30)
    (hf : ∀ f ∈ files, f.data = [] ∧ 47 ∉ f.name) :
    ∃ d, Mkfs.main files = .ok d ∧ (d.dinode ROOTINO).type = T_DIR ∧ (d.dinode ROOTINO).size = 2 * BSIZE ∧
      d.addrOf ROOTINO 1 = 0 ∧ ¬ Disk.BlockInv d := by
  obtain ⟨d, hmain, hdin, -⟩ := main_thirty_empty hlen hf
  refine ⟨d, hmain, by rw [hdin]; rfl, by rw [hdin]; rfl, ?_, fun h => ?_⟩
  · rw [Disk.addrOf, if_pos (by decide), hdin]
    rfl
  · -- block 1 lies below the size but has no address
    have := h.full ROOTINO (by rw [hdin]; decide) 1 (by rw [hdin]; decide)
    rw [Disk.addrOf, if_pos (by decide), hdin] at this
    exact this rfl

/-- Thirty host files named `A` to `^`, with no bytes. -/
def thirtyFiles : List HostFile := (List.range 30).map fun k => ⟨[(65 + k).toUInt8], []⟩

theorem mkfs_root_hole_thirty :
    thirtyFiles.length = 30 ∧ (∀ f ∈ thirtyFiles, f.data = [] ∧ 47 ∉ f.name) ∧
      ∃ d, Mkfs.main thirtyFiles = .ok d ∧ (d.dinode ROOTINO).type = T_DIR ∧ (d.dinode ROOTINO).size = 2 * BSIZE ∧
        d.addrOf ROOTINO 1 = 0 ∧ ¬ Disk.BlockInv d :=
  ⟨rfl, by decide, mkfs_root_hole rfl (by decide)⟩

end Mkfs

end Fs

end Xv6
