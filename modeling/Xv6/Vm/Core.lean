import Xv6.Lib.Except
import Xv6.Memlayout
import Xv6.Param

/-!
# Page tables and the page allocator (`vm.c`, `kalloc.c`, `growproc`, `exec`'s stack)

The kernel reaches all physical memory through its direct map at `KERNBASE`, so memory is modelled
as the byte at each kernel virtual address; page directories and page tables live in it as arrays
of little-endian words, as in the C code. The free list is the list of free pages, first page
first; `kfree` also writes the junk and the link that the C code leaves in a freed page.

Loops run on an explicit count: `mappages` on the number of pages from the first to the last,
which is the number of passes its `for(;;)` makes, and `allocuvm` and `deallocuvm` on `2^20`,
one pass per page of the 4 GB address space at most.

A `panic` is an `Except` error. `uva2ka` dereferences the pointer `walkpgdir` returns even when it
is 0; the CPU then reads the word at virtual address 0 of the address space it is in, which is
not the kernel's direct map: `read0` is that word.
-/

namespace Xv6

/-- Physical memory through the direct map, and the page allocator. -/
structure Vm where
  /-- The byte at each kernel virtual address. -/
  mem : UInt32 → UInt8
  /-- `kmem.freelist`, first page first. -/
  freelist : List UInt32
  /-- `end`, the first address after the kernel image (from `kernel.ld`). -/
  kend : UInt32
  /-- `data`, the start of the kernel's data (from `kernel.ld`). -/
  kdata : UInt32

namespace Vm

/-- `kfree(v)`. -/
def kfree (vm : Vm) (v : UInt32) : Except String Vm :=
  if v % PGSIZE ≠ 0 ∨ v < vm.kend ∨ V2P v ≥ PHYSTOP then throw "kfree"
  else
    pure { vm with
      -- `memset(v, 1, PGSIZE)`, then `r->next = kmem.freelist`
      mem := Word.store (Word.fill vm.mem v PGSIZE.toNat 1) v (vm.freelist.headD 0)
      freelist := v :: vm.freelist }

/-- `kalloc()`: a free page, or 0. -/
def kalloc (vm : Vm) : UInt32 × Vm :=
  match vm.freelist with
  | [] => (0, vm)
  | r :: rest => (r, { vm with freelist := rest })

/-- `walkpgdir(pgdir, va, alloc)`: the address of the PTE for `va`, or 0. -/
def walkpgdir (vm : Vm) (pgdir va : UInt32) (alloc : Bool) : UInt32 × Vm :=
  let pde := pgdir + 4 * PDX va
  if Word.load vm.mem pde &&& PTE_P ≠ 0 then (P2V (PTE_ADDR (Word.load vm.mem pde)) + 4 * PTX va, vm)
  else if !alloc then (0, vm)
  else
    let r := vm.kalloc
    if r.1 = 0 then (0, r.2)
    else
      let mem := Word.fill r.2.mem r.1 PGSIZE.toNat 0
      (r.1 + 4 * PTX va, { r.2 with mem := Word.store mem pde (V2P r.1 ||| PTE_P ||| PTE_W ||| PTE_U) })

/-- `mappages`' loop from page `a` (mapped to `pa`) to page `last`, with `k` passes left. -/
def mappagesLoop (pgdir last perm : UInt32) : Nat → UInt32 → UInt32 → Vm → Except String (Int × Vm)
  | 0, _, _, vm => pure (0, vm)
  | k + 1, a, pa, vm =>
    let r := walkpgdir vm pgdir a true
    if r.1 = 0 then pure (-1, r.2)
    else if Word.load r.2.mem r.1 &&& PTE_P ≠ 0 then throw "remap"
    else
      let vm := { r.2 with mem := Word.store r.2.mem r.1 (pa ||| perm ||| PTE_P) }
      if a = last then pure (0, vm) else mappagesLoop pgdir last perm k (a + PGSIZE) (pa + PGSIZE) vm

/-- `mappages(pgdir, va, size, pa, perm)`. -/
def mappages (vm : Vm) (pgdir va size pa perm : UInt32) : Except String (Int × Vm) :=
  let a := PGROUNDDOWN va
  let last := PGROUNDDOWN (va + size - 1)
  mappagesLoop pgdir last perm ((last - a).toNat / PGSIZE.toNat + 1) a pa vm

/-- `deallocuvm`'s loop from `a` up to `oldsz`. -/
def deallocuvmLoop (pgdir oldsz : UInt32) : Nat → UInt32 → Vm → Except String Vm
  | 0, _, vm => pure vm
  | k + 1, a, vm =>
    if a < oldsz then
      let pte := (walkpgdir vm pgdir a false).1
      -- no page table: skip to the next page directory entry
      if pte = 0 then deallocuvmLoop pgdir oldsz k (PGADDR (PDX a + 1) 0 0 - PGSIZE + PGSIZE) vm
      else if Word.load vm.mem pte &&& PTE_P ≠ 0 then
        let pa := PTE_ADDR (Word.load vm.mem pte)
        if pa = 0 then throw "kfree"
        else do
          let vm ← vm.kfree (P2V pa)
          deallocuvmLoop pgdir oldsz k (a + PGSIZE) { vm with mem := Word.store vm.mem pte 0 }
      else deallocuvmLoop pgdir oldsz k (a + PGSIZE) vm
    else pure vm

/-- `deallocuvm(pgdir, oldsz, newsz)`: the new size. -/
def deallocuvm (vm : Vm) (pgdir oldsz newsz : UInt32) : Except String (UInt32 × Vm) :=
  if newsz ≥ oldsz then pure (oldsz, vm)
  else do
    let vm ← deallocuvmLoop pgdir oldsz (NPDENTRIES * NPTENTRIES) (PGROUNDUP newsz) vm
    pure (newsz, vm)

/-- `allocuvm`'s loop from `a` up to `newsz`. -/
def allocuvmLoop (pgdir oldsz newsz : UInt32) : Nat → UInt32 → Vm → Except String (UInt32 × Vm)
  | 0, _, vm => pure (newsz, vm)
  | k + 1, a, vm =>
    if a < newsz then
      let r := vm.kalloc
      if r.1 = 0 then do
        let d ← deallocuvm r.2 pgdir newsz oldsz
        pure (0, d.2)
      else do
        let m ← mappages { r.2 with mem := Word.fill r.2.mem r.1 PGSIZE.toNat 0 } pgdir a PGSIZE (V2P r.1)
          (PTE_W ||| PTE_U)
        if m.1 < 0 then do
          let d ← deallocuvm m.2 pgdir newsz oldsz
          let vm ← d.2.kfree r.1
          pure (0, vm)
        else allocuvmLoop pgdir oldsz newsz k (a + PGSIZE) m.2
    else pure (newsz, vm)

/-- `allocuvm(pgdir, oldsz, newsz)`: the new size, or 0. -/
def allocuvm (vm : Vm) (pgdir oldsz newsz : UInt32) : Except String (UInt32 × Vm) :=
  if newsz ≥ KERNBASE then pure (0, vm)
  else if newsz < oldsz then pure (oldsz, vm)
  else allocuvmLoop pgdir oldsz newsz (NPDENTRIES * NPTENTRIES) (PGROUNDUP oldsz) vm

/-- `growproc(n)` for a process with page directory `pgdir` and size `sz`: what it returns,
`curproc->sz` afterwards, and the machine. In `sz + n` the `int` is converted to `uint`. -/
def growproc (vm : Vm) (pgdir sz : UInt32) (n : Int) : Except String (Int × UInt32 × Vm) :=
  if n > 0 then do
    let (sz', vm) ← allocuvm vm pgdir sz (sz + UInt32.ofInt n)
    if sz' = 0 then pure (-1, sz, vm) else pure (0, sz', vm)
  else if n < 0 then do
    let (sz', vm) ← deallocuvm vm pgdir sz (sz + UInt32.ofInt n)
    if sz' = 0 then pure (-1, sz, vm) else pure (0, sz', vm)
  else pure (0, sz, vm)

/-- `sys_sbrk()` once `argint` has fetched `n`: the old size as an `int`, or -1. -/
def sbrk (vm : Vm) (pgdir sz : UInt32) (n : Int) : Except String (Int × UInt32 × Vm) := do
  let (r, sz', vm) ← growproc vm pgdir sz n
  if r < 0 then pure (-1, sz', vm) else pure (sz.toInt32.toInt, sz', vm)

/-- `clearpteu(pgdir, uva)`: the page at `uva` stays mapped but user code may not touch it. -/
def clearpteu (vm : Vm) (pgdir uva : UInt32) : Except String Vm :=
  let pte := (walkpgdir vm pgdir uva false).1
  if pte = 0 then throw "clearpteu"
  else pure { vm with mem := Word.store vm.mem pte (Word.load vm.mem pte &&& ~~~PTE_U) }

/-- `freevm`'s loop over the page directory entries from `i` on. -/
def freevmLoop (pgdir : UInt32) : Nat → UInt32 → Vm → Except String Vm
  | 0, _, vm => pure vm
  | k + 1, i, vm =>
    let e := Word.load vm.mem (pgdir + 4 * i)
    if e &&& PTE_P ≠ 0 then do
      let vm ← vm.kfree (P2V (PTE_ADDR e))
      freevmLoop pgdir k (i + 1) vm
    else freevmLoop pgdir k (i + 1) vm

/-- `freevm(pgdir)`. -/
def freevm (vm : Vm) (pgdir : UInt32) : Except String Vm :=
  if pgdir = 0 then throw "freevm: no pgdir"
  else do
    let d ← deallocuvm vm pgdir KERNBASE 0
    let vm ← freevmLoop pgdir NPDENTRIES 0 d.2
    vm.kfree pgdir

/-- `kmap[]`: virtual start, physical start, physical end and permissions of each kernel mapping. -/
def kmap (kdata : UInt32) : List (UInt32 × UInt32 × UInt32 × UInt32) :=
  [(KERNBASE, 0, EXTMEM, PTE_W), (KERNLINK, V2P KERNLINK, V2P kdata, 0),
    (kdata, V2P kdata, PHYSTOP, PTE_W), (DEVSPACE, DEVSPACE, 0, PTE_W)]

/-- `setupkvm`'s loop over the kernel mappings. -/
def setupkvmLoop (pgdir : UInt32) : List (UInt32 × UInt32 × UInt32 × UInt32) → Vm →
    Except String (UInt32 × Vm)
  | [], vm => pure (pgdir, vm)
  | (virt, ps, pe, perm) :: ks, vm => do
    let m ← mappages vm pgdir virt (pe - ps) ps perm
    if m.1 < 0 then do
      let vm ← freevm m.2 pgdir
      pure (0, vm)
    else setupkvmLoop pgdir ks m.2

/-- `setupkvm()`: a new page directory with the kernel mappings, or 0. -/
def setupkvm (vm : Vm) : Except String (UInt32 × Vm) :=
  let r := vm.kalloc
  if r.1 = 0 then pure (0, r.2)
  else if P2V PHYSTOP > DEVSPACE then throw "PHYSTOP too high"
  else setupkvmLoop r.1 (kmap vm.kdata) { r.2 with mem := Word.fill r.2.mem r.1 PGSIZE.toNat 0 }

/-- `uva2ka(pgdir, uva)`; `read0` is the word at virtual address 0 of the current address space,
which `*pte` reads when `walkpgdir` returns 0. -/
def uva2ka (vm : Vm) (pgdir uva read0 : UInt32) : UInt32 :=
  let pte := (walkpgdir vm pgdir uva false).1
  let e := if pte = 0 then read0 else Word.load vm.mem pte
  if e &&& PTE_P = 0 then 0
  else if e &&& PTE_U = 0 then 0
  else P2V (PTE_ADDR e)

/-- `copyout`'s loop, one page per pass: `buf` holds the bytes left to copy to `va`. -/
def copyoutLoop (pgdir read0 : UInt32) : Nat → UInt32 → List UInt8 → Vm → Int × Vm
  | 0, _, _, vm => (0, vm)
  | k + 1, va, buf, vm =>
    if buf = [] then (0, vm)
    else
      let va0 := PGROUNDDOWN va
      let pa0 := uva2ka vm pgdir va0 read0
      if pa0 = 0 then (-1, vm)
      else
        let n := min (PGSIZE - (va - va0)).toNat buf.length
        copyoutLoop pgdir read0 k (va0 + PGSIZE) (buf.drop n)
          { vm with mem := Word.copy vm.mem (pa0 + (va - va0)) (buf.take n) }

/-- `copyout(pgdir, va, p, len)`, `buf` being the `len` bytes at `p`. Each pass copies at least one
byte, so `len` passes suffice. -/
def copyout (vm : Vm) (pgdir va : UInt32) (buf : List UInt8) (read0 : UInt32) : Int × Vm :=
  copyoutLoop pgdir read0 buf.length va buf vm

/-- `exec`'s loop that pushes the argument strings (each without its NUL) onto the new stack:
the final `sp` and the strings' addresses, or `none` for `goto bad`. -/
def execArgs (pgdir read0 : UInt32) : List (List UInt8) → Nat → UInt32 → Vm →
    Option (UInt32 × List UInt32) × Vm
  | [], _, sp, vm => (some (sp, []), vm)
  | s :: rest, argc, sp, vm =>
    if argc ≥ MAXARG then (none, vm)
    else
      let sp := (sp - (s.length.toUInt32 + 1)) &&& ~~~3
      let r := copyout vm pgdir sp (s ++ [0]) read0
      if r.1 < 0 then (none, r.2)
      else
        match execArgs pgdir read0 rest (argc + 1) sp r.2 with
        | (some (sp', us), vm) => (some (sp', sp :: us), vm)
        | (none, vm) => (none, vm)

/-- `exec` once the segments are loaded, from the image size `sz`: two pages at the next page
boundary, the first made inaccessible and the second the stack, then the argument strings pushed
from the top of the stack. -/
def execStack (vm : Vm) (pgdir sz read0 : UInt32) (argv : List (List UInt8)) :
    Except String (Option (UInt32 × List UInt32) × Vm) := do
  let sz := PGROUNDUP sz
  let r ← vm.allocuvm pgdir sz (sz + 2 * PGSIZE)
  if r.1 = 0 then pure (none, r.2)
  else
    let vm ← r.2.clearpteu pgdir (r.1 - 2 * PGSIZE)
    pure (execArgs pgdir read0 argv 0 r.1 vm)

/-! ### What each primitive does -/

section Spec

variable {vm : Vm}

theorem kalloc_cons {r : UInt32} {rest : List UInt32} (h : vm.freelist = r :: rest) :
    vm.kalloc = (r, { vm with freelist := rest }) := by
  simp [kalloc, h]

theorem kalloc_nil (h : vm.freelist = []) : vm.kalloc = (0, vm) := by
  simp [kalloc, h]

@[simp] theorem kalloc_mem : vm.kalloc.2.mem = vm.mem := by
  unfold kalloc
  split <;> rfl

@[simp] theorem kalloc_freelist : vm.kalloc.2.freelist = vm.freelist.tail := by
  unfold kalloc
  split <;> simp_all

theorem freelist_eq_kalloc (h : vm.kalloc.1 ≠ 0) : vm.freelist = vm.kalloc.1 :: vm.kalloc.2.freelist := by
  cases hfl : vm.freelist with
  | nil => simp [kalloc_nil hfl] at h
  | cons r rest => simp [kalloc_cons hfl]

theorem kalloc_mem_freelist (h : vm.kalloc.1 ≠ 0) : vm.kalloc.1 ∈ vm.freelist := by
  rw [freelist_eq_kalloc h]
  exact List.mem_cons_self

theorem mem_freelist_of_kalloc {q : UInt32} (h : q ∈ vm.kalloc.2.freelist) : q ∈ vm.freelist := by
  rw [kalloc_freelist] at h
  exact List.mem_of_mem_tail h
theorem kfree_ok {v : UInt32} (halign : v % PGSIZE = 0) (hend : vm.kend ≤ v) (hphys : V2P v < PHYSTOP) :
    vm.kfree v = .ok { vm with
      mem := Word.store (Word.fill vm.mem v PGSIZE.toNat 1) v (vm.freelist.headD 0)
      freelist := v :: vm.freelist } := by
  rw [kfree, if_neg]
  · rfl
  · rintro (h | h | h)
    · exact h halign
    · exact absurd hend (UInt32.not_le.2 h)
    · exact absurd hphys (UInt32.not_lt.2 h)

theorem walkpgdir_present {pgdir va : UInt32} (alloc : Bool)
    (h : Word.load vm.mem (pgdir + 4 * PDX va) &&& PTE_P ≠ 0) :
    vm.walkpgdir pgdir va alloc = (P2V (PTE_ADDR (Word.load vm.mem (pgdir + 4 * PDX va))) + 4 * PTX va, vm) :=
  if_pos h

theorem walkpgdir_absent {pgdir va : UInt32} (h : Word.load vm.mem (pgdir + 4 * PDX va) &&& PTE_P = 0) :
    vm.walkpgdir pgdir va false = (0, vm) := by
  rw [walkpgdir, if_neg (not_not.2 h)]
  rfl

theorem walkpgdir_alloc_zero {pgdir va : UInt32} (h : Word.load vm.mem (pgdir + 4 * PDX va) &&& PTE_P = 0)
    (hk : vm.kalloc.1 = 0) : vm.walkpgdir pgdir va true = (0, vm.kalloc.2) := by
  rw [walkpgdir, if_neg (not_not.2 h)]
  simp [hk]

/-- No page table: the first free page is zeroed and entered as the page table. -/
theorem walkpgdir_alloc {pgdir va : UInt32} (h : Word.load vm.mem (pgdir + 4 * PDX va) &&& PTE_P = 0)
    (hk : vm.kalloc.1 ≠ 0) :
    vm.walkpgdir pgdir va true = (vm.kalloc.1 + 4 * PTX va, { vm.kalloc.2 with
      mem := Word.store (Word.fill vm.mem vm.kalloc.1 PGSIZE.toNat 0) (pgdir + 4 * PDX va)
        (V2P vm.kalloc.1 ||| PTE_P ||| PTE_W ||| PTE_U) }) := by
  rw [walkpgdir, if_neg (not_not.2 h)]
  simp [hk]

end Spec

end Vm

end Xv6
