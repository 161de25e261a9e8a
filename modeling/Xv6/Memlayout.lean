import Xv6.Lib.Word

/-!
# Memory layout and paging constants (`memlayout.h`, `mmu.h`)

Addresses, page-table entries and the macros that take them apart are 32-bit unsigned values in
the kernel; they are `UInt32` here, so every sum wraps as it does in the C code.
-/

namespace Xv6

/-- Start of extended memory. -/
def EXTMEM : UInt32 := 0x100000
/-- Top of physical memory. -/
def PHYSTOP : UInt32 := 0xE000000
/-- Other devices are at high addresses. -/
def DEVSPACE : UInt32 := 0xFE000000
/-- First kernel virtual address. -/
def KERNBASE : UInt32 := 0x80000000
/-- Address where the kernel is linked. -/
def KERNLINK : UInt32 := KERNBASE + EXTMEM

/-- Kernel virtual to physical address. -/
def V2P (a : UInt32) : UInt32 := a - KERNBASE
/-- Physical to kernel virtual address. -/
def P2V (a : UInt32) : UInt32 := a + KERNBASE

/-- Bytes mapped by a page. -/
def PGSIZE : UInt32 := 4096
/-- Page directory entries per page directory. -/
def NPDENTRIES : Nat := 1024
/-- Page table entries per page table. -/
def NPTENTRIES : Nat := 1024

def PGROUNDUP (sz : UInt32) : UInt32 := (sz + PGSIZE - 1) &&& ~~~(PGSIZE - 1)
def PGROUNDDOWN (a : UInt32) : UInt32 := a &&& ~~~(PGSIZE - 1)

/-- Page directory index of a virtual address. -/
def PDX (va : UInt32) : UInt32 := (va >>> 22) &&& 0x3FF
/-- Page table index of a virtual address. -/
def PTX (va : UInt32) : UInt32 := (va >>> 12) &&& 0x3FF
/-- Construct a virtual address from indexes and offset. -/
def PGADDR (d t o : UInt32) : UInt32 := d <<< 22 ||| t <<< 12 ||| o

/-- Present. -/
def PTE_P : UInt32 := 0x001
/-- Writeable. -/
def PTE_W : UInt32 := 0x002
/-- User. -/
def PTE_U : UInt32 := 0x004

/-- Address in a page table or page directory entry. -/
def PTE_ADDR (pte : UInt32) : UInt32 := pte &&& ~~~0xFFF
/-- Flags in a page table or page directory entry. -/
def PTE_FLAGS (pte : UInt32) : UInt32 := pte &&& 0xFFF

/-! ### The macros as arithmetic -/

theorem toNat_PGROUNDDOWN (a : UInt32) : (PGROUNDDOWN a).toNat = a.toNat / 4096 * 4096 :=
  Word.toNat_and_not a (PGSIZE - 1) 12 (by decide) (by decide) (by decide)

theorem toNat_PGROUNDUP (sz : UInt32) :
    (PGROUNDUP sz).toNat = (sz.toNat + 4095) % 2 ^ 32 / 4096 * 4096 := by
  rw [PGROUNDUP, Word.toNat_and_not _ (PGSIZE - 1) 12 (by decide) (by decide) (by decide),
    UInt32.toNat_sub, UInt32.toNat_add]
  simp only [PGSIZE, UInt32.reduceToNat]
  omega

theorem toNat_add_PGSIZE {a : UInt32} (h : a.toNat < 2 ^ 32 - 4096) : (a + PGSIZE).toNat = a.toNat + 4096 := by
  rw [UInt32.toNat_add]
  simp only [PGSIZE, UInt32.reduceToNat]
  omega

theorem toNat_PTE_ADDR (e : UInt32) : (PTE_ADDR e).toNat = e.toNat / 4096 * 4096 :=
  Word.toNat_and_not e 0xFFF 12 (by decide) (by decide) (by decide)

theorem toNat_PDX (va : UInt32) : (PDX va).toNat = va.toNat / 4194304 := by
  rw [PDX, Word.toNat_shiftRight_and va 22 0x3FF 10 (by decide) (by decide)]
  have := va.toNat_lt
  simp only [UInt32.reduceToNat]
  omega

theorem toNat_PTX (va : UInt32) : (PTX va).toNat = va.toNat / 4096 % 1024 :=
  Word.toNat_shiftRight_and va 12 0x3FF 10 (by decide) (by decide)

theorem PTE_P_ne_zero (e : UInt32) : e &&& PTE_P ≠ 0 ↔ e.toNat % 2 = 1 := by
  simpa using Word.and_two_pow_ne_zero e PTE_P 0 (by decide)

theorem PTE_U_ne_zero (e : UInt32) : e &&& PTE_U ≠ 0 ↔ e.toNat / 4 % 2 = 1 :=
  Word.and_two_pow_ne_zero e PTE_U 2 (by decide)

@[simp] theorem P2V_V2P (a : UInt32) : P2V (V2P a) = a := by
  simp [P2V, V2P]

@[simp] theorem V2P_P2V (a : UInt32) : V2P (P2V a) = a := by
  simp [P2V, V2P]

end Xv6
