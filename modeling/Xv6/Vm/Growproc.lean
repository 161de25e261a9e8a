import Xv6.Vm.Core

/-!
# Shrinking a process (`growproc`, `deallocuvm`)

`growproc(n)` with `n < 0` calls `deallocuvm(pgdir, sz, sz + n)` and treats a result of 0 as
failure. But `deallocuvm` returns its `newsz`, which is 0 exactly when the process shrinks to
nothing, after it has freed the pages; and `sz + n` is computed in `uint`, so for `n < -sz` it
wraps above `sz` and `deallocuvm` returns `sz` untouched, which `growproc` takes for success.
-/

namespace Xv6

namespace Vm

variable {vm : Vm} {pgdir : UInt32}

theorem deallocuvm_of_le {oldsz newsz : UInt32} (h : oldsz ≤ newsz) :
    vm.deallocuvm pgdir oldsz newsz = .ok (oldsz, vm) := by
  rw [deallocuvm, if_pos h]
  rfl

/-- `sz + n` in `uint`, for an `int` `n` with `sz + n < 0`, wraps to above `sz`. -/
theorem le_add_ofInt {sz : UInt32} {n : Int} (hn : -2 ^ 31 ≤ n) (hneg : (sz.toNat : Int) + n < 0) :
    sz ≤ sz + UInt32.ofInt n := by
  rw [UInt32.le_iff_toNat_le, UInt32.toNat_add]
  simp only [UInt32.ofInt, UInt32.toNat_ofNat']
  have := sz.toNat_lt
  omega

/-- `growproc(n)` with `sz + n < 0` returns 0 and changes nothing: the size stays `sz`, not
`sz + n`. -/
theorem growproc_below_zero {sz : UInt32} {n : Int} (hsz : 0 < sz) (hn : -2 ^ 31 ≤ n)
    (hneg : (sz.toNat : Int) + n < 0) : vm.growproc pgdir sz n = .ok (0, sz, vm) := by
  have hlt : n < 0 := by omega
  rw [growproc, if_neg (by omega), if_pos hlt, deallocuvm_of_le (le_add_ofInt hn hneg)]
  simp only [Except.ok_bind]
  have hsz0 : sz ≠ 0 := by
    rintro rfl
    exact absurd hsz (by decide)
  rw [if_neg hsz0]
  rfl

theorem P2V_PTE_ADDR_aligned (e : UInt32) : P2V (PTE_ADDR e) % PGSIZE = 0 := by
  apply UInt32.toNat_inj.1
  rw [UInt32.toNat_mod, P2V, UInt32.toNat_add, toNat_PTE_ADDR]
  simp only [KERNBASE, PGSIZE, UInt32.reduceToNat]
  omega

/-- `growproc(-sz)` for a one-page process whose page is present: `deallocuvm` frees the page and
clears its PTE, returns the new size 0, and `growproc` returns -1 with `curproc->sz` unchanged. -/
theorem growproc_to_zero {t p : UInt32}
    (hpde : Word.load vm.mem pgdir &&& PTE_P ≠ 0) (ht : P2V (PTE_ADDR (Word.load vm.mem pgdir)) = t)
    (ht0 : t ≠ 0) (hpte : Word.load vm.mem t &&& PTE_P ≠ 0) (hpa : PTE_ADDR (Word.load vm.mem t) ≠ 0)
    (hp : P2V (PTE_ADDR (Word.load vm.mem t)) = p) (hend : vm.kend ≤ p) (hphys : V2P p < PHYSTOP) :
    ∃ vm', vm.growproc pgdir PGSIZE (-4096) = .ok (-1, PGSIZE, vm') ∧
      vm'.freelist = p :: vm.freelist ∧ Word.load vm'.mem t = 0 := by
  have hpdx : pgdir + 4 * PDX 0 = pgdir := by
    rw [show PDX 0 = 0 by decide, UInt32.mul_zero, UInt32.add_zero]
  have hptx : (4 : UInt32) * PTX 0 = 0 := by decide
  -- the walk of virtual address 0 finds the PTE at `t`
  have hwalk : vm.walkpgdir pgdir 0 false = (t, vm) := by
    rw [walkpgdir_present false (by rw [hpdx]; exact hpde), hpdx, ht, hptx, UInt32.add_zero]
  have hfree := kfree_ok (hp ▸ P2V_PTE_ADDR_aligned _) hend hphys
  let vm₁ : Vm := { vm with
    mem := Word.store (Word.fill vm.mem p PGSIZE.toNat 1) p (vm.freelist.headD 0)
    freelist := p :: vm.freelist }
  refine ⟨{ vm₁ with mem := Word.store vm₁.mem t 0 }, ?_, rfl, Word.load_store_self _ _⟩
  have hshrink : PGSIZE + UInt32.ofInt (-4096) = 0 := by decide
  rw [growproc, if_neg (by omega), if_pos (by omega), hshrink, deallocuvm, if_neg (by decide)]
  -- one pass of the loop: the page at 0 is freed, then `a = PGSIZE` ends it
  have hfuel : NPDENTRIES * NPTENTRIES = 1048574 + 1 + 1 := rfl
  have hloop : deallocuvmLoop pgdir PGSIZE (1048574 + 1 + 1) (PGROUNDUP 0) vm =
      .ok { vm₁ with mem := Word.store vm₁.mem t 0 } := by
    rw [show PGROUNDUP 0 = 0 by decide, deallocuvmLoop, if_pos (by decide), hwalk]
    simp only [if_neg ht0, if_pos hpte, if_neg hpa, hp, hfree, Except.ok_bind, UInt32.zero_add]
    rw [deallocuvmLoop, if_neg (by decide)]
    rfl
  rw [hfuel, hloop]
  rfl

end Vm

/-- `growproc(n)` for `n < 0` misreports both ends of its range. Shrinking a one-page process to
size 0 frees its page and clears its PTE, yet returns -1 with `curproc->sz` unchanged; and any
`n` with `sz + n < 0` returns 0 with the size left at `sz`. -/
theorem growproc_shrink_diverges (vm : Vm) (pgdir t p : UInt32)
    (hpde : Word.load vm.mem pgdir &&& PTE_P ≠ 0) (ht : P2V (PTE_ADDR (Word.load vm.mem pgdir)) = t)
    (ht0 : t ≠ 0) (hpte : Word.load vm.mem t &&& PTE_P ≠ 0) (hpa : PTE_ADDR (Word.load vm.mem t) ≠ 0)
    (hp : P2V (PTE_ADDR (Word.load vm.mem t)) = p) (hend : vm.kend ≤ p) (hphys : V2P p < PHYSTOP) :
    (∃ vm', vm.growproc pgdir PGSIZE (-4096) = .ok (-1, PGSIZE, vm') ∧
      vm'.freelist = p :: vm.freelist ∧ Word.load vm'.mem t = 0) ∧
    (∀ (sz : UInt32) (n : Int), 0 < sz → -2 ^ 31 ≤ n → (sz.toNat : Int) + n < 0 →
      vm.growproc pgdir sz n = .ok (0, sz, vm)) :=
  ⟨Vm.growproc_to_zero hpde ht ht0 hpte hpa hp hend hphys,
    fun _ _ hsz hn hneg => Vm.growproc_below_zero hsz hn hneg⟩

/-- A one-page process: its page directory at `0x80300000`, whose first entry names the page table
at `0x80301000`, whose first entry maps the page at `0x80302000`. -/
def onePageVm : Vm where
  mem := Word.store (Word.store (fun _ => 0) 0x80300000 0x00301007) 0x80301000 0x00302007
  freelist := []
  kend := 0x80200000
  kdata := 0x80108000

theorem growproc_shrink_diverges_onePage :
    (∃ vm', onePageVm.growproc 0x80300000 PGSIZE (-4096) = .ok (-1, PGSIZE, vm') ∧
      vm'.freelist = 0x80302000 :: onePageVm.freelist ∧ Word.load vm'.mem 0x80301000 = 0) ∧
    (∀ (sz : UInt32) (n : Int), 0 < sz → -2 ^ 31 ≤ n → (sz.toNat : Int) + n < 0 →
      onePageVm.growproc 0x80300000 sz n = .ok (0, sz, onePageVm)) :=
  growproc_shrink_diverges onePageVm 0x80300000 0x80301000 0x80302000 (by decide) (by decide)
    (by decide) (by decide) (by decide) (by decide) (by decide) (by decide)

end Xv6
