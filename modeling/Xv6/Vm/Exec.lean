import Xv6.Vm.Frame

/-!
# `exec`'s stack and a missing page table

`exec` pushes each argument string at `sp = (sp - (len + 1)) & ~3` and checks nothing about `sp`
but what `copyout` returns. A string longer than the image moves `sp` below 0, into the part of
the new address space from `P2V(PHYSTOP)` up to `DEVSPACE` that has no page table. There
`walkpgdir` returns 0 and `uva2ka` dereferences it: the word at virtual address 0 of the caller's
address space becomes the PTE, and `copyout` copies the string into the page that word names.
The string always reaches up to the device pages at `DEVSPACE`, which user code may not touch, so
`copyout` then fails and `exec` returns -1 with the stray bytes written (`exec_fails_after_stray_write`).
-/

namespace Xv6

namespace Vm

variable {vm : Vm} {pgdir read0 : UInt32}

/-- No page table for `uva`: `uva2ka` takes the word at virtual address 0 for the PTE. -/
theorem uva2ka_no_table {uva : UInt32} (h : vm.pde pgdir (PDX uva) &&& PTE_P = 0) :
    vm.uva2ka pgdir uva read0 =
      if read0 &&& PTE_P = 0 then 0 else if read0 &&& PTE_U = 0 then 0 else P2V (PTE_ADDR read0) := by
  rw [uva2ka, walkpgdir_absent h]
  rfl

/-- A page table for `uva` whose PTE lacks `PTE_U`: `uva2ka` refuses the page. -/
theorem uva2ka_not_user {uva : UInt32} (h : vm.pde pgdir (PDX uva) &&& PTE_P ≠ 0)
    (ht : P2V (PTE_ADDR (vm.pde pgdir (PDX uva))) + 4 * PTX uva ≠ 0)
    (hu : Word.load vm.mem (P2V (PTE_ADDR (vm.pde pgdir (PDX uva))) + 4 * PTX uva) &&& PTE_U = 0) :
    vm.uva2ka pgdir uva read0 = 0 := by
  unfold uva2ka
  rw [walkpgdir_present false h]
  unfold pde at ht hu
  dsimp only
  rw [if_neg ht]
  by_cases hp : Word.load vm.mem (P2V (PTE_ADDR (Word.load vm.mem (pgdir + 4 * PDX uva))) + 4 * PTX uva) &&& PTE_P = 0
  · rw [if_pos hp]
  · rw [if_neg hp, if_pos hu]

/-- A pass of `copyout`'s loop over a page that `uva2ka` gives: the bytes up to the end of the page
are copied there, and the loop goes on at the next page. -/
theorem copyoutLoop_page {va : UInt32} {buf : List UInt8} {k : Nat} (hb : buf ≠ [])
    (hpa : vm.uva2ka pgdir (PGROUNDDOWN va) read0 ≠ 0) :
    copyoutLoop pgdir read0 (k + 1) va buf vm =
      copyoutLoop pgdir read0 k (PGROUNDDOWN va + PGSIZE)
        (buf.drop (min (PGSIZE - (va - PGROUNDDOWN va)).toNat buf.length))
        { vm with
          mem := Word.copy vm.mem (vm.uva2ka pgdir (PGROUNDDOWN va) read0 + (va - PGROUNDDOWN va))
            (buf.take (min (PGSIZE - (va - PGROUNDDOWN va)).toNat buf.length)) } := by
  simp only [copyoutLoop, if_neg hb, if_neg hpa]

theorem copyoutLoop_fail {va : UInt32} {buf : List UInt8} {k : Nat} (hb : buf ≠ [])
    (hpa : vm.uva2ka pgdir (PGROUNDDOWN va) read0 = 0) : copyoutLoop pgdir read0 (k + 1) va buf vm = (-1, vm) := by
  simp only [copyoutLoop, if_neg hb, if_pos hpa]

/-- What `exec` builds before it pushes the arguments keeps the hole: the stack below 4 MB is mapped
through entry 0, and the arguments are pushed from the top of the stack. -/
theorem execStack_hole {sz : UInt32} {argv : List (List UInt8)} {r : Option (UInt32 × List UInt32) × Vm}
    (h : Hole vm pgdir) (hsz : (PGROUNDUP sz).toNat + 8192 ≤ 0x400000)
    (he : vm.execStack pgdir sz read0 argv = .ok r) :
    r.1 = none ∨
      ∃ vm', Hole vm' pgdir ∧ r = execArgs pgdir read0 argv 0 (PGROUNDUP sz + 2 * PGSIZE) vm' := by
  unfold execStack at he
  rw [Except.bind_eq_ok] at he
  obtain ⟨⟨sz', vm₁⟩, ha, he⟩ := he
  dsimp only at he
  by_cases h0 : sz' = 0
  · -- `allocuvm` failed
    rw [if_pos h0, Except.pure_eq_ok] at he
    exact Or.inl (by rw [← Except.ok.inj he])
  rw [if_neg h0, Except.bind_eq_ok] at he
  obtain ⟨vm₂, hc, he⟩ := he
  have hnew : (PGROUNDUP sz + 2 * PGSIZE).toNat = (PGROUNDUP sz).toNat + 8192 := by
    simp only [UInt32.toNat_add, UInt32.toNat_mul, PGSIZE, UInt32.reduceToNat]
    omega
  obtain ⟨hsz', -⟩ := allocuvm_frame h.ok (hnew ▸ hsz) ha h0
  have hle : PGROUNDUP sz ≤ PGROUNDUP sz + 2 * PGSIZE := by
    rw [UInt32.le_iff_toNat_le, hnew]
    omega
  rw [hsz' hle] at he
  exact Or.inr ⟨vm₂, (h.allocuvm (hnew ▸ hsz) ha h0).clearpteu (hsz' hle ▸ hc), (Except.ok.inj he).symm⟩

end Vm

/-- `exec` for a one-page image and an argument of 40 MB: the stack pointer wraps to `0xFD802FFC`,
in page directory entry 1014, for which a new directory has no page table. `copyout` then takes the
word at virtual address 0 of the caller for the PTE and, if it reads as present and user, copies the
first 4 bytes of the string into the page that word names. -/
theorem exec_copyout_null_pte (vm : Vm) (pgdir read0 : UInt32) (s : List UInt8)
    (hpde : vm.pde pgdir 1014 &&& PTE_P = 0) (hs : s.length = 41943040)
    (hp : read0 &&& PTE_P ≠ 0) (hu : read0 &&& PTE_U ≠ 0) (hpa : P2V (PTE_ADDR read0) ≠ 0) :
    (12288 - (s.length.toUInt32 + 1)) &&& ~~~3 = 0xFD802FFC ∧
    vm.uva2ka pgdir 0xFD802000 read0 = P2V (PTE_ADDR read0) ∧
    vm.copyout pgdir 0xFD802FFC (s ++ [0]) read0 =
      Vm.copyoutLoop pgdir read0 s.length 0xFD803000 ((s ++ [0]).drop 4)
        { vm with mem := Word.copy vm.mem (P2V (PTE_ADDR read0) + 0xFFC) ((s ++ [0]).take 4) } := by
  have hsp : (12288 - (s.length.toUInt32 + 1)) &&& ~~~3 = (0xFD802FFC : UInt32) := by
    rw [hs]
    decide
  have hua : vm.uva2ka pgdir 0xFD802000 read0 = P2V (PTE_ADDR read0) := by
    rw [Vm.uva2ka_no_table (by rw [show PDX 0xFD802000 = 1014 by decide]; exact hpde), if_neg hp, if_neg hu]
  refine ⟨hsp, hua, ?_⟩
  -- the first pass: 4 bytes up to the end of the page at `0xFD802000`
  have hdown : PGROUNDDOWN 0xFD802FFC = 0xFD802000 := by decide
  have hn : min (PGSIZE - (0xFD802FFC - PGROUNDDOWN 0xFD802FFC)).toNat (s ++ [0]).length = 4 := by
    rw [hdown, List.length_append, hs]
    decide
  rw [Vm.copyout, List.length_append, List.length_singleton,
    Vm.copyoutLoop_page (by simp) (by rw [hdown, hua]; exact hpa), hn, hdown, hua,
    show (0xFD802000 : UInt32) + PGSIZE = 0xFD803000 by decide,
    show (0xFD802FFC : UInt32) - 0xFD802000 = 0xFFC by decide]

/-- An argument of 40 MB. -/
def longArg : List UInt8 := List.replicate 41943040 97

/-- The caller's first word reads `0x04244c8d`, the bytes of `lea 0x4(%esp),%ecx`: present and user,
naming physical page `0x04244000`. -/
theorem exec_copyout_null_pte_lea :
    (12288 - (longArg.length.toUInt32 + 1)) &&& ~~~3 = 0xFD802FFC ∧
    Vm.uva2ka ⟨fun _ => 0, [], 0x80200000, 0x80108000⟩ 0x80300000 0xFD802000 0x04244c8d =
      P2V (PTE_ADDR 0x04244c8d) ∧
    Vm.copyout ⟨fun _ => 0, [], 0x80200000, 0x80108000⟩ 0x80300000 0xFD802FFC (longArg ++ [0]) 0x04244c8d =
      Vm.copyoutLoop 0x80300000 0x04244c8d longArg.length 0xFD803000 ((longArg ++ [0]).drop 4)
        ⟨Word.copy (fun _ => 0) (P2V (PTE_ADDR 0x04244c8d) + 0xFFC) ((longArg ++ [0]).take 4), [],
          0x80200000, 0x80108000⟩ :=
  exec_copyout_null_pte ⟨fun _ => 0, [], 0x80200000, 0x80108000⟩ 0x80300000 0x04244c8d longArg
    (by decide) List.length_replicate (by decide) (by decide) (by decide)

/-- A string of `33566975` bytes is pushed at `0xFDFFFF00`, 256 bytes below `DEVSPACE`, in page
directory entry 1015, for which a new directory has no page table. The first pass of `copyout`
takes the caller's word at virtual address 0 for the PTE and copies 256 bytes of the string to the
top of the page that word names; the second meets the device page, which user code may not touch,
so `copyout` fails and the argument loop goes to `bad`, with those 256 bytes written. -/
theorem exec_fails_after_stray_write (vm : Vm) (pgdir read0 : UInt32) (s : List UInt8)
    (hs : s.length = 33566975) (hpd : pgdir.toNat % 4096 = 0)
    (hpde : vm.pde pgdir 1015 &&& PTE_P = 0) (hdev : vm.pde pgdir 1016 &&& PTE_P ≠ 0)
    (hT0 : P2V (PTE_ADDR (vm.pde pgdir 1016)) ≠ 0)
    (hdevu : Word.load vm.mem (P2V (PTE_ADDR (vm.pde pgdir 1016))) &&& PTE_U = 0)
    (hp : read0 &&& PTE_P ≠ 0) (hu : read0 &&& PTE_U ≠ 0) (hpa : P2V (PTE_ADDR read0) ≠ 0)
    (hdir : P2V (PTE_ADDR read0) ≠ pgdir) (htab : P2V (PTE_ADDR read0) ≠ P2V (PTE_ADDR (vm.pde pgdir 1016))) :
    Vm.execArgs pgdir read0 [s] 0 12288 vm =
      (none, { vm with mem := Word.copy vm.mem (P2V (PTE_ADDR read0) + 0xF00) ((s ++ [0]).take 256) }) := by
  have hP := Vm.toNat_P2V_PTE_ADDR_mod read0
  have hT := Vm.toNat_P2V_PTE_ADDR_mod (vm.pde pgdir 1016)
  have hsp : (12288 - (s.length.toUInt32 + 1)) &&& ~~~3 = (0xFDFFFF00 : UInt32) := by
    rw [hs]
    decide
  have hua : vm.uva2ka pgdir 0xFDFFF000 read0 = P2V (PTE_ADDR read0) := by
    rw [Vm.uva2ka_no_table (by rw [show PDX 0xFDFFF000 = 1015 by decide]; exact hpde), if_neg hp, if_neg hu]
  -- the copy stays inside the page the caller's word names
  have hkeep : ∀ t k : UInt32, t.toNat % 4096 = 0 → k < 1024 → P2V (PTE_ADDR read0) ≠ t →
      Word.load (Word.copy vm.mem (P2V (PTE_ADDR read0) + 0xF00) ((s ++ [0]).take 256)) (t + 4 * k) =
        Word.load vm.mem (t + 4 * k) := fun t k ht hk hne =>
    Word.load_copy_of_page_ne hP (by simp only [List.length_take, UInt32.reduceToNat]; omega) (Vm.entry_mod_four ht hk)
      (by rw [Vm.entry_page ht hk]; exact Vm.page_ne ht hP (Ne.symm hne))
  have hdev₁ : Vm.uva2ka { vm with
      mem := Word.copy vm.mem (P2V (PTE_ADDR read0) + 0xF00) ((s ++ [0]).take 256) } pgdir 0xFE000000 read0 = 0 := by
    have hpde₁ : Word.load (Word.copy vm.mem (P2V (PTE_ADDR read0) + 0xF00) ((s ++ [0]).take 256))
        (pgdir + 4 * 1016) = vm.pde pgdir 1016 := hkeep pgdir 1016 hpd (by decide) hdir
    have hpte := hkeep _ 0 hT (by decide) htab
    rw [UInt32.mul_zero, UInt32.add_zero] at hpte
    have hpdx : PDX (0xFE000000 : UInt32) = 1016 := by decide
    have hptx : PTX (0xFE000000 : UInt32) = 0 := by decide
    -- the device page's PTE does not let user code in
    apply Vm.uva2ka_not_user
    · rw [hpdx, Vm.pde, hpde₁]
      exact hdev
    · rw [hpdx, hptx, Vm.pde, hpde₁, UInt32.mul_zero, UInt32.add_zero]
      exact hT0
    · rw [hpdx, hptx, Vm.pde, hpde₁, UInt32.mul_zero, UInt32.add_zero, hpte]
      exact hdevu
  -- the first pass copies 256 bytes into the page the caller's word names, the second fails
  have hdown : PGROUNDDOWN (0xFDFFFF00 : UInt32) = 0xFDFFF000 := by decide
  have hn : min (PGSIZE - (0xFDFFFF00 - PGROUNDDOWN 0xFDFFFF00)).toNat (s ++ [0]).length = 256 := by
    rw [hdown, List.length_append, hs]
    decide
  have hcopy : vm.copyout pgdir 0xFDFFFF00 (s ++ [0]) read0 = (-1, { vm with
      mem := Word.copy vm.mem (P2V (PTE_ADDR read0) + 0xF00) ((s ++ [0]).take 256) }) := by
    have hlen : (s ++ [0]).length = 33566974 + 1 + 1 := by simp [hs]
    rw [Vm.copyout, hlen,
      Vm.copyoutLoop_page (by simp) (by rw [hdown, hua]; exact hpa), hn, hdown, hua,
      show (0xFDFFF000 : UInt32) + PGSIZE = 0xFE000000 by decide,
      show (0xFDFFFF00 : UInt32) - 0xFDFFF000 = 0xF00 by decide]
    apply Vm.copyoutLoop_fail
    · rw [← List.length_pos_iff, List.length_drop, List.length_append, hs]
      decide
    · rw [show PGROUNDDOWN (0xFE000000 : UInt32) = 0xFE000000 by decide]
      exact hdev₁
  unfold Vm.execArgs
  rw [if_neg (by decide)]
  dsimp only
  rw [hsp, hcopy]
  rfl

/-- A new directory at `0x80300000` with no page table for entry 1015 and, through the table at
`0x80305000`, the device page at `0xFE000000` mapped writable but not user. -/
def strayVm : Vm where
  mem := Word.store (Word.store (fun _ => 0) (0x80300000 + 4 * 1016) 0x00305003) 0x80305000 0xFE000003
  freelist := []
  kend := 0x80200000
  kdata := 0x80108000

/-- An argument of 33566975 bytes. -/
def strayArg : List UInt8 := List.replicate 33566975 97

/-- The caller's first word reads `0x0040F007`, naming physical page `0x0040F000`, the caller's
kernel stack: the 256 bytes land over its trap frame. -/
theorem exec_fails_after_stray_write_kstack :
    Vm.execArgs 0x80300000 0x0040F007 [strayArg] 0 12288 strayVm =
      (none, { strayVm with
        mem := Word.copy strayVm.mem (P2V (PTE_ADDR 0x0040F007) + 0xF00) ((strayArg ++ [0]).take 256) }) :=
  exec_fails_after_stray_write strayVm 0x80300000 0x0040F007 strayArg List.length_replicate (by decide)
    (by decide) (by decide) (by decide) (by decide) (by decide) (by decide) (by decide) (by decide) (by decide)

end Xv6
