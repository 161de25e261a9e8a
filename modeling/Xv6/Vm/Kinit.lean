import Xv6.Vm.Copy

/-!
# The allocator and the kernel's page table at boot (`kinit1`, `kvmalloc`, `kinit2`)

`main` first hands the allocator the pages between `end` and 4 MB (`kinit1`), then builds the
kernel's own directory `kpgdir` out of them (`kvmalloc`, which does not check `setupkvm` for 0),
and later hands it the rest of physical memory (`kinit2`). Both run `freerange`, which frees each
whole page of its range: the pages go on the free list last first, in front of those already
there, and nothing outside them is written (`freerangeLoop_frees`). On top of a sound free list
of lower pages the result is sound again (`freerange_freeOk`).

`setupkvm` gives up only on a free list of at most 512 pages (`setupkvm_fresh`), so `kinit1`
leaves it enough when `end` lies at least 513 pages below 4 MB: `kpgdir` is then a directory
that maps the kernel exactly as `kmap` says.
-/

namespace Xv6

namespace Vm

/-- `freerange(vstart, vend)`'s loop from the page `p`, with `k` passes left. -/
def freerangeLoop (vend : UInt32) : Nat → UInt32 → Vm → Except String Vm
  | 0, _, vm => pure vm
  | k + 1, p, vm =>
    if p + PGSIZE ≤ vend then do
      let vm ← vm.kfree p
      freerangeLoop vend k (p + PGSIZE) vm
    else pure vm

/-- `freerange(vstart, vend)`, its loop on an explicit count: one pass per page of the address
space at most. -/
def freerange (vm : Vm) (vstart vend : UInt32) : Except String Vm :=
  freerangeLoop vend (NPDENTRIES * NPTENTRIES) (PGROUNDUP vstart) vm

/-- `kinit1(vstart, vend)`: `freerange` while the lock is not in use. -/
def kinit1 (vm : Vm) (vstart vend : UInt32) : Except String Vm := vm.freerange vstart vend

/-- `kinit2(vstart, vend)`: `freerange`, after which the lock is in use. -/
def kinit2 (vm : Vm) (vstart vend : UInt32) : Except String Vm := vm.freerange vstart vend

/-- `kvmalloc()`: `kpgdir = setupkvm()`, not checked for 0; `switchkvm` loads it into `cr3`. -/
def kvmalloc (vm : Vm) : Except String (UInt32 × Vm) := vm.setupkvm

/-! ### `freerange` -/

theorem pageRange_cons {s e : Nat} (h : s < e) : pageRange s e = (4096 * s).toUInt32 :: pageRange (s + 1) e := by
  rw [pageRange_append (Nat.le_succ s) h]
  simp [pageRange]

theorem pageRange_of_le {s e : Nat} (h : e ≤ s) : pageRange s e = [] := by
  rw [pageRange, Nat.sub_eq_zero_of_le h]
  rfl

section Freerange

variable {vend : UInt32}

theorem freerangeLoop_pass {vm : Vm} {p : UInt32} (k : Nat) (hp : PageOk vm p) (hfit : p + PGSIZE ≤ vend) :
    freerangeLoop vend (k + 1) p vm = freerangeLoop vend k (p + PGSIZE) { vm with
      mem := Word.store (Word.fill vm.mem p PGSIZE.toNat 1) p (vm.freelist.headD 0)
      freelist := p :: vm.freelist } := by
  rw [freerangeLoop, if_pos hfit, kfree_ok hp.mod hp.kend hp.phys, Except.ok_bind]

/-- `freerange`'s loop from a page-aligned `p` above `end`, with `n` whole pages before `vend` and
more passes than that: it frees those pages in order, so they stand on the free list last first,
and it writes nowhere else. -/
theorem freerangeLoop_frees (hend : vend ≤ P2V PHYSTOP) : ∀ (n k : Nat) (p : UInt32) (vm : Vm),
    KERNBASE < vm.kend → vm.kend ≤ p → p.toNat % 4096 = 0 → p.toNat ≤ vend.toNat + 4095 →
    (vend.toNat - p.toNat) / 4096 = n → n < k →
    ∃ vm', freerangeLoop vend k p vm = .ok vm' ∧
      vm'.freelist = (pageRange (p.toNat / 4096) (p.toNat / 4096 + n)).reverse ++ vm.freelist ∧
      Word.Outside (pageRange (p.toNat / 4096) (p.toNat / 4096 + n)) vm.mem vm'.mem ∧
      vm'.kend = vm.kend ∧ vm'.kdata = vm.kdata := by
  have hv : vend.toNat ≤ 0x8E000000 := hend
  intro n
  induction n with
  | zero =>
    intro k p vm _ _ _ hp hn hk
    obtain ⟨k, rfl⟩ : ∃ j, k = j + 1 := ⟨k - 1, by omega⟩
    -- no whole page left: the test fails at once
    have hstop : ¬p + PGSIZE ≤ vend := by
      rw [UInt32.le_iff_toNat_le, toNat_add_PGSIZE (by omega)]
      omega
    refine ⟨vm, by rw [freerangeLoop, if_neg hstop]; rfl, ?_, .refl _ _, rfl, rfl⟩
    rw [Nat.add_zero, pageRange_of_le le_rfl]
    rfl
  | succ n ih =>
    intro k p vm hkb hk hal hp hn hfuel
    obtain ⟨k, rfl⟩ : ∃ j, k = j + 1 := ⟨k - 1, by omega⟩
    have hkb' : KERNBASE.toNat < vm.kend.toNat := hkb
    have hk' : vm.kend.toNat ≤ p.toNat := hk
    have hnext : (p + PGSIZE).toNat = p.toNat + 4096 := toNat_add_PGSIZE (by omega)
    -- `p` is a page `kfree` takes: aligned, above `end`, below `PHYSTOP`
    have hok : PageOk vm p := by
      refine ⟨hal, hk, ?_⟩
      rw [UInt32.lt_iff_toNat_lt, V2P, UInt32.toNat_sub_of_le _ _ (UInt32.le_iff_toNat_le.2 (by omega))]
      simp only [KERNBASE, PHYSTOP, UInt32.reduceToNat] at hkb' ⊢
      omega
    have hfit : p + PGSIZE ≤ vend := by
      rw [UInt32.le_iff_toNat_le, hnext]
      omega
    rw [freerangeLoop_pass k hok hfit]
    -- the state after `kfree(p)`
    generalize hvm₁ : ({ vm with
      mem := Word.store (Word.fill vm.mem p PGSIZE.toNat 1) p (vm.freelist.headD 0)
      freelist := p :: vm.freelist } : Vm) = vm₁
    have hk₁ : vm₁.kend = vm.kend := by rw [← hvm₁]
    have hfl₁ : vm₁.freelist = p :: vm.freelist := by rw [← hvm₁]
    have hpage : Word.Outside [p] vm.mem vm₁.mem := by
      rw [← hvm₁]
      exact (Word.Outside.fill List.mem_cons_self hal (show PGSIZE.toNat ≤ 4096 by decide)).trans
        (.store List.mem_cons_self (by omega) rfl) (List.Subset.refl _)
    obtain ⟨vm', hrun, hfl, hout, hkend, hkdata⟩ := ih k (p + PGSIZE) vm₁ (hk₁ ▸ hkb) (by
      rw [hk₁, UInt32.le_iff_toNat_le, hnext]
      omega) (by rw [hnext]; omega) (by rw [hnext]; omega) (by rw [hnext]; omega) (by omega)
    rw [hnext, show (p.toNat + 4096) / 4096 = p.toNat / 4096 + 1 by omega] at hfl hout
    -- the page itself heads the pages freed from it on
    have hrange : pageRange (p.toNat / 4096) (p.toNat / 4096 + (n + 1)) =
        p :: pageRange (p.toNat / 4096 + 1) (p.toNat / 4096 + 1 + n) := by
      have hp' : (4096 * (p.toNat / 4096)).toUInt32 = p := by
        apply UInt32.toNat_inj.1
        rw [toNat_page (by omega)]
        omega
      rw [pageRange_cons (by omega), hp', show p.toNat / 4096 + (n + 1) = p.toNat / 4096 + 1 + n by omega]
    refine ⟨vm', hrun, ?_, ?_, hkend.trans hk₁, hkdata.trans (by rw [← hvm₁])⟩
    · rw [hfl, hfl₁, hrange, List.reverse_cons, List.append_assoc, List.singleton_append]
    · rw [hrange]
      exact (hpage.mono (List.cons_subset_cons _ (List.nil_subset _))).trans hout (List.subset_cons_self _ _)

theorem freerange_frees {vm : Vm} {vstart : UInt32} (hkb : KERNBASE < vm.kend) (hk : vm.kend ≤ vstart)
    (hse : vstart ≤ vend) (hend : vend ≤ P2V PHYSTOP) :
    ∃ vm', vm.freerange vstart vend = .ok vm' ∧
      vm'.freelist = (pageRange ((PGROUNDUP vstart).toNat / 4096) (vend.toNat / 4096)).reverse ++ vm.freelist ∧
      Word.Outside (pageRange ((PGROUNDUP vstart).toNat / 4096) (vend.toNat / 4096)) vm.mem vm'.mem ∧
      vm'.kend = vm.kend ∧ vm'.kdata = vm.kdata := by
  have hv : vend.toNat ≤ 0x8E000000 := hend
  have hse' : vstart.toNat ≤ vend.toNat := hse
  have hup := toNat_PGROUNDUP vstart
  rw [Nat.mod_eq_of_lt (by omega)] at hup
  have hkup : vm.kend ≤ PGROUNDUP vstart := by
    rw [UInt32.le_iff_toNat_le, hup]
    have : vm.kend.toNat ≤ vstart.toNat := hk
    omega
  obtain ⟨vm', hrun, hfl, hout, hkend, hkdata⟩ := freerangeLoop_frees hend _ (NPDENTRIES * NPTENTRIES)
    (PGROUNDUP vstart) vm hkb hkup (by rw [hup]; omega) (by rw [hup]; omega) rfl
    (by simp only [NPDENTRIES, NPTENTRIES]; omega)
  -- the loop stops at the last whole page below `vend`
  have hlast : (PGROUNDUP vstart).toNat / 4096 + (vend.toNat - (PGROUNDUP vstart).toNat) / 4096 =
      vend.toNat / 4096 ∨ vend.toNat / 4096 ≤ (PGROUNDUP vstart).toNat / 4096 ∧
        (vend.toNat - (PGROUNDUP vstart).toNat) / 4096 = 0 := by
    rw [hup]
    omega
  have hpages : pageRange ((PGROUNDUP vstart).toNat / 4096)
      ((PGROUNDUP vstart).toNat / 4096 + (vend.toNat - (PGROUNDUP vstart).toNat) / 4096) =
      pageRange ((PGROUNDUP vstart).toNat / 4096) (vend.toNat / 4096) := by
    rcases hlast with heq | ⟨hle, hz⟩
    · rw [heq]
    · rw [hz, Nat.add_zero, pageRange_of_le le_rfl, pageRange_of_le hle]
  rw [hpages] at hfl hout
  exact ⟨vm', hrun, hfl, hout, hkend, hkdata⟩

theorem freerange_freeOk {vm vm' : Vm} {vstart : UInt32} (h : FreeOk vm)
    (hlow : ∀ q ∈ vm.freelist, q.toNat < (PGROUNDUP vstart).toNat) (hk : vm.kend ≤ vstart)
    (hse : vstart ≤ vend) (hend : vend ≤ P2V PHYSTOP) (hrun : vm.freerange vstart vend = .ok vm') :
    FreeOk vm' := by
  obtain ⟨vm'', hrun', hfl, -, hkend, -⟩ := freerange_frees h.kend hk hse hend
  rw [hrun] at hrun'
  cases hrun'
  have hv : vend.toNat ≤ 0x8E000000 := hend
  have hse' : vstart.toNat ≤ vend.toNat := hse
  have hup := toNat_PGROUNDUP vstart
  rw [Nat.mod_eq_of_lt (by omega)] at hup
  -- a page of the range: aligned, from `PGROUNDUP(vstart)` on, below `vend`
  have hin : ∀ q ∈ pageRange ((PGROUNDUP vstart).toNat / 4096) (vend.toNat / 4096),
      q.toNat % 4096 = 0 ∧ (PGROUNDUP vstart).toNat ≤ q.toNat ∧ q.toNat + 4096 ≤ vend.toNat := by
    intro q hq
    have hb := page_of_mem_pageRange (by omega) hq
    have ha := aligned_of_mem_pageRange (show vend.toNat / 4096 ≤ 2 ^ 20 by omega) hq
    rw [hup] at hb ⊢
    omega
  have hkb : KERNBASE.toNat < vm.kend.toNat := h.kend
  have hk' : vm.kend.toNat ≤ vstart.toNat := hk
  refine ⟨?_, fun q hq => ?_, hkend ▸ h.kend⟩
  · rw [hfl]
    refine List.nodup_append.2 ⟨List.nodup_reverse.2 (pageRange_nodup (show vend.toNat / 4096 ≤ 2 ^ 20 by omega)),
      h.nodup, fun a ha b hb hab => ?_⟩
    have := (hin a (List.mem_reverse.1 ha)).2.1
    have := hlow b hb
    subst hab
    omega
  · rw [hfl, List.mem_append, List.mem_reverse] at hq
    rcases hq with hq | hq
    · obtain ⟨hal, hge, hlt⟩ := hin q hq
      refine ⟨hal, ?_, ?_⟩
      · rw [hkend, UInt32.le_iff_toNat_le]
        rw [hup] at hge
        omega
      · rw [UInt32.lt_iff_toNat_lt, V2P, UInt32.toNat_sub_of_le _ _ (UInt32.le_iff_toNat_le.2 (by
          rw [hup] at hge
          simp only [KERNBASE, UInt32.reduceToNat] at hkb ⊢
          omega))]
        simp only [KERNBASE, PHYSTOP, UInt32.reduceToNat]
        omega
    · have hp := h.page q hq
      exact ⟨hp.aligned, hkend ▸ hp.kend, hp.phys⟩

/-- `freerange(vstart, vend)` over whole pages above `end` and below `P2V(PHYSTOP)` never panics.
It puts each whole page from `PGROUNDUP(vstart)` up to `vend` on the free list once, last first, in
front of the pages already there, and writes nowhere else; on a sound free list of lower pages the
free list it leaves is sound. -/
theorem freerange_pages {vm : Vm} {vstart : UInt32} (h : FreeOk vm)
    (hlow : ∀ q ∈ vm.freelist, q.toNat < (PGROUNDUP vstart).toNat) (hk : vm.kend ≤ vstart)
    (hse : vstart ≤ vend) (hend : vend ≤ P2V PHYSTOP) :
    ∃ vm', vm.freerange vstart vend = .ok vm' ∧
      vm'.freelist = (pageRange ((PGROUNDUP vstart).toNat / 4096) (vend.toNat / 4096)).reverse ++ vm.freelist ∧
      Word.Outside (pageRange ((PGROUNDUP vstart).toNat / 4096) (vend.toNat / 4096)) vm.mem vm'.mem ∧
      FreeOk vm' := by
  obtain ⟨vm', hrun, hfl, hout, -, -⟩ := freerange_frees h.kend hk hse hend
  exact ⟨vm', hrun, hfl, hout, freerange_freeOk h hlow hk hse hend hrun⟩

end Freerange

/-- The machine `main` starts from: nothing free yet, the kernel's image ending at `0x80116000`
and its data starting at `0x80108000`. -/
def bootVm : Vm where
  mem := fun _ => 0
  freelist := []
  kend := 0x80116000
  kdata := 0x80108000

theorem bootVm_freeOk : FreeOk bootVm where
  nodup := List.nodup_nil
  page _ hq := (List.not_mem_nil hq).elim
  kend := by decide

theorem freerange_pages_boot :
    ∃ vm', bootVm.freerange bootVm.kend (P2V 0x400000) = .ok vm' ∧ FreeOk vm' := by
  obtain ⟨vm', hrun, -, -, hok⟩ := @freerange_pages (P2V 0x400000) bootVm bootVm.kend bootVm_freeOk
    (fun _ hq => (List.not_mem_nil hq).elim) (by decide) (by decide) (by decide)
  exact ⟨vm', hrun, hok⟩

/-! ### `main`'s first two steps: `kinit1(end, P2V(4MB))` and `kvmalloc()` -/

/-- From an empty allocator whose `end` lies at least 513 pages below 4 MB, `kinit1(end, P2V(4MB))`
and then `kvmalloc()` never panic, and `kpgdir` is not 0: it is a directory with no entry below
`KERNBASE` that maps each page exactly when `kmap` covers it, with the PTE `kmap` gives it. Its
pages and the pages left free are the whole pages from `end` up to 4 MB, each once, and the free
list left is sound. -/
theorem kinit1_kvmalloc {vm : Vm} (hfl : vm.freelist = []) (hkb : KERNBASE < vm.kend)
    (hroom : vm.kend.toNat + 513 * 4096 ≤ 0x80400000)
    (hdata : KERNLINK < vm.kdata ∧ vm.kdata < P2V PHYSTOP) (hal : vm.kdata.toNat % 4096 = 0) :
    ∃ vm₁ kpgdir vm₂, vm.kinit1 vm.kend (P2V 0x400000) = .ok vm₁ ∧ vm₁.kvmalloc = .ok (kpgdir, vm₂) ∧
      kpgdir ≠ 0 ∧
      (vm₂.owned kpgdir ++ vm₂.freelist).Perm (pageRange ((PGROUNDUP vm.kend).toNat / 4096) 0x80400) ∧
      FreeOk vm₂ ∧ (∀ k, k < 512 → vm₂.pdePresent kpgdir k = false) ∧
      ∀ va, vm₂.mapped kpgdir va = (kmapPte (kmap vm.kdata) (va.toNat / 4096)).isSome ∧
        ∀ w, kmapPte (kmap vm.kdata) (va.toNat / 4096) = some w →
          Word.load vm₂.mem (vm₂.pteAddr kpgdir va) = w := by
  have h₀ : FreeOk vm :=
    ⟨by rw [hfl]; exact List.nodup_nil, fun _ hq => (List.not_mem_nil (hfl ▸ hq)).elim, hkb⟩
  have hle : vm.kend ≤ P2V 0x400000 := by
    rw [UInt32.le_iff_toNat_le]
    exact le_trans (by omega) (show 0x80400000 ≤ (P2V 0x400000).toNat by decide)
  -- `kinit1`: the whole pages from `end` up to 4 MB, a sound free list
  obtain ⟨vm₁, hrun₁, hfl₁, -, hok₁⟩ := freerange_pages h₀ (fun _ hq => (List.not_mem_nil (hfl ▸ hq)).elim)
    (UInt32.le_iff_toNat_le.2 le_rfl) hle (by decide)
  have hvend : (P2V 0x400000 : UInt32).toNat / 4096 = 0x80400 := by decide
  rw [hvend, hfl, List.append_nil] at hfl₁
  have hup := toNat_PGROUNDUP vm.kend
  rw [Nat.mod_eq_of_lt (by omega)] at hup
  have hlen : 512 < vm₁.freelist.length := by
    rw [hfl₁, List.length_reverse, length_pageRange, hup]
    omega
  have hkdata : vm₁.kdata = vm.kdata := by
    obtain ⟨vm', hrun', -, -, -, hk⟩ := freerange_frees hkb (UInt32.le_iff_toNat_le.2 le_rfl) hle
      (show P2V 0x400000 ≤ P2V PHYSTOP by decide)
    rw [hrun'] at hrun₁
    cases hrun₁
    exact hk
  -- `kvmalloc`: `setupkvm` cannot run out on more than 512 pages
  obtain ⟨kpgdir, vm₂, hrun₂, hr⟩ := setupkvm_fresh hok₁ (hkdata ▸ hdata) (hkdata ▸ hal)
  rcases hr with ⟨hd0, hf, hu, hm⟩ | ⟨-, -, hshort⟩
  · have hperm := hf.perm
    rw [List.nil_append, hfl₁] at hperm
    refine ⟨vm₁, kpgdir, vm₂, hrun₁, hrun₂, hd0, hperm.trans (List.reverse_perm _), hf.freeOk hok₁, hu, ?_⟩
    rw [← hkdata]
    exact hm
  · omega

theorem kinit1_kvmalloc_boot :
    ∃ vm₁ kpgdir vm₂, bootVm.kinit1 bootVm.kend (P2V 0x400000) = .ok vm₁ ∧
      vm₁.kvmalloc = .ok (kpgdir, vm₂) ∧ kpgdir ≠ 0 := by
  obtain ⟨vm₁, kpgdir, vm₂, h₁, h₂, hd, -⟩ :=
    @kinit1_kvmalloc bootVm rfl (by decide) (by decide) (by decide) (by decide)
  exact ⟨vm₁, kpgdir, vm₂, h₁, h₂, hd⟩

end Vm

end Xv6
