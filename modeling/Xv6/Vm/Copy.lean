import Xv6.Vm.Fresh
import Xv6.String

/-!
# A new directory and a copy of an address space (`setupkvm`, `copyuvm`)

`setupkvm` takes a page for the directory and enters the kernel mappings of `kmap`, taking a page
for each page table it needs. The mappings cover increasing ranges of kernel pages, so
`mappages` never finds a page mapped twice: `setupkvm` never panics. Either it returns 0, having
given back every page it took (`Undone`), or a directory built of free pages with no entry below
`KERNBASE` (`setupkvm_fresh`).

`copyuvm` then maps a copy of each user page of the parent below `sz`: a page from the free list,
filled by `memmove` from the parent's page and mapped with the parent's flags. Running out of
pages, in `kalloc` or in `mappages`' walk, frees the half-built directory (`goto bad`). The loop
runs on an explicit count like `allocuvm`'s, one pass per page of the address space at most.
-/

namespace Xv6

namespace Vm

/-! ### `setupkvm` -/

/-- The first page a kernel mapping covers. -/
def kstart (e : UInt32 × UInt32 × UInt32 × UInt32) : UInt32 := PGROUNDDOWN e.1

/-- The last page a kernel mapping covers, as `mappages` computes it. -/
def kstop (e : UInt32 × UInt32 × UInt32 × UInt32) : UInt32 := PGROUNDDOWN (e.1 + (e.2.2.1 - e.2.1) - 1)

/-- The PTE the kernel mappings `ks` give page `p`: that of the first mapping covering it, as
`mappages` enters it. What every directory `setupkvm` builds maps. -/
def kmapPte : List (UInt32 × UInt32 × UInt32 × UInt32) → Nat → Option UInt32
  | [] => fun _ => none
  | e :: ks => mapRange ((kstart e).toNat / 4096) ((kstop e).toNat / 4096) e.2.1 e.2.2.2 (kmapPte ks)

-- the first megabyte is writable, the kernel's text is not, and nothing between `P2V(PHYSTOP)`
-- and the devices is mapped
example : kmapPte (kmap 0x80108000) (0x80000000 / 4096) = some 0x3 := by decide
example : kmapPte (kmap 0x80108000) (0x80100000 / 4096) = some 0x100001 := by decide
example : kmapPte (kmap 0x80108000) (0x8E000000 / 4096) = none := by decide

theorem PGROUNDDOWN_aligned (a : UInt32) : (PGROUNDDOWN a).toNat % 4096 = 0 := by
  rw [toNat_PGROUNDDOWN]
  omega

/-- The kernel mappings cover increasing ranges of pages above `KERNBASE`: the first megabyte,
the kernel's text up to `data`, the data and free memory up to `P2V(PHYSTOP)`, and the devices. -/
theorem kmap_ranges {kdata : UInt32} (hdata : KERNLINK < kdata ∧ kdata < P2V PHYSTOP)
    (hal : kdata.toNat % 4096 = 0) :
    (∀ e ∈ kmap kdata, KERNBASE ≤ kstart e ∧ KERNBASE.toNat ≤ (kstart e).toNat ∧
      (kstart e).toNat ≤ (kstop e).toNat) ∧
    (kmap kdata).Pairwise (fun e e' => (kstop e).toNat + 4096 ≤ (kstart e').toNat) := by
  have hk : 0x80100000 < kdata.toNat ∧ kdata.toNat < 0x8E000000 := by
    rw [UInt32.lt_iff_toNat_lt, UInt32.lt_iff_toNat_lt] at hdata
    exact hdata
  -- where each range starts and stops
  have h₁ : (kstart (KERNBASE, 0, EXTMEM, PTE_W)).toNat = 0x80000000 ∧
      (kstop (KERNBASE, 0, EXTMEM, PTE_W)).toNat = 0x800FF000 := by decide
  have h₂ : (kstart (KERNLINK, V2P KERNLINK, V2P kdata, 0)).toNat = 0x80100000 ∧
      (kstop (KERNLINK, V2P KERNLINK, V2P kdata, 0)).toNat = kdata.toNat - 4096 := by
    have hlast : (KERNLINK + (V2P kdata - V2P KERNLINK) - 1).toNat = kdata.toNat - 1 := by
      simp only [KERNLINK, KERNBASE, EXTMEM, V2P, UInt32.toNat_add, UInt32.toNat_sub, UInt32.reduceToNat]
      omega
    refine ⟨show (PGROUNDDOWN KERNLINK).toNat = 0x80100000 by decide, ?_⟩
    simp only [kstop, toNat_PGROUNDDOWN, hlast]
    omega
  have h₃ : (kstart (kdata, V2P kdata, PHYSTOP, PTE_W)).toNat = kdata.toNat ∧
      (kstop (kdata, V2P kdata, PHYSTOP, PTE_W)).toNat = 0x8DFFF000 := by
    have hlast : (kdata + (PHYSTOP - V2P kdata) - 1).toNat = 0x8DFFFFFF := by
      simp only [PHYSTOP, KERNBASE, V2P, UInt32.toNat_add, UInt32.toNat_sub, UInt32.reduceToNat]
      omega
    simp only [kstart, kstop, toNat_PGROUNDDOWN, hlast, and_true]
    omega
  have h₄ : (kstart (DEVSPACE, DEVSPACE, 0, PTE_W)).toNat = 0xFE000000 ∧
      (kstop (DEVSPACE, DEVSPACE, 0, PTE_W)).toNat = 0xFFFFF000 := by decide
  have hbase : KERNBASE.toNat = 0x80000000 := rfl
  refine ⟨?_, ?_⟩
  · simp only [kmap, List.mem_cons, List.mem_nil_iff, or_false]
    rintro e (rfl | rfl | rfl | rfl) <;> rw [UInt32.le_iff_toNat_le, hbase]
    · rw [h₁.1, h₁.2]; omega
    · rw [h₂.1, h₂.2]; omega
    · rw [h₃.1, h₃.2]; omega
    · rw [h₄.1, h₄.2]; omega
  · simp only [kmap, List.pairwise_cons, List.mem_cons, List.mem_nil_iff, or_false, forall_eq_or_imp,
      forall_eq, List.Pairwise.nil, IsEmpty.forall_iff, implies_true, and_true]
    rw [h₁.2, h₂.1, h₂.2, h₃.1, h₃.2, h₄.1]
    omega

section Setupkvm

variable {vm₀ : Vm} {d : UInt32}

variable (h₀ : FreeOk vm₀)
include h₀

/-- `setupkvm`'s loop over kernel mappings of increasing ranges above `KERNBASE`, in a directory
built of free pages with no user entry, which maps the pages `g` names, none from `lo` on: it
enters them all, or it gives everything back and returns 0. -/
theorem setupkvmLoop_fresh : ∀ (ks : List (UInt32 × UInt32 × UInt32 × UInt32)) (lo : Nat) (vm : Vm)
    (g : Nat → Option UInt32),
    Fresh vm₀ vm d [] → UserEmpty vm d → MapsAs vm d g → (∀ p, lo / 4096 ≤ p → g p = none) →
    (∀ e ∈ ks, KERNBASE ≤ kstart e ∧ lo ≤ (kstart e).toNat ∧ (kstart e).toNat ≤ (kstop e).toNat) →
    ks.Pairwise (fun e e' => (kstop e).toNat + 4096 ≤ (kstart e').toNat) →
    ∃ r vm', setupkvmLoop d ks vm = .ok (r, vm') ∧
      (r = d ∧ Fresh vm₀ vm' d [] ∧ UserEmpty vm' d ∧ MapsAs vm' d (fun p => (g p).or (kmapPte ks p)) ∨
        r = 0 ∧ Undone vm₀ vm' ∧ vm₀.freelist.length ≤ 512)
  | [], _, vm, g, h, hu, hg, _, _, _ => ⟨d, vm, rfl, Or.inl ⟨rfl, h, hu, by simpa [kmapPte] using hg⟩⟩
  | (virt, ps, pe, perm) :: ks, lo, vm, g, h, hu, hg, hnone, hks, hpw => by
    obtain ⟨hk, hlo, hle⟩ := hks _ List.mem_cons_self
    obtain ⟨hpw₁, hpw₂⟩ := List.pairwise_cons.1 hpw
    -- the pages of this mapping, counted as `mappages` counts them
    have hsa := PGROUNDDOWN_aligned virt
    have hso := PGROUNDDOWN_aligned (virt + (pe - ps) - 1)
    have hn : (kstop (virt, ps, pe, perm)).toNat = (kstart (virt, ps, pe, perm)).toNat +
        4096 * ((kstop (virt, ps, pe, perm) - kstart (virt, ps, pe, perm)).toNat / PGSIZE.toNat) := by
      rw [UInt32.toNat_sub_of_le _ _ (UInt32.le_iff_toNat_le.2 hle)]
      simp only [kstart, kstop, PGSIZE, UInt32.reduceToNat] at hsa hso hle ⊢
      omega
    obtain ⟨r, vm₁, hrun, hf, hu₁, hr⟩ := mappagesLoop_kernel h₀ _ (kstart (virt, ps, pe, perm)) ps vm g h hu
      hg (fun p hp => hnone p (by omega)) hk hn
    rw [setupkvmLoop, show vm.mappages d virt (pe - ps) ps perm = .ok (r, vm₁) from hrun, Except.ok_bind]
    rcases hr with ⟨rfl, hlen⟩ | ⟨rfl, hg₁⟩
    · -- out of pages for a table: `freevm` gives everything back
      obtain ⟨vm', hfree, hundo⟩ := hf.freevm h₀
      rw [if_pos (show (-1 : Int) < 0 by decide), hfree, Except.ok_bind]
      exact ⟨0, vm', rfl, Or.inr ⟨rfl, hundo, hlen⟩⟩
    · rw [if_neg (show ¬(0 : Int) < 0 by decide)]
      -- the next mappings start past this one, where `g` names nothing either
      have hks' : ∀ e ∈ ks, KERNBASE ≤ kstart e ∧ (kstop (virt, ps, pe, perm)).toNat + 4096 ≤ (kstart e).toNat ∧
          (kstart e).toNat ≤ (kstop e).toNat := fun e he => by
        obtain ⟨hk', -, hle'⟩ := hks e (List.mem_cons_of_mem _ he)
        exact ⟨hk', hpw₁ e he, hle'⟩
      obtain ⟨r', vm', hrun', hr'⟩ := setupkvmLoop_fresh ks _ vm₁ _ hf hu₁ hg₁
        (fun p hp => by
          rw [mapRange, if_neg (by omega)]
          exact hnone p (by omega))
        hks' hpw₂
      refine ⟨r', vm', hrun', ?_⟩
      rcases hr' with ⟨hrd, hf', hu', hm⟩ | hr'
      · refine Or.inl ⟨hrd, hf', hu', ?_⟩
        have heq : (fun p => (mapRange ((kstart (virt, ps, pe, perm)).toNat / 4096)
            ((kstop (virt, ps, pe, perm)).toNat / 4096) ps perm g p).or (kmapPte ks p)) =
            fun p => (g p).or (kmapPte ((virt, ps, pe, perm) :: ks) p) :=
          funext (mapRange_or fun p hp => hnone p (by omega))
        rwa [heq] at hm
      · exact Or.inr hr'

omit h₀ in
theorem pde_fill_zero {m : UInt32 → UInt8} (hd : d.toNat % 4096 = 0) {k : UInt32} (hk : k < 1024) :
    Word.load (Word.fill m d PGSIZE.toNat 0) (d + 4 * k) = 0 :=
  Word.load_fill_zero fun j hj => by
    have hj' : j.toNat < 4 := hj
    have hk' : k.toNat < 1024 := hk
    have hd' := d.toNat_lt
    rw [UInt32.toNat_sub, (Word.word_page (entry_mod_four hd hk) hj).1, toNat_entry hd hk]
    simp only [PGSIZE, UInt32.reduceToNat]
    omega

/-- `setupkvm` never panics: it returns 0 with every page it took given back, which only a free
list of at most 512 pages allows, or a directory built of free pages with no entry below
`KERNBASE`, which maps the kernel as `kmap` says. -/
theorem setupkvm_fresh (hdata : KERNLINK < vm₀.kdata ∧ vm₀.kdata < P2V PHYSTOP)
    (hal : vm₀.kdata.toNat % 4096 = 0) :
    ∃ r vm', vm₀.setupkvm = .ok (r, vm') ∧
      (r ≠ 0 ∧ Fresh vm₀ vm' r [] ∧ UserEmpty vm' r ∧ MapsAs vm' r (kmapPte (kmap vm₀.kdata)) ∨
        r = 0 ∧ Undone vm₀ vm' ∧ vm₀.freelist.length ≤ 512) := by
  unfold setupkvm
  cases hfl : vm₀.freelist with
  | nil =>
    rw [kalloc_nil hfl]
    exact ⟨0, vm₀, rfl, Or.inr ⟨rfl, Undone.refl _, Nat.zero_le _⟩⟩
  | cons d rest =>
    have hdf : d ∈ vm₀.freelist := by rw [hfl]; exact List.mem_cons_self
    have hd := h₀.page d hdf
    rw [kalloc_cons hfl]
    dsimp only
    rw [if_neg (hd.ne_zero h₀.kend), if_neg (by decide)]
    -- the directory's page, zeroed: no entry present
    generalize hvm₁ : ({ vm₀ with freelist := rest, mem := Word.fill vm₀.mem d PGSIZE.toNat 0 } : Vm) = vm₁
    have hnone : ∀ k, k < 1024 → vm₁.pdePresent d k = false := fun k hk => by
      rw [← hvm₁, pdePresent, pde]
      dsimp only
      rw [pde_fill_zero hd.aligned hk]
      decide
    have hu : UserEmpty vm₁ d := fun k hk => hnone k (UInt32.lt_of_lt_of_le hk (by decide))
    have htables : vm₁.tables d = [] := by
      rw [tables, List.filter_eq_nil_iff.2 fun k hk => by
        rw [hnone _ (toUInt32_lt_1024 (List.mem_range.1 hk))]
        decide]
      rfl
    have hfresh : Fresh vm₀ vm₁ d [] := by
      refine ⟨?_, ?_, by rw [← hvm₁], by rw [← hvm₁]⟩
      · rw [owned, htables, hu.frames, hfl, ← hvm₁]
        exact List.Perm.refl _
      · rw [← hvm₁]
        exact .fill hdf hd.aligned (show PGSIZE.toNat ≤ 4096 by decide)
    have hempty : MapsAs vm₁ d (fun _ => none) := fun b =>
      ⟨by rw [mapped, hnone _ (PDX_lt b), Bool.false_and]; rfl, fun _ hw => (Option.some_ne_none _ hw.symm).elim⟩
    obtain ⟨hks, hpw⟩ := kmap_ranges hdata hal
    obtain ⟨r, vm', hrun, hr⟩ :=
      setupkvmLoop_fresh h₀ (kmap vm₀.kdata) _ vm₁ _ hfresh hu hempty (fun _ _ => rfl) hks hpw
    refine ⟨r, vm', hrun, ?_⟩
    rcases hr with ⟨rfl, hf, hu', hm⟩ | hr
    · simp only [Option.none_or] at hm
      exact Or.inl ⟨hd.ne_zero h₀.kend, hf, hu', hm⟩
    · rw [hfl] at hr
      exact Or.inr hr

/-- `setupkvm` never panics. It returns 0 only from a free list of at most 512 pages, with the free
list a permutation of the old one and memory changed only inside pages that were free; or a
directory `d` taken from the free list, its
own pages and those still free making up the old free list, with no entry below `KERNBASE`, that
maps each page exactly when `kmap` covers it, with the PTE `kmap` gives it. -/
theorem setupkvm_maps_kernel (hdata : KERNLINK < vm₀.kdata ∧ vm₀.kdata < P2V PHYSTOP)
    (hal : vm₀.kdata.toNat % 4096 = 0) :
    ∃ d vm', vm₀.setupkvm = .ok (d, vm') ∧
      ((d = 0 ∧ vm₀.freelist.length ≤ 512 ∧ vm'.freelist.Perm vm₀.freelist ∧
          Word.Outside vm₀.freelist vm₀.mem vm'.mem) ∨
       (d ≠ 0 ∧ d ∈ vm₀.freelist ∧ (vm'.owned d ++ vm'.freelist).Perm vm₀.freelist ∧
        Word.Outside vm₀.freelist vm₀.mem vm'.mem ∧ (∀ k, k < 512 → vm'.pdePresent d k = false) ∧
        ∀ va, vm'.mapped d va = (kmapPte (kmap vm₀.kdata) (va.toNat / 4096)).isSome ∧
          ∀ w, kmapPte (kmap vm₀.kdata) (va.toNat / 4096) = some w →
            Word.load vm'.mem (vm'.pteAddr d va) = w)) := by
  obtain ⟨d, vm', hrun, hr⟩ := setupkvm_fresh h₀ hdata hal
  refine ⟨d, vm', hrun, ?_⟩
  rcases hr with ⟨hd0, hf, hu, hm⟩ | ⟨rfl, hundo, hlen⟩
  · have hperm := hf.perm
    rw [List.nil_append] at hperm
    exact Or.inr ⟨hd0, hf.mem_of_owned List.mem_cons_self, hperm, hf.outside, hu, hm⟩
  · exact Or.inl ⟨rfl, hlen, hundo.perm, hundo.outside⟩

end Setupkvm

/-! ### `copyuvm` -/

/-- `copyuvm`'s loop from the user address `i` up to `sz`, copying into the directory at `d`;
`k` passes left. -/
def copyuvmLoop (pgdir d sz : UInt32) : Nat → UInt32 → Vm → Except String (UInt32 × Vm)
  | 0, _, vm => pure (d, vm)
  | k + 1, i, vm =>
    if i < sz then
      let pte := (walkpgdir vm pgdir i false).1
      if pte = 0 then throw "copyuvm: pte should exist"
      else if Word.load vm.mem pte &&& PTE_P = 0 then throw "copyuvm: page not present"
      else
        let pa := PTE_ADDR (Word.load vm.mem pte)
        let flags := PTE_FLAGS (Word.load vm.mem pte)
        let r := vm.kalloc
        if r.1 = 0 then do
          -- `goto bad`
          let vm ← r.2.freevm d
          pure (0, vm)
        else do
          let vm := { r.2 with mem := memmove r.2.mem r.1 (P2V pa) PGSIZE }
          let m ← mappages vm d i PGSIZE (V2P r.1) flags
          if m.1 < 0 then do
            let vm ← m.2.kfree r.1
            let vm ← vm.freevm d
            pure (0, vm)
          else copyuvmLoop pgdir d sz k (i + PGSIZE) m.2
    else pure (d, vm)

/-- `copyuvm(pgdir, sz)`: a new directory with a copy of the user pages below `sz`, or 0. -/
def copyuvm (vm : Vm) (pgdir sz : UInt32) : Except String (UInt32 × Vm) := do
  let (d, vm) ← vm.setupkvm
  if d = 0 then pure (0, vm)
  else copyuvmLoop pgdir d sz (NPDENTRIES * NPTENTRIES) 0 vm

/-- The pass at `i` when the parent's PTE is present and `kalloc` finds no page: `goto bad`. -/
theorem copyuvmLoop_nomem {pgdir d sz i t : UInt32} {vm : Vm} {k : Nat} (hlt : i < sz)
    (hwalk : vm.walkpgdir pgdir i false = (t, vm)) (ht : t ≠ 0) (hp : Word.load vm.mem t &&& PTE_P ≠ 0)
    (hfl : vm.freelist = []) :
    copyuvmLoop pgdir d sz (k + 1) i vm = (vm.freevm d >>= fun vm => pure (0, vm)) := by
  rw [copyuvmLoop, if_pos hlt]
  simp only [hwalk, if_neg ht, if_neg hp, kalloc_nil hfl]
  rfl

/-- The pass at `i` when the parent's PTE is present and `kalloc` hands out `q`: the copy, its
mapping, and the rest of the loop or `goto bad`. -/
theorem copyuvmLoop_copy {pgdir d sz i t q : UInt32} {rest : List UInt32} {vm : Vm} {k : Nat} (hlt : i < sz)
    (hwalk : vm.walkpgdir pgdir i false = (t, vm)) (ht : t ≠ 0) (hp : Word.load vm.mem t &&& PTE_P ≠ 0)
    (hfl : vm.freelist = q :: rest) (hq : q ≠ 0) :
    copyuvmLoop pgdir d sz (k + 1) i vm =
      (mappages { vm with freelist := rest, mem := memmove vm.mem q (P2V (PTE_ADDR (Word.load vm.mem t))) PGSIZE }
          d i PGSIZE (V2P q) (PTE_FLAGS (Word.load vm.mem t)) >>= fun m =>
        if m.1 < 0 then (m.2.kfree q >>= fun vm => vm.freevm d >>= fun vm => pure (0, vm))
        else copyuvmLoop pgdir d sz k (i + PGSIZE) m.2) := by
  rw [copyuvmLoop, if_pos hlt]
  simp only [hwalk, if_neg ht, if_neg hp, kalloc_cons hfl, if_neg hq]

theorem mappages_page {vm : Vm} {d va pa perm : UInt32} (hva : va.toNat % 4096 = 0)
    (hlt : va.toNat < 2 ^ 32 - 4096) : vm.mappages d va PGSIZE pa perm = mappagesLoop d va perm 1 va pa vm := by
  have hdown : PGROUNDDOWN va = va := UInt32.toNat_inj.1 (by rw [toNat_PGROUNDDOWN]; omega)
  have hlast : PGROUNDDOWN (va + PGSIZE - 1) = va := by
    apply UInt32.toNat_inj.1
    rw [toNat_PGROUNDDOWN, UInt32.toNat_sub, toNat_add_PGSIZE hlt]
    simp only [UInt32.reduceToNat]
    omega
  rw [mappages]
  simp only [hdown, hlast, UInt32.sub_self, UInt32.toNat_zero, Nat.zero_div, Nat.zero_add]

theorem toNat_or_one {x : UInt32} (h : x.toNat % 2 = 1) : (x ||| 1).toNat = x.toNat := by
  rw [UInt32.toNat_or]
  apply Nat.eq_of_testBit_eq
  intro j
  rw [Nat.testBit_or]
  cases j with
  | zero => simp [Nat.testBit_zero, h]
  | succ j => simp [Nat.testBit_succ]

theorem toNat_PTE_FLAGS (e : UInt32) : (PTE_FLAGS e).toNat = e.toNat % 4096 := by
  rw [PTE_FLAGS, UInt32.toNat_and, show (0xFFF : UInt32).toNat = 2 ^ 12 - 1 from rfl,
    Nat.and_two_pow_sub_one_eq_mod]

/-- The PTE `copyuvm` writes for a copy at `q` of a present page: present, naming the copy, with
the parent's flags. -/
theorem copy_pte {e q : UInt32} (hq : q.toNat % 4096 = 0) (he : e &&& PTE_P ≠ 0) :
    ((V2P q ||| PTE_FLAGS e ||| PTE_P) &&& PTE_P != 0) = true ∧
      P2V (PTE_ADDR (V2P q ||| PTE_FLAGS e ||| PTE_P)) = q ∧
      PTE_FLAGS (V2P q ||| PTE_FLAGS e ||| PTE_P) = PTE_FLAGS e := by
  have hv : (V2P q).toNat % 2 ^ 12 = 0 := by
    rw [V2P, UInt32.toNat_sub]
    simp only [KERNBASE, UInt32.reduceToNat]
    omega
  have hodd := (PTE_P_ne_zero e).1 he
  have hor := Word.toNat_or_of_lt (V2P q) (PTE_FLAGS e) 12 hv (by rw [toNat_PTE_FLAGS]; omega)
  -- the copy's address and the parent's flags, side by side
  have hw : (V2P q ||| PTE_FLAGS e ||| PTE_P).toNat = (V2P q).toNat + e.toNat % 4096 := by
    rw [show PTE_P = 1 from rfl, toNat_or_one (by rw [hor, toNat_PTE_FLAGS]; omega), hor, toNat_PTE_FLAGS]
  refine ⟨?_, ?_, ?_⟩
  · rw [bne_iff_ne, PTE_P_ne_zero, hw]
    omega
  · have ha : PTE_ADDR (V2P q ||| PTE_FLAGS e ||| PTE_P) = V2P q :=
      UInt32.toNat_inj.1 (by rw [toNat_PTE_ADDR, hw]; omega)
    rw [ha, P2V_V2P]
  · apply UInt32.toNat_inj.1
    rw [toNat_PTE_FLAGS, toNat_PTE_FLAGS, hw]
    omega

theorem bytes_of_outside {qs : List UInt32} {m m' : UInt32 → UInt8} (h : Word.Outside qs m m') {f : UInt32}
    (hf : f.toNat % 4096 = 0) (hq : ∀ q ∈ qs, f.toNat / 4096 ≠ q.toNat / 4096) :
    Word.bytes m' f 4096 = Word.bytes m f 4096 :=
  Word.bytes_congr fun j hj => h _ fun q hq' => by
    have hpage : (f + j.toUInt32).toNat / 4096 = f.toNat / 4096 := by
      have := f.toNat_lt
      simp only [UInt32.toNat_add, Nat.toUInt32, UInt32.toNat_ofNat']
      omega
    rw [hpage]
    exact hq q hq'

theorem pagesIn_subset {lo hi hi' : UInt32} (h : hi.toNat ≤ hi'.toNat) :
    ∀ va ∈ pagesIn lo hi, va ∈ pagesIn lo hi' := by
  intro va hva
  obtain ⟨p, hp, rfl⟩ := List.mem_map.1 hva
  rw [List.mem_range'_1] at hp
  exact List.mem_map.2 ⟨p, List.mem_range'_1.2 (by omega), rfl⟩

theorem bytes_copy_self {m : UInt32 → UInt8} {a : UInt32} {bs : List UInt8} {n : Nat} (hn : bs.length = n)
    (h : n ≤ 2 ^ 32) : Word.bytes (Word.copy m a bs) a n = bs := by
  subst hn
  apply List.ext_getElem (by rw [Word.length_bytes])
  intro j hj _
  have hj' : j < bs.length := by rwa [Word.length_bytes] at hj
  have hsub : (a + j.toUInt32 - a).toNat = j := by
    have := a.toNat_lt
    simp only [UInt32.toNat_sub, UInt32.toNat_add, Nat.toUInt32, UInt32.toNat_ofNat']
    omega
  simp only [Word.bytes, List.getElem_map, List.getElem_range]
  rw [Word.copy_apply_of_lt (by rw [hsub]; exact hj')]
  simp only [hsub]

/-- The parent's directory as `copyuvm` reads it: a sound directory none of whose pages is free,
with the user pages below `PGROUNDUP(sz)` present. -/
structure Parent (vm₀ : Vm) (pgdir sz : UInt32) : Prop where
  sound : Sound vm₀ pgdir
  notFree : ∀ q ∈ vm₀.owned pgdir, q ∉ vm₀.freelist
  small : sz ≤ KERNBASE
  present : ∀ va ∈ pagesIn 0 sz, vm₀.mapped pgdir va = true

section Parent

variable {vm₀ vm : Vm} {pgdir sz d : UInt32} {xs : List UInt32}

theorem Parent.apart (hp : Parent vm₀ pgdir sz) (h₀ : FreeOk vm₀) (hm : Word.Outside vm₀.freelist vm₀.mem vm.mem) :
    Apart vm₀ vm pgdir vm₀.freelist where
  outside := hm
  aligned := (hp.sound.page pgdir List.mem_cons_self).aligned
  pages q hq := ⟨(h₀.page q hq).aligned, fun he => hp.notFree pgdir List.mem_cons_self (he ▸ hq),
    fun ht => hp.notFree q (mem_owned_of_table ht) hq⟩

theorem Parent.user (hp : Parent vm₀ pgdir sz) {va : UInt32} (hva : va ∈ pagesIn 0 sz) :
    va ∈ pagesIn 0 KERNBASE :=
  pagesIn_subset (UInt32.le_iff_toNat_le.1 hp.small) va hva

/-- What `copyuvm` reads of a parent's page below `sz`, while memory changes only inside free
pages: the walk finds the PTE as it was, present, and the page holds what it held. -/
theorem Parent.read (hp : Parent vm₀ pgdir sz) (h₀ : FreeOk vm₀) (hout : Word.Outside vm₀.freelist vm₀.mem vm.mem)
    {va : UInt32} (hva : va ∈ pagesIn 0 sz) :
    vm.walkpgdir pgdir va false = (vm₀.pteAddr pgdir va, vm) ∧ vm₀.pteAddr pgdir va ≠ 0 ∧
      Word.load vm.mem (vm₀.pteAddr pgdir va) = Word.load vm₀.mem (vm₀.pteAddr pgdir va) ∧
      Word.load vm₀.mem (vm₀.pteAddr pgdir va) &&& PTE_P ≠ 0 ∧
      Word.bytes vm.mem (vm₀.frame pgdir va) 4096 = Word.bytes vm₀.mem (vm₀.frame pgdir va) 4096 := by
  have happ := hp.apart h₀ hout
  have hm := hp.present va hva
  have hpd : vm₀.pdePresent pgdir (PDX va) = true := (Bool.and_eq_true_iff.1 hm).1
  have hpte : (Word.load vm₀.mem (vm₀.pteAddr pgdir va) &&& PTE_P != 0) = true := (Bool.and_eq_true_iff.1 hm).2
  refine ⟨?_, pteAddr_ne_zero hp.sound.tables hpd, happ.pte hpd, bne_iff_ne.1 hpte, ?_⟩
  · rw [walkpgdir_of_pdePresent (by rw [happ.pdePresent (PDX_lt va)]; exact hpd), happ.pteAddr]
  · -- the page is one of the parent's user pages, so not a free page
    have hf : vm₀.frame pgdir va ∈ vm₀.frames pgdir :=
      List.mem_map.2 ⟨va, List.mem_filter.2 ⟨hp.user hva, hm⟩, rfl⟩
    have hnf := hp.notFree _ (mem_owned_of_frame hf)
    refine bytes_of_outside hout (toNat_P2V_PTE_ADDR_mod _) fun q hq => ?_
    exact page_ne (toNat_P2V_PTE_ADDR_mod _) (h₀.page q hq).aligned fun he => hnf (he ▸ hq)

end Parent

theorem mem_pagesIn {lo hi va : UInt32} (hhi : hi ≤ KERNBASE) :
    va ∈ pagesIn lo hi ↔ va.toNat % 4096 = 0 ∧ lo.toNat / 4096 ≤ va.toNat / 4096 ∧
      va.toNat / 4096 < (hi.toNat + 4095) / 4096 := by
  have hb : (hi.toNat + 4095) / 4096 ≤ 2 ^ 20 := by
    rw [UInt32.le_iff_toNat_le] at hhi
    simp only [KERNBASE, UInt32.reduceToNat] at hhi
    omega
  constructor
  · intro h
    exact ⟨aligned_of_mem_pageRange hb h, page_of_mem_pageRange hb h⟩
  · rintro ⟨hal, hlo, hhi'⟩
    refine List.mem_map.2 ⟨va.toNat / 4096, List.mem_range'_1.2 (by omega), ?_⟩
    apply UInt32.toNat_inj.1
    rw [toNat_page (by omega)]
    omega

/-- `copyuvm`'s loop has copied the user pages below `i` into the directory at `d`: each is mapped,
with the parent's flags, to a page that holds the parent's bytes; and nothing from `i` on is mapped. -/
structure Copied (vm₀ vm : Vm) (pgdir d i : UInt32) : Prop where
  fresh : Fresh vm₀ vm d []
  copied : ∀ va ∈ pagesIn 0 i, vm.mapped d va = true ∧
    PTE_FLAGS (Word.load vm.mem (vm.pteAddr d va)) = PTE_FLAGS (Word.load vm₀.mem (vm₀.pteAddr pgdir va)) ∧
    Word.bytes vm.mem (vm.frame d va) 4096 = Word.bytes vm₀.mem (vm₀.frame pgdir va) 4096
  above : ∀ va ∈ pagesIn i KERNBASE, vm.mapped d va = false

section Pass

variable {vm₀ vm vm₂ vm₃ : Vm} {pgdir sz d i q : UInt32} {rest : List UInt32}

theorem Copied.start (h : Fresh vm₀ vm d []) (hu : UserEmpty vm d) : Copied vm₀ vm pgdir d 0 where
  fresh := h
  copied va hva := by simp [pagesIn, pageRange] at hva
  above va hva := by rw [mapped, hu _ (PDX_lt_512 (mem_pagesIn_user hva)), Bool.false_and]

theorem toNat_next_user (hiu : i ∈ pagesIn 0 KERNBASE) :
    i.toNat % 4096 = 0 ∧ (i + PGSIZE).toNat = i.toNat + 4096 ∧ i + PGSIZE ≤ KERNBASE := by
  obtain ⟨hal, -, hlt⟩ := (mem_pagesIn (show KERNBASE ≤ KERNBASE by decide)).1 hiu
  have hkb : KERNBASE.toNat = 0x80000000 := rfl
  have hnext : (i + PGSIZE).toNat = i.toNat + 4096 := toNat_add_PGSIZE (by rw [hkb] at hlt; omega)
  refine ⟨hal, hnext, ?_⟩
  rw [UInt32.le_iff_toNat_le, hnext, hkb]
  rw [hkb] at hlt
  omega

theorem length_tables_le (vm : Vm) (d : UInt32) : (vm.tables d).length ≤ NPDENTRIES :=
  calc (vm.tables d).length ≤ (List.range 1024).length := by
        rw [tables, List.length_map]
        exact List.length_filter_le _ _
    _ = NPDENTRIES := List.length_range

theorem Copied.length_frames_le (hc : Copied vm₀ vm pgdir d i) (hi : i.toNat % 4096 = 0) (hik : i ≤ KERNBASE) :
    (vm.frames d).length ≤ i.toNat / 4096 := by
  have hik' := UInt32.le_iff_toNat_le.1 hik
  have hkb : KERNBASE.toNat = 0x80000000 := rfl
  have hsplit : pagesIn 0 KERNBASE = pagesIn 0 i ++ pagesIn i KERNBASE := by
    rw [pagesIn_user, pagesIn, pagesIn, hkb, UInt32.toNat_zero, Nat.zero_div,
      show (i.toNat + 4095) / 4096 = i.toNat / 4096 by omega]
    exact pageRange_append (Nat.zero_le _) (by omega)
  have habove : (pagesIn i KERNBASE).filter (vm.mapped d) = [] :=
    List.filter_eq_nil_iff.2 fun va hva => by rw [hc.above va hva]; decide
  calc (vm.frames d).length = ((pagesIn 0 i).filter (vm.mapped d)).length := by
        rw [frames, freed, List.length_map, hsplit, List.filter_append, habove, List.append_nil]
    _ ≤ (pagesIn 0 i).length := List.length_filter_le _ _
    _ = i.toNat / 4096 := by rw [pagesIn, length_pageRange, UInt32.toNat_zero]; omega

/-- Every page the loop took from `vm₀`'s free list is the new directory's: with the loop at `i`,
that free list held at most the directory, a table per entry, a page per page below `i`, and
what is still free. -/
theorem Copied.length_le (hc : Copied vm₀ vm pgdir d i) (hi : i.toNat % 4096 = 0) (hik : i ≤ KERNBASE) :
    vm₀.freelist.length ≤ NPDENTRIES + 1 + i.toNat / 4096 + vm.freelist.length := by
  have hlen := hc.fresh.perm.length_eq
  rw [List.nil_append, List.length_append, owned, List.length_cons, List.length_append] at hlen
  have ht := length_tables_le vm d
  have hf := hc.length_frames_le hi hik
  omega

/-- A user page mapped before a pass that takes the free page `q`, walks to the page table of `i`
and sets the PTE of another page `i`: it stays mapped, to the same page, with its PTE and its
bytes. -/
theorem pass_keeps (h₀ : FreeOk vm₀) (hf : Fresh vm₀ vm d []) (hfl : vm.freelist = q :: rest)
    (happ : Apart vm vm₂ d [q]) (hfl₂ : vm₂.freelist = rest) (hwk : Walked vm₀ vm₂ vm₃ d i [q]) (w : UInt32)
    {va : UInt32} (hvu : va ∈ pagesIn 0 KERNBASE) (hmv : vm.mapped d va = true)
    (hpi : va.toNat / 4096 ≠ i.toNat / 4096) :
    (vm₃.setPte d i w).mapped d va = true ∧
      Word.load (vm₃.setPte d i w).mem ((vm₃.setPte d i w).pteAddr d va) = Word.load vm.mem (vm.pteAddr d va) ∧
      (vm₃.setPte d i w).frame d va = vm.frame d va ∧
      Word.bytes (vm₃.setPte d i w).mem (vm.frame d va) 4096 = Word.bytes vm.mem (vm.frame d va) 4096 := by
  have htab₃ := (hwk.fresh.sound h₀).tables
  have hqa := (hwk.fresh.taken_apart h₀ List.mem_cons_self).1
  have hnd : (q :: rest).Nodup := by
    rw [← hfl]
    exact (hf.freeOk h₀).nodup
  -- the three writes of the pass, each inside pages it names
  have hout₂ : Word.Outside [q] vm.mem vm₂.mem := happ.outside
  have hout₃ : Word.Outside (d :: rest) vm₂.mem vm₃.mem := hfl₂ ▸ hwk.outside
  have ht : vm₃.table d (PDX i) ∈ vm₃.tables d := table_mem_tables (PDX_lt i) hwk.present
  have hdal := ((hf.sound h₀).page d List.mem_cons_self).aligned
  have hral : ∀ x ∈ rest, x.toNat % 4096 = 0 := fun x hx =>
    ((hf.freeOk h₀).page x (by rw [hfl]; exact List.mem_cons_of_mem _ hx)).aligned
  have hpd : vm.pdePresent d (PDX va) = true := (Bool.and_eq_true_iff.1 hmv).1
  have hm₂ : vm₂.mapped d va = true := (happ.mapped va).trans hmv
  have hm₃ : vm₃.mapped d va = true := (hwk.mapped va).trans hm₂
  have hword₃ : Word.load vm₃.mem (vm₃.pteAddr d va) = Word.load vm.mem (vm.pteAddr d va) := by
    rw [hwk.pte va hm₂, happ.pteAddr, happ.pte hpd]
  have hword : Word.load (vm₃.setPte d i w).mem ((vm₃.setPte d i w).pteAddr d va) =
      Word.load vm.mem (vm.pteAddr d va) := by
    rw [setPte_pteAddr htab₃ hwk.present, setPte_pte_of_page_ne htab₃ hwk.present hpi (Bool.and_eq_true_iff.1 hm₃).1,
      hword₃]
  -- the page it maps is a user page of the directory, apart from what the pass wrote
  have hff : vm.frame d va ∈ vm.frames d := List.mem_map.2 ⟨va, List.mem_filter.2 ⟨hvu, hmv⟩, rfl⟩
  have hff₃ : vm.frame d va ∈ vm₃.frames d := by
    have hfr : vm₃.frame d va = vm.frame d va := by rw [frame, frame, hword₃]
    exact hfr ▸ List.mem_map.2 ⟨va, List.mem_filter.2 ⟨hvu, hm₃⟩, rfl⟩
  obtain ⟨hfd, -, -, hffl⟩ := hf.frame_apart h₀ hff
  obtain ⟨-, hft, -, -⟩ := hwk.fresh.frame_apart h₀ hff₃
  have hfal : (vm.frame d va).toNat % 4096 = 0 := toNat_P2V_PTE_ADDR_mod _
  refine ⟨(setPte_mapped_of_page_ne htab₃ hwk.present hpi).1.trans hm₃, hword, by rw [frame, hword, ← frame], ?_⟩
  rw [bytes_of_outside setPte_outside hfal fun x hx => by
      rw [List.mem_singleton.1 hx]
      exact page_ne hfal (table_aligned _) fun he' => hft (he' ▸ ht),
    bytes_of_outside hout₃ hfal fun x hx => ?_,
    bytes_of_outside hout₂ hfal fun x hx => by
      rw [List.mem_singleton.1 hx]
      exact page_ne hfal hqa fun he' => hffl (by rw [he', hfl]; exact List.mem_cons_self)]
  rcases List.mem_cons.1 hx with rfl | hx
  · exact page_ne hfal hdal hfd
  · exact page_ne hfal (hral x hx) fun he' => hffl (by rw [he', hfl]; exact List.mem_cons_of_mem _ hx)

theorem pass_new (h₀ : FreeOk vm₀) (hf : Fresh vm₀ vm d []) (hfl : vm.freelist = q :: rest)
    (hfl₂ : vm₂.freelist = rest) (hwk : Walked vm₀ vm₂ vm₃ d i [q]) (w : UInt32) :
    Word.bytes (vm₃.setPte d i w).mem q 4096 = Word.bytes vm₂.mem q 4096 := by
  obtain ⟨hqa, hqd, hqt⟩ := hwk.fresh.taken_apart h₀ List.mem_cons_self
  have hnd : (q :: rest).Nodup := by
    rw [← hfl]
    exact (hf.freeOk h₀).nodup
  have hout₃ : Word.Outside (d :: rest) vm₂.mem vm₃.mem := hfl₂ ▸ hwk.outside
  have ht : vm₃.table d (PDX i) ∈ vm₃.tables d := table_mem_tables (PDX_lt i) hwk.present
  have hdal := ((hf.sound h₀).page d List.mem_cons_self).aligned
  rw [bytes_of_outside setPte_outside hqa fun x hx => by
      rw [List.mem_singleton.1 hx]
      exact page_ne hqa (table_aligned _) fun he' => hqt (he' ▸ ht),
    bytes_of_outside hout₃ hqa fun x hx => ?_]
  rcases List.mem_cons.1 hx with rfl | hx
  · exact page_ne hqa hdal hqd
  · exact page_ne hqa ((hf.freeOk h₀).page x (by rw [hfl]; exact List.mem_cons_of_mem _ hx)).aligned
      fun he' => (List.nodup_cons.1 hnd).1 (he' ▸ hx)

/-- The pass at `i` copies page `i` of the parent into the taken page `q` and maps it with the
parent's flags. Memory changed only in `q`, in the directory's page and a page that was free (the
walk), and in the page table of `i`, so the copies below `i` stay as they were. -/
theorem Copied.next (h₀ : FreeOk vm₀) (hc : Copied vm₀ vm pgdir d i) (hiu : i ∈ pagesIn 0 KERNBASE)
    (hfl : vm.freelist = q :: rest) (happ : Apart vm vm₂ d [q]) (hfl₂ : vm₂.freelist = rest)
    (hcopy : Word.bytes vm₂.mem q 4096 = Word.bytes vm₀.mem (vm₀.frame pgdir i) 4096)
    (hwk : Walked vm₀ vm₂ vm₃ d i [q]) (he : Word.load vm₀.mem (vm₀.pteAddr pgdir i) &&& PTE_P ≠ 0) :
    Copied vm₀ (vm₃.setPte d i (V2P q ||| PTE_FLAGS (Word.load vm₀.mem (vm₀.pteAddr pgdir i)) ||| PTE_P))
      pgdir d (i + PGSIZE) := by
  have htab₃ := (hwk.fresh.sound h₀).tables
  obtain ⟨hqa, hqd, hqt⟩ := hwk.fresh.taken_apart h₀ List.mem_cons_self
  obtain ⟨hpres, hpa, hflags⟩ := copy_pte hqa he
  obtain ⟨hi, hinext, hile⟩ := toNat_next_user hiu
  have hkk : KERNBASE ≤ KERNBASE := by decide
  have hik : i ≤ KERNBASE := by
    rw [UInt32.le_iff_toNat_le] at hile ⊢
    omega
  have hmi : vm₃.mapped d i = false :=
    (hwk.mapped i).trans ((happ.mapped i).trans (hc.above i ((mem_pagesIn hkk).2 ⟨hi, le_refl _,
      ((mem_pagesIn hkk).1 hiu).2.2⟩)))
  refine ⟨?_, fun va hva => ?_, fun va hva => ?_⟩
  · have hf := Fresh.setPte_user h₀ hwk.fresh hiu hwk.present hmi List.mem_cons_self hpres hpa
    rwa [List.erase_cons_head] at hf
  · obtain ⟨hval, -, hvlt⟩ := (mem_pagesIn hile).1 hva
    rw [hinext] at hvlt
    by_cases hvi : va = i
    · -- the page copied in this pass
      subst hvi
      refine ⟨by rw [setPte_mapped_self htab₃ hwk.present]; exact hpres, ?_, ?_⟩
      · rw [setPte_pteAddr htab₃ hwk.present, setPte_pte_self, hflags]
      · rw [setPte_frame_self htab₃ hwk.present, hpa, pass_new h₀ hc.fresh hfl hfl₂ hwk, hcopy]
    · -- a page copied before: its PTE and its bytes are where the pass does not write
      have hpi : va.toNat / 4096 ≠ i.toNat / 4096 := fun h => hvi (UInt32.toNat_inj.1 (by omega))
      have hold : va ∈ pagesIn 0 i := (mem_pagesIn hik).2 ⟨hval, Nat.zero_le _, by omega⟩
      have hvu : va ∈ pagesIn 0 KERNBASE := pagesIn_subset (UInt32.le_iff_toNat_le.1 hik) va hold
      obtain ⟨hmv, hfv, hbv⟩ := hc.copied va hold
      obtain ⟨hm', hword, hfr, hbytes⟩ := pass_keeps h₀ hc.fresh hfl happ hfl₂ hwk _ hvu hmv hpi
      exact ⟨hm', by rw [hword]; exact hfv, by rw [hfr, hbytes]; exact hbv⟩
  · obtain ⟨hval, hlo, hhi⟩ := (mem_pagesIn hkk).1 hva
    rw [hinext] at hlo
    have hpi : va.toNat / 4096 ≠ i.toNat / 4096 := by omega
    rw [(setPte_mapped_of_page_ne htab₃ hwk.present hpi).1, hwk.mapped, happ.mapped]
    exact hc.above va ((mem_pagesIn hkk).2 ⟨hval, by omega, hhi⟩)

/-- One pass of `copyuvm`'s loop below `sz`: out of pages, in `kalloc` or in `mappages`' walk, it
gives everything back and returns 0, which it does only with at most one page free; otherwise it
copies page `i` and goes on. -/
theorem copyuvmLoop_pass (hp : Parent vm₀ pgdir sz) (h₀ : FreeOk vm₀) (hc : Copied vm₀ vm pgdir d i)
    (hi : i.toNat % 4096 = 0) (hlt : i < sz) (k : Nat) :
    (∃ vm', copyuvmLoop pgdir d sz (k + 1) i vm = .ok (0, vm') ∧ Undone vm₀ vm' ∧ vm.freelist.length ≤ 1) ∨
    ∃ vm', Copied vm₀ vm' pgdir d (i + PGSIZE) ∧
      copyuvmLoop pgdir d sz (k + 1) i vm = copyuvmLoop pgdir d sz k (i + PGSIZE) vm' := by
  have hiv : i ∈ pagesIn 0 sz :=
    (mem_pagesIn hp.small).2 ⟨hi, Nat.zero_le _, by have := UInt32.lt_iff_toNat_lt.1 hlt; omega⟩
  have hiu := hp.user hiv
  obtain ⟨-, hinext, -⟩ := toNat_next_user hiu
  obtain ⟨hwalk, hne, hload, hpres, hbytes⟩ := hp.read h₀ hc.fresh.outside hiv
  have hpres' : Word.load vm.mem (vm₀.pteAddr pgdir i) &&& PTE_P ≠ 0 := by rw [hload]; exact hpres
  cases hfl : vm.freelist with
  | nil =>
    -- no page for the copy: `goto bad`
    obtain ⟨vm', hfree, hundo⟩ := hc.fresh.freevm h₀
    left
    refine ⟨vm', ?_, hundo, Nat.zero_le _⟩
    rw [copyuvmLoop_nomem hlt hwalk hne hpres' hfl, hfree]
    rfl
  | cons q rest =>
    have hq : q ∈ vm.freelist := by rw [hfl]; exact List.mem_cons_self
    have hqok := hc.fresh.pageOk h₀ (hc.fresh.mem_of_free hq)
    -- `q` was free, so it is neither the directory nor one of its tables
    have hqo : q ∉ vm.owned d := fun ho =>
      List.disjoint_of_nodup_append (hc.fresh.nodup h₀) (List.mem_append_right _ ho) hq
    have hdal := ((hc.fresh.sound h₀).page d List.mem_cons_self).aligned
    rw [copyuvmLoop_copy hlt hwalk hne hpres' hfl (hqok.ne_zero (hc.fresh.kend ▸ h₀.kend)), hload]
    -- `memmove` of the parent's page into `q`, which does not wrap
    have hmv : memmove vm.mem q (P2V (PTE_ADDR (Word.load vm₀.mem (vm₀.pteAddr pgdir i)))) PGSIZE =
        Word.copy vm.mem q (Word.bytes vm.mem (vm₀.frame pgdir i) 4096) := by
      have hsrc := toNat_P2V_PTE_ADDR_mod (Word.load vm₀.mem (vm₀.pteAddr pgdir i))
      have := (P2V (PTE_ADDR (Word.load vm₀.mem (vm₀.pteAddr pgdir i)))).toNat_lt
      have := q.toNat_lt
      have := hqok.aligned
      exact memmove_eq_copy _ _ _ _ (by simp only [PGSIZE, UInt32.reduceToNat]; omega)
        (by simp only [PGSIZE, UInt32.reduceToNat]; omega)
    rw [hmv]
    generalize hvm₂ : ({ vm with freelist := rest, mem := Word.copy vm.mem q (Word.bytes vm.mem (vm₀.frame pgdir i) 4096) } : Vm) = vm₂
    have hm₂ : Word.Outside [q] vm.mem vm₂.mem := by
      rw [← hvm₂]
      dsimp only
      exact .copy_start List.mem_cons_self hqok.aligned (Word.length_bytes _ _).le
    have happ : Apart vm vm₂ d [q] := ⟨hm₂, hdal, fun x hx => by
      rw [List.mem_singleton.1 hx]
      exact ⟨hqok.aligned, fun he => hqo (by rw [he]; exact List.mem_cons_self),
        fun ht => hqo (mem_owned_of_table ht)⟩⟩
    have hf₂ : Fresh vm₀ vm₂ d [q] :=
      (hc.fresh.kalloc hfl).write h₀ List.mem_cons_self hm₂ (by rw [← hvm₂]) (by rw [← hvm₂]) (by rw [← hvm₂])
    have hcopy : Word.bytes vm₂.mem q 4096 = Word.bytes vm₀.mem (vm₀.frame pgdir i) 4096 := by
      rw [← hvm₂]
      dsimp only
      rw [bytes_copy_self (Word.length_bytes _ _) (by decide)]
      exact hbytes
    -- `mappages` of the one page
    have hkb : KERNBASE.toNat = 0x80000000 := rfl
    have hilt : i.toNat < 2 ^ 32 - 4096 := by
      have := ((mem_pagesIn (show KERNBASE ≤ KERNBASE by decide)).1 hiu).2.2
      rw [hkb] at this
      omega
    rw [mappages_page hi hilt]
    have hm : vm₂.mapped d i = false :=
      (happ.mapped i).trans (hc.above i ((mem_pagesIn (show KERNBASE ≤ KERNBASE by decide)).2
        ⟨hi, le_refl _, ((mem_pagesIn (show KERNBASE ≤ KERNBASE by decide)).1 hiu).2.2⟩))
    rcases mappagesLoop_pass h₀ hf₂ i (PTE_FLAGS (Word.load vm₀.mem (vm₀.pteAddr pgdir i))) (V2P q) 0 hm with
      ⟨hfl₂, -, hrun⟩ | ⟨vm₃, hwk, hrun⟩
    · -- no page for the page table: `kfree(mem)`, then `goto bad`
      obtain ⟨vm₄, hk₄⟩ := (hf₂.pageOk h₀ (hf₂.mem_of_taken List.mem_cons_self)).kfree
      have hf₄ := hf₂.kfree h₀ List.mem_cons_self hk₄
      rw [List.erase_cons_head] at hf₄
      obtain ⟨vm₅, hfree, hundo⟩ := hf₄.freevm h₀
      have hrest : rest = [] := by rw [← hvm₂] at hfl₂; exact hfl₂
      left
      refine ⟨vm₅, ?_, hundo, by rw [hrest]; exact le_rfl⟩
      rw [Nat.zero_add] at hrun
      rw [hrun, Except.ok_bind, if_pos (show (-1 : Int) < 0 by decide), hk₄, Except.ok_bind, hfree]
      rfl
    · rw [if_pos rfl, Nat.zero_add] at hrun
      right
      refine ⟨_, hc.next h₀ hiu hfl happ (by rw [← hvm₂]) hcopy hwk hpres, ?_⟩
      rw [hrun, Except.ok_bind, if_neg (show ¬(0 : Int) < 0 by decide)]

theorem toNat_PGROUNDUP_of_le {sz : UInt32} (h : sz ≤ KERNBASE) :
    (PGROUNDUP sz).toNat = (sz.toNat + 4095) / 4096 * 4096 := by
  rw [toNat_PGROUNDUP]
  rw [UInt32.le_iff_toNat_le] at h
  simp only [KERNBASE, UInt32.reduceToNat] at h
  rw [Nat.mod_eq_of_lt (by omega)]

/-- `copyuvm`'s loop from a page-aligned `i` up to `PGROUNDUP(sz)`, with more passes left than pages
to copy: it copies every page below `sz` and returns the directory, or, out of pages, it gives
everything back and returns 0. The induction is on the passes left; `Copied` carries the pages
done. -/
theorem copyuvmLoop_copies (hp : Parent vm₀ pgdir sz) (h₀ : FreeOk vm₀) :
    ∀ (k : Nat) (i : UInt32) (vm : Vm), Copied vm₀ vm pgdir d i → i.toNat % 4096 = 0 →
      i.toNat ≤ (PGROUNDUP sz).toNat → (PGROUNDUP sz).toNat / 4096 - i.toNat / 4096 < k →
      ∃ r vm', copyuvmLoop pgdir d sz k i vm = .ok (r, vm') ∧
        (r = d ∧ Copied vm₀ vm' pgdir d (PGROUNDUP sz) ∨
          r = 0 ∧ Undone vm₀ vm' ∧ vm₀.freelist.length ≤ NPDENTRIES + 1 + (PGROUNDUP sz).toNat / 4096)
  | 0, _, _, _, _, _, hk => absurd hk (Nat.not_lt_zero _)
  | k + 1, i, vm, hc, hi, hle, hk => by
    have hup := toNat_PGROUNDUP_of_le hp.small
    have hsz := UInt32.le_iff_toNat_le.1 hp.small
    have hkb : KERNBASE.toNat = 0x80000000 := rfl
    by_cases hlt : i < sz
    · have hlt' := UInt32.lt_iff_toNat_lt.1 hlt
      rcases copyuvmLoop_pass hp h₀ hc hi hlt k with ⟨vm', hrun, hundo, hfl⟩ | ⟨vm', hc', hrun⟩
      · -- out of pages at `i`, below `sz`: the pages taken so far bound the free list
        have hlen := hc.length_le hi (UInt32.le_iff_toNat_le.2 (by omega))
        exact ⟨0, vm', hrun, Or.inr ⟨rfl, hundo, by omega⟩⟩
      · -- the next page, still at most `PGROUNDUP(sz)`
        have hnext : (i + PGSIZE).toNat = i.toNat + 4096 := toNat_add_PGSIZE (by omega)
        rw [hrun]
        exact copyuvmLoop_copies hp h₀ k (i + PGSIZE) vm' hc' (by omega) (by omega) (by omega)
    · -- past `sz`: a page-aligned `i` not below `sz` and at most `PGROUNDUP(sz)` is `PGROUNDUP(sz)`
      have hlt' : ¬i.toNat < sz.toNat := fun h => hlt (UInt32.lt_iff_toNat_lt.2 h)
      have hend : i = PGROUNDUP sz := UInt32.toNat_inj.1 (by omega)
      refine ⟨d, vm, ?_, Or.inl ⟨rfl, hend ▸ hc⟩⟩
      rw [copyuvmLoop, if_neg hlt]
      rfl

/-- `copyuvm`: `setupkvm`, then the loop from address 0 with a pass for each page of the address
space. -/
theorem copyuvm_cases (hp : Parent vm₀ pgdir sz) (h₀ : FreeOk vm₀)
    (hdata : KERNLINK < vm₀.kdata ∧ vm₀.kdata < P2V PHYSTOP) (hal : vm₀.kdata.toNat % 4096 = 0) :
    ∃ r vm', vm₀.copyuvm pgdir sz = .ok (r, vm') ∧
      (r ≠ 0 ∧ Copied vm₀ vm' pgdir r (PGROUNDUP sz) ∨
        r = 0 ∧ Undone vm₀ vm' ∧ vm₀.freelist.length ≤ NPDENTRIES + 1 + (PGROUNDUP sz).toNat / 4096) := by
  obtain ⟨d, vm₁, hset, hd⟩ := setupkvm_fresh h₀ hdata hal
  rcases hd with ⟨hd0, hf, hu, -⟩ | ⟨rfl, hundo, hlen⟩
  · have hup := toNat_PGROUNDUP_of_le hp.small
    have hsz := UInt32.le_iff_toNat_le.1 hp.small
    have hkb : KERNBASE.toNat = 0x80000000 := rfl
    obtain ⟨r, vm', hrun, hr⟩ := copyuvmLoop_copies hp h₀ (NPDENTRIES * NPTENTRIES) 0 vm₁
      (Copied.start hf hu) (by decide) (Nat.zero_le _) (by simp only [NPDENTRIES, NPTENTRIES]; omega)
    refine ⟨r, vm', ?_, ?_⟩
    · rw [copyuvm, hset, Except.ok_bind]
      dsimp only
      rw [if_neg hd0, hrun]
    · rcases hr with ⟨rfl, hc⟩ | hr
      · exact Or.inl ⟨hd0, hc⟩
      · exact Or.inr hr
  · refine ⟨0, vm₁, ?_, Or.inr ⟨rfl, hundo, ?_⟩⟩
    · rw [copyuvm, hset, Except.ok_bind]
      rfl
    · unfold NPDENTRIES
      omega

theorem length_pagesIn_zero (h : sz ≤ KERNBASE) : (pagesIn 0 sz).length = (PGROUNDUP sz).toNat / 4096 := by
  rw [pagesIn, length_pageRange, toNat_PGROUNDUP_of_le h, UInt32.toNat_zero]
  omega

theorem mem_pagesIn_PGROUNDUP {sz va : UInt32} (h : sz ≤ KERNBASE) :
    va ∈ pagesIn 0 (PGROUNDUP sz) ↔ va ∈ pagesIn 0 sz := by
  have hup := toNat_PGROUNDUP_of_le h
  have hsz := UInt32.le_iff_toNat_le.1 h
  have hkb : KERNBASE.toNat = 0x80000000 := rfl
  have hup' : PGROUNDUP sz ≤ KERNBASE := by
    rw [UInt32.le_iff_toNat_le, hup, hkb]
    omega
  rw [mem_pagesIn hup', mem_pagesIn h, hup]
  constructor <;> rintro ⟨h₁, h₂, h₃⟩ <;> exact ⟨h₁, h₂, by omega⟩

/-- `copyuvm` of a parent whose user pages below `PGROUNDUP(sz)` are present never panics. Either it
returns 0, which it does only when the free list held at most `NPDENTRIES + 1` pages more than there
are pages below `sz`, every page it took is free again and memory changed only inside pages that
were free; or it returns a new directory that maps each of those pages, with the parent's flags, to a page
that was free, none of the parent's, holding the parent's bytes, maps no other user page, and the
parent's mappings and bytes are as they were. -/
theorem copyuvm_copies (hp : Parent vm₀ pgdir sz) (h₀ : FreeOk vm₀)
    (hdata : KERNLINK < vm₀.kdata ∧ vm₀.kdata < P2V PHYSTOP) (hal : vm₀.kdata.toNat % 4096 = 0) :
    ∃ d vm', vm₀.copyuvm pgdir sz = .ok (d, vm') ∧
      ((d = 0 ∧ vm₀.freelist.length ≤ NPDENTRIES + 1 + (pagesIn 0 sz).length ∧
          vm'.freelist.Perm vm₀.freelist ∧ Word.Outside vm₀.freelist vm₀.mem vm'.mem) ∨
       (d ≠ 0 ∧ (∀ va ∈ pagesIn 0 sz,
          vm'.mapped d va = true ∧
          PTE_FLAGS (Word.load vm'.mem (vm'.pteAddr d va)) = PTE_FLAGS (Word.load vm₀.mem (vm₀.pteAddr pgdir va)) ∧
          vm'.frame d va ∈ vm₀.freelist ∧ vm'.frame d va ∉ vm₀.owned pgdir ∧
          Word.bytes vm'.mem (vm'.frame d va) 4096 = Word.bytes vm₀.mem (vm₀.frame pgdir va) 4096 ∧
          vm'.mapped pgdir va = true ∧ vm'.frame pgdir va = vm₀.frame pgdir va ∧
          Word.bytes vm'.mem (vm'.frame pgdir va) 4096 = Word.bytes vm₀.mem (vm₀.frame pgdir va) 4096) ∧
        ∀ va ∈ pagesIn (PGROUNDUP sz) KERNBASE, vm'.mapped d va = false)) := by
  obtain ⟨d, vm', hrun, hr⟩ := copyuvm_cases hp h₀ hdata hal
  refine ⟨d, vm', hrun, ?_⟩
  rcases hr with ⟨hd0, hc⟩ | ⟨rfl, hundo, hlen⟩
  · refine Or.inr ⟨hd0, fun va hva => ?_, hc.above⟩
    obtain ⟨hm, hflags, hbytes⟩ := hc.copied va ((mem_pagesIn_PGROUNDUP hp.small).2 hva)
    have happ := hp.apart h₀ hc.fresh.outside
    obtain ⟨-, -, -, -, hpb⟩ := hp.read h₀ hc.fresh.outside hva
    have hpm := hp.present va hva
    -- the copy is one of the directory's user pages, so a page that was free
    have hff : vm'.frame d va ∈ vm'.frames d :=
      List.mem_map.2 ⟨va, List.mem_filter.2 ⟨hp.user hva, hm⟩, rfl⟩
    have hfree := hc.fresh.mem_of_owned (mem_owned_of_frame hff)
    have hpfr : vm'.frame pgdir va = vm₀.frame pgdir va := happ.frame (Bool.and_eq_true_iff.1 hpm).1
    exact ⟨hm, hflags, hfree, fun ho => hp.notFree _ ho hfree, hbytes, (happ.mapped va).trans hpm, hpfr,
      by rw [hpfr]; exact hpb⟩
  · exact Or.inl ⟨rfl, by rw [length_pagesIn_zero hp.small]; exact hlen, hundo.perm, hundo.outside⟩

/-- A process of one page, `onePageVm`'s: the directory at `0x80300000` maps user page 0, through
the page table at `0x80301000`, to the page at `0x80302000`, which here holds the word 42; and
2048 free pages from `0x80400000`. -/
def forkVm : Vm where
  mem := Word.store onePageVm.mem 0x80302000 42
  freelist := pageRange 0x80400 0x80C00
  kend := 0x80200000
  kdata := 0x80108000

theorem forkVm_freeOk : FreeOk forkVm where
  nodup := pageRange_nodup (by decide)
  page q hq := by
    have hb := page_of_mem_pageRange (show 0x80C00 ≤ 2 ^ 20 by decide) hq
    refine ⟨aligned_of_mem_pageRange (show 0x80C00 ≤ 2 ^ 20 by decide) hq, ?_, ?_⟩
    · show (0x80200000 : UInt32) ≤ q
      rw [UInt32.le_iff_toNat_le]
      simp only [UInt32.reduceToNat]
      omega
    · rw [UInt32.lt_iff_toNat_lt, V2P, UInt32.toNat_sub_of_le _ _ (UInt32.le_iff_toNat_le.2 (by
        simp only [KERNBASE, UInt32.reduceToNat]
        omega))]
      simp only [KERNBASE, PHYSTOP, UInt32.reduceToNat]
      omega
  kend := by decide

theorem forkVm_length : forkVm.freelist.length = 2048 := length_pageRange _ _

/-- The page written at `0x80302000` is apart from `onePageVm`'s directory: entry 0 only. -/
theorem forkVm_pdePresent {k : UInt32} (hk : k < 1024) (hp : forkVm.pdePresent 0x80300000 k = true) : k = 0 := by
  have hpde : forkVm.pde 0x80300000 k = onePageVm.pde 0x80300000 k :=
    load_store_other_page (by decide) hk (by decide) (by decide)
  exact onePageVm_pdePresent hk (by rw [pdePresent, ← hpde]; exact hp)

theorem forkVm_pte {j : UInt32} (hj : j < 1024) (hj0 : j ≠ 0) : Word.load forkVm.mem (0x80301000 + 4 * j) = 0 := by
  show Word.load (Word.store (Word.store (Word.store (fun _ => 0) 0x80300000 0x00301007) (0x80301000 + 4 * 0)
    0x00302007) 0x80302000 42) (0x80301000 + 4 * j) = 0
  rw [load_store_other_page (by decide) hj (by decide) (by decide),
    load_store_entry (by decide) (by decide) hj (Ne.symm hj0),
    load_store_other_page (by decide) hj (by decide) (by decide)]
  simp [Word.load]

theorem forkVm_mapped {va : UInt32} (hva : va ∈ pagesIn 0 KERNBASE) (hv0 : va ≠ 0) :
    forkVm.mapped 0x80300000 va = false := by
  cases hpd : forkVm.pdePresent 0x80300000 (PDX va) with
  | false => rw [mapped, hpd, Bool.false_and]
  | true =>
    -- entry 0 covers the first 4 MB: `va` is in its page table, at an entry other than 0
    have h0 := forkVm_pdePresent (PDX_lt va) hpd
    have hal := ((mem_pagesIn (show KERNBASE ≤ KERNBASE by decide)).1 hva).1
    have hpdx := congrArg UInt32.toNat h0
    rw [toNat_PDX, UInt32.toNat_zero] at hpdx
    have hne : va.toNat ≠ 0 := fun h => hv0 (UInt32.toNat_inj.1 (by rw [h, UInt32.toNat_zero]))
    have hptx : PTX va ≠ 0 := fun h => by
      have h' := congrArg UInt32.toNat h
      rw [toNat_PTX, UInt32.toNat_zero] at h'
      omega
    have htab : forkVm.table 0x80300000 0 = 0x80301000 := by decide
    rw [mapped, hpd, Bool.true_and, pteAddr, h0, htab, forkVm_pte (PTX_lt va) hptx]
    decide

theorem forkVm_owned : forkVm.owned 0x80300000 = [0x80300000, 0x80301000, 0x80302000] := by
  have htables : forkVm.tables 0x80300000 = [0x80301000] := by
    rw [tables, List.range_eq_range', List.range'_succ, List.filter_cons_of_pos (by decide),
      List.filter_eq_nil_iff.2 fun k hk hp => ?_]
    · decide
    · have hk' := List.mem_range'_1.1 hk
      have hkn : k.toUInt32.toNat = k := by
        rw [Nat.toUInt32_eq, UInt32.toNat_ofNat_of_lt' (show k < 4294967296 by omega)]
      have h0 := congrArg UInt32.toNat (forkVm_pdePresent (by
        rw [UInt32.lt_iff_toNat_lt, hkn]
        exact hk'.2) hp)
      rw [hkn, UInt32.toNat_zero] at h0
      omega
  have hframes : forkVm.frames 0x80300000 = [0x80302000] := by
    have hsplit : pagesIn 0 KERNBASE = pageRange 0 1 ++ pageRange 1 524288 :=
      pageRange_append (Nat.zero_le 1) (by decide)
    -- every user page but page 0 is unmapped
    have hrest : (pageRange 1 524288).filter (forkVm.mapped 0x80300000) = [] :=
      List.filter_eq_nil_iff.2 fun va hva hm => by
        have hb := page_of_mem_pageRange (by decide) hva
        have hu : va ∈ pagesIn 0 KERNBASE := by
          rw [hsplit]
          exact List.mem_append_right _ hva
        rw [forkVm_mapped hu fun h => by rw [h, UInt32.toNat_zero] at hb; omega] at hm
        exact Bool.false_ne_true hm
    rw [frames, freed, hsplit, List.filter_append, hrest, List.append_nil]
    decide
  rw [owned, htables, hframes]
  rfl

theorem forkVm_parent : Parent forkVm 0x80300000 4096 where
  sound := by
    refine ⟨by rw [forkVm_owned]; decide, fun q hq => ?_, by decide⟩
    rw [forkVm_owned] at hq
    simp only [List.mem_cons, List.mem_nil_iff, or_false] at hq
    rcases hq with rfl | rfl | rfl <;> exact ⟨by decide, by decide, by decide⟩
  notFree := by
    rw [forkVm_owned]
    intro q hq hf
    have hb := page_of_mem_pageRange (show 0x80C00 ≤ 2 ^ 20 by decide) hf
    simp only [List.mem_cons, List.mem_nil_iff, or_false] at hq
    rcases hq with rfl | rfl | rfl <;> simp only [UInt32.reduceToNat] at hb <;> omega
  small := by decide
  present va hva := by
    rw [show pagesIn 0 4096 = [0] by decide, List.mem_singleton] at hva
    subst hva
    decide

theorem copyuvm_copies_onePage :
    Parent forkVm 0x80300000 4096 ∧ ∃ d vm', forkVm.copyuvm 0x80300000 4096 = .ok (d, vm') ∧ d ≠ 0 ∧
      vm'.mapped d 0 = true ∧ vm'.frame d 0 ∈ forkVm.freelist ∧
      Word.bytes vm'.mem (vm'.frame d 0) 4096 = Word.bytes forkVm.mem 0x80302000 4096 := by
  obtain ⟨d, vm', hrun, hr⟩ := copyuvm_copies forkVm_parent forkVm_freeOk (by decide) (by decide)
  rcases hr with ⟨-, hlen, -⟩ | ⟨hd, hcopy, -⟩
  · -- 2048 free pages are more than a copy of one page can run out of
    rw [forkVm_length] at hlen
    exact absurd hlen (by decide)
  · obtain ⟨hm, -, hfree, -, hbytes, -⟩ := hcopy 0 (by decide)
    have hframe : forkVm.frame 0x80300000 0 = 0x80302000 := by decide
    exact ⟨forkVm_parent, d, vm', hrun, hd, hm, hfree, by rw [hbytes, hframe]⟩

end Pass

end Vm

end Xv6
