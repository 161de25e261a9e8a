import Xv6.Vm.Core

/-!
# What a page-table walk leaves alone

A page directory is one page of 1024 entries. `walkpgdir` writes a fresh page and one entry, and
`mappages` also the PTEs it fills, which lie in page tables. So as long as no free page and no
page table is the directory's own page (`PdirOk`), every entry outside the range `mappages` maps
keeps its value. `setupkvm` maps only the kernel's four ranges, so a new directory has no page
table for the addresses from `P2V(PHYSTOP)` up to `DEVSPACE`, and `allocuvm` below 4 MB adds
only entry 0.
-/

namespace Xv6

namespace Vm

/-- Entry `k` of the page directory at `pgdir`. -/
def pde (vm : Vm) (pgdir k : UInt32) : UInt32 := Word.load vm.mem (pgdir + 4 * k)

/-- The page directory at `pgdir` is apart from every page the allocator or a walk writes. -/
structure PdirOk (vm : Vm) (pgdir : UInt32) : Prop where
  aligned : pgdir.toNat % 4096 = 0
  free : ∀ q ∈ vm.freelist, q.toNat % 4096 = 0 ∧ q ≠ pgdir
  tables : ∀ k, k < 1024 → vm.pde pgdir k &&& PTE_P ≠ 0 → P2V (PTE_ADDR (vm.pde pgdir k)) ≠ pgdir

/-! ### Words of a page -/

section Geometry

variable {m : UInt32 → UInt8} {pgdir : UInt32}

theorem PDX_lt (va : UInt32) : PDX va < 1024 := by
  rw [UInt32.lt_iff_toNat_lt, toNat_PDX]
  have := va.toNat_lt
  simp only [UInt32.reduceToNat]
  omega

theorem PTX_lt (va : UInt32) : PTX va < 1024 := by
  rw [UInt32.lt_iff_toNat_lt, toNat_PTX]
  simp only [UInt32.reduceToNat]
  omega

theorem toNat_entry (h : pgdir.toNat % 4096 = 0) {k : UInt32} (hk : k < 1024) :
    (pgdir + 4 * k).toNat = pgdir.toNat + 4 * k.toNat := by
  have hk' : k.toNat < 1024 := hk
  have := pgdir.toNat_lt
  rw [UInt32.toNat_add, UInt32.toNat_mul]
  simp only [UInt32.reduceToNat]
  omega

theorem entry_mod_four (h : pgdir.toNat % 4096 = 0) {k : UInt32} (hk : k < 1024) :
    (pgdir + 4 * k).toNat % 4 = 0 := by
  rw [toNat_entry h hk]
  omega

theorem entry_page (h : pgdir.toNat % 4096 = 0) {k : UInt32} (hk : k < 1024) :
    (pgdir + 4 * k).toNat / 4096 = pgdir.toNat / 4096 := by
  have hk' : k.toNat < 1024 := hk
  rw [toNat_entry h hk]
  omega

theorem page_ne {a b : UInt32} (ha : a.toNat % 4096 = 0) (hb : b.toNat % 4096 = 0) (hab : a ≠ b) :
    a.toNat / 4096 ≠ b.toNat / 4096 := by
  have : a.toNat ≠ b.toNat := fun e => hab (UInt32.toNat_inj.1 e)
  omega

theorem load_store_entry (h : pgdir.toNat % 4096 = 0) {j k w : UInt32} (hj : j < 1024) (hk : k < 1024)
    (hjk : j ≠ k) :
    Word.load (Word.store m (pgdir + 4 * j) w) (pgdir + 4 * k) = Word.load m (pgdir + 4 * k) := by
  apply Word.load_store_of_ne (entry_mod_four h hj) (entry_mod_four h hk)
  intro e
  have e' := congrArg UInt32.toNat e
  rw [toNat_entry h hj, toNat_entry h hk] at e'
  exact hjk (UInt32.toNat_inj.1 (by omega))

theorem load_store_other_page (h : pgdir.toNat % 4096 = 0) {x k w : UInt32} (hk : k < 1024)
    (hx : x.toNat % 4 = 0) (hxp : x.toNat / 4096 ≠ pgdir.toNat / 4096) :
    Word.load (Word.store m x w) (pgdir + 4 * k) = Word.load m (pgdir + 4 * k) := by
  apply Word.load_store_of_ne hx (entry_mod_four h hk)
  rintro rfl
  exact hxp (entry_page h hk)

theorem load_fill_other_page (h : pgdir.toNat % 4096 = 0) {q k : UInt32} {v : UInt8} (hk : k < 1024)
    (hq : q.toNat % 4096 = 0) (hqp : q ≠ pgdir) :
    Word.load (Word.fill m q PGSIZE.toNat v) (pgdir + 4 * k) = Word.load m (pgdir + 4 * k) := by
  apply Word.load_fill_of_page_ne hq (entry_mod_four h hk) (by decide)
  rw [entry_page h hk]
  exact page_ne h hq (Ne.symm hqp)

theorem toNat_P2V_PTE_ADDR_mod (e : UInt32) : (P2V (PTE_ADDR e)).toNat % 4096 = 0 := by
  rw [P2V, UInt32.toNat_add, toNat_PTE_ADDR]
  simp only [KERNBASE, UInt32.reduceToNat]
  omega

theorem P2V_PTE_ADDR_new {q : UInt32} (hq : q.toNat % 4096 = 0) :
    P2V (PTE_ADDR (V2P q ||| PTE_P ||| PTE_W ||| PTE_U)) = q := by
  have hv : (V2P q).toNat % 2 ^ 12 = 0 := by
    rw [V2P, UInt32.toNat_sub]
    simp only [KERNBASE, UInt32.reduceToNat]
    omega
  have hor := Word.toNat_or_of_lt (V2P q) 7 12 hv (by decide)
  have hpa : PTE_ADDR (V2P q ||| 7) = V2P q := by
    apply UInt32.toNat_inj.1
    rw [toNat_PTE_ADDR, hor]
    simp only [UInt32.reduceToNat]
    omega
  rw [UInt32.or_assoc, UInt32.or_assoc, show PTE_P ||| (PTE_W ||| PTE_U) = 7 by decide, hpa, P2V_V2P]

end Geometry

/-! ### Frames of the walks -/

section Walk

variable {vm vm' : Vm} {pgdir : UInt32}

theorem pde_of_mem (hm : vm'.mem = vm.mem) (k : UInt32) : vm'.pde pgdir k = vm.pde pgdir k := by
  rw [pde, pde, hm]

theorem PdirOk.of_pde (h : PdirOk vm pgdir) (hp : ∀ k, k < 1024 → vm'.pde pgdir k = vm.pde pgdir k)
    (hf : ∀ q ∈ vm'.freelist, q ∈ vm.freelist) : PdirOk vm' pgdir where
  aligned := h.aligned
  free q hq := h.free q (hf q hq)
  tables k hk := by
    rw [hp k hk]
    exact h.tables k hk

theorem PdirOk.kalloc (h : PdirOk vm pgdir) : PdirOk vm.kalloc.2 pgdir :=
  h.of_pde (fun k _ => pde_of_mem kalloc_mem k) fun _ hq => mem_freelist_of_kalloc hq

theorem PdirOk.store (h : PdirOk vm pgdir) {x w : UInt32} (hx : x.toNat % 4 = 0)
    (hxp : x.toNat / 4096 ≠ pgdir.toNat / 4096) :
    PdirOk { vm with mem := Word.store vm.mem x w } pgdir ∧
      ∀ k, k < 1024 → pde { vm with mem := Word.store vm.mem x w } pgdir k = vm.pde pgdir k := by
  have hpde : ∀ k, k < 1024 → pde { vm with mem := Word.store vm.mem x w } pgdir k = vm.pde pgdir k :=
    fun k hk => load_store_other_page h.aligned hk hx hxp
  exact ⟨h.of_pde hpde fun _ hq => hq, hpde⟩

theorem PdirOk.fill (h : PdirOk vm pgdir) {q : UInt32} {v : UInt8} (hq : q.toNat % 4096 = 0)
    (hqp : q ≠ pgdir) :
    PdirOk { vm with mem := Word.fill vm.mem q PGSIZE.toNat v } pgdir ∧
      ∀ k, k < 1024 → pde { vm with mem := Word.fill vm.mem q PGSIZE.toNat v } pgdir k = vm.pde pgdir k := by
  have hpde : ∀ k, k < 1024 → pde { vm with mem := Word.fill vm.mem q PGSIZE.toNat v } pgdir k =
      vm.pde pgdir k :=
    fun k hk => load_fill_other_page h.aligned hk hq hqp
  exact ⟨h.of_pde hpde fun _ hq => hq, hpde⟩

/-- What `walkpgdir` with `alloc` set keeps: the directory stays apart, the entries of other
addresses keep their values, and the PTE it returns lies outside the directory's page. -/
theorem walkpgdir_frame (h : PdirOk vm pgdir) (va : UInt32) :
    PdirOk (vm.walkpgdir pgdir va true).2 pgdir ∧
    (∀ k, k < 1024 → k ≠ PDX va → (vm.walkpgdir pgdir va true).2.pde pgdir k = vm.pde pgdir k) ∧
    ((vm.walkpgdir pgdir va true).1 ≠ 0 → (vm.walkpgdir pgdir va true).1.toNat % 4 = 0 ∧
      (vm.walkpgdir pgdir va true).1.toNat / 4096 ≠ pgdir.toNat / 4096) := by
  by_cases hp : vm.pde pgdir (PDX va) &&& PTE_P ≠ 0
  · -- a page table is there: nothing is written
    rw [walkpgdir_present true hp]
    have ht := toNat_P2V_PTE_ADDR_mod (vm.pde pgdir (PDX va))
    exact ⟨h, fun _ _ _ => rfl, fun _ => ⟨entry_mod_four ht (PTX_lt va),
      (entry_page ht (PTX_lt va)).trans_ne (page_ne ht h.aligned (h.tables _ (PDX_lt va) hp))⟩⟩
  rw [not_not] at hp
  by_cases hk : vm.kalloc.1 = 0
  · rw [walkpgdir_alloc_zero hp hk]
    exact ⟨h.kalloc, fun k _ _ => pde_of_mem kalloc_mem k, fun h0 => absurd rfl h0⟩
  -- a new page table: the first free page, which is not the directory's page
  rw [walkpgdir_alloc hp hk]
  obtain ⟨hq, hqp⟩ := h.free _ (kalloc_mem_freelist hk)
  have hpde : ∀ k, k < 1024 → k ≠ PDX va → pde { vm.kalloc.2 with
      mem := Word.store (Word.fill vm.mem vm.kalloc.1 PGSIZE.toNat 0) (pgdir + 4 * PDX va)
        (V2P vm.kalloc.1 ||| PTE_P ||| PTE_W ||| PTE_U) } pgdir k = vm.pde pgdir k := fun k hk hne => by
    rw [pde, load_store_entry h.aligned (PDX_lt va) hk (Ne.symm hne),
      load_fill_other_page h.aligned hk hq hqp]
    rfl
  refine ⟨⟨h.aligned, fun q hq' => h.free q (mem_freelist_of_kalloc hq'), fun k hk' hpres => ?_⟩, hpde,
    fun _ => ⟨entry_mod_four hq (PTX_lt va), (entry_page hq (PTX_lt va)).trans_ne (page_ne hq h.aligned hqp)⟩⟩
  by_cases hkv : k = PDX va
  · subst hkv
    rw [pde, Word.load_store_self, P2V_PTE_ADDR_new hq]
    exact hqp
  · rw [hpde k hk' hkv] at hpres ⊢
    exact h.tables k hk' hpres

theorem PDX_mono {a b : UInt32} (h : a.toNat ≤ b.toNat) : PDX a ≤ PDX b := by
  rw [UInt32.le_iff_toNat_le, toNat_PDX, toNat_PDX]
  exact Nat.div_le_div_right h

/-- `mappages`' loop from `a` to `last` keeps the directory apart and changes only the entries
from `PDX a` to `PDX last`. -/
theorem mappagesLoop_frame {last perm : UInt32} (hlast : last.toNat % 4096 = 0) :
    ∀ (k : Nat) (a pa : UInt32) (vm vm' : Vm) (r : Int), PdirOk vm pgdir → a.toNat % 4096 = 0 →
      a.toNat ≤ last.toNat → mappagesLoop pgdir last perm k a pa vm = .ok (r, vm') →
      PdirOk vm' pgdir ∧
        ∀ j, j < 1024 → (j < PDX a ∨ PDX last < j) → vm'.pde pgdir j = vm.pde pgdir j
  | 0, a, pa, vm, vm', r, h, _, _, hm => by
    simp only [mappagesLoop, Except.pure_eq_ok, Except.ok.injEq, Prod.mk.injEq] at hm
    obtain ⟨-, rfl⟩ := hm
    exact ⟨h, fun _ _ _ => rfl⟩
  | k + 1, a, pa, vm, vm', r, h, ha, hle, hm => by
    obtain ⟨hok, hfr, hpte⟩ := walkpgdir_frame h a
    -- an entry outside the range is not the one of `a`
    have hout : ∀ j, (j < PDX a ∨ PDX last < j) → j ≠ PDX a := by
      have := PDX_mono hle
      rintro j (hj | hj) rfl
      · exact absurd hj (UInt32.lt_irrefl _)
      · exact absurd (UInt32.lt_of_le_of_lt this hj) (UInt32.lt_irrefl _)
    rw [mappagesLoop] at hm
    by_cases h0 : (vm.walkpgdir pgdir a true).1 = 0
    · simp only [if_pos h0, Except.pure_eq_ok, Except.ok.injEq, Prod.mk.injEq] at hm
      obtain ⟨-, rfl⟩ := hm
      exact ⟨hok, fun j hj hr => hfr j hj (hout j hr)⟩
    have hp : ¬(Word.load (vm.walkpgdir pgdir a true).2.mem (vm.walkpgdir pgdir a true).1 &&& PTE_P ≠ 0) := by
      intro hp
      simp [if_neg h0, if_pos hp] at hm
    simp only [if_neg h0, if_neg hp] at hm
    -- the PTE lies in a page table, not in the directory
    obtain ⟨h₁, hfr₁⟩ := hok.store (w := pa ||| perm ||| PTE_P) (hpte h0).1 (hpte h0).2
    by_cases hl : a = last
    · simp only [if_pos hl, Except.pure_eq_ok, Except.ok.injEq, Prod.mk.injEq] at hm
      obtain ⟨-, rfl⟩ := hm
      exact ⟨h₁, fun j hj hr => (hfr₁ j hj).trans (hfr j hj (hout j hr))⟩
    rw [if_neg hl] at hm
    -- `a` is below `last`, so the next page does not wrap
    have hlt : a.toNat < last.toNat := lt_of_le_of_ne hle fun e => hl (UInt32.toNat_inj.1 e)
    have hnext : (a + PGSIZE).toNat = a.toNat + 4096 := toNat_add_PGSIZE (by have := last.toNat_lt; omega)
    obtain ⟨h', hfr'⟩ := mappagesLoop_frame hlast k (a + PGSIZE) (pa + PGSIZE) _ vm' r h₁
      (by omega) (by omega) hm
    refine ⟨h', fun j hj hr => ?_⟩
    have hr' : j < PDX (a + PGSIZE) ∨ PDX last < j := by
      rcases hr with hr | hr
      · exact Or.inl (UInt32.lt_of_lt_of_le hr (PDX_mono (by omega)))
      · exact Or.inr hr
    rw [hfr' j hj hr', hfr₁ j hj, hfr j hj (hout j hr)]

theorem mappages_frame {va size pa perm : UInt32} {r : Int} (h : PdirOk vm pgdir)
    (hle : (PGROUNDDOWN va).toNat ≤ (PGROUNDDOWN (va + size - 1)).toNat)
    (hm : vm.mappages pgdir va size pa perm = .ok (r, vm')) :
    PdirOk vm' pgdir ∧ ∀ j, j < 1024 → (j < PDX (PGROUNDDOWN va) ∨ PDX (PGROUNDDOWN (va + size - 1)) < j) →
      vm'.pde pgdir j = vm.pde pgdir j := by
  have hal : ∀ x, (PGROUNDDOWN x).toNat % 4096 = 0 := fun x => by
    rw [toNat_PGROUNDDOWN]
    omega
  exact mappagesLoop_frame (hal _) _ _ _ _ _ _ h (hal _) hle hm


theorem walkpgdir_false_of_ne {va : UInt32} (h0 : (vm.walkpgdir pgdir va false).1 ≠ 0) :
    vm.walkpgdir pgdir va false = vm.walkpgdir pgdir va true := by
  by_cases hp : Word.load vm.mem (pgdir + 4 * PDX va) &&& PTE_P ≠ 0
  · rw [walkpgdir_present false hp, walkpgdir_present true hp]
  · rw [walkpgdir_absent (not_not.1 hp)] at h0
    exact absurd rfl h0

theorem clearpteu_frame {uva : UInt32} (h : PdirOk vm pgdir) (hc : vm.clearpteu pgdir uva = .ok vm') :
    PdirOk vm' pgdir ∧ ∀ j, j < 1024 → vm'.pde pgdir j = vm.pde pgdir j := by
  unfold clearpteu at hc
  by_cases h0 : (vm.walkpgdir pgdir uva false).1 = 0
  · simp [h0] at hc
  rw [if_neg h0, Except.pure_eq_ok, Except.ok.injEq] at hc
  subst hc
  obtain ⟨h4, hpg⟩ := (walkpgdir_frame h uva).2.2 (walkpgdir_false_of_ne h0 ▸ h0)
  rw [← walkpgdir_false_of_ne h0] at h4 hpg
  exact h.store h4 hpg

theorem zero_lt_of_ne {j : UInt32} (h : j ≠ 0) : 0 < j := by
  have : j.toNat ≠ 0 := fun e => h (UInt32.toNat_inj.1 e)
  rw [UInt32.lt_iff_toNat_lt]
  simp only [UInt32.reduceToNat]
  omega

/-- `allocuvm`'s loop below 4 MB that succeeds returns `newsz` and maps pages through entry 0
only. -/
theorem allocuvmLoop_frame {oldsz newsz : UInt32} (hnew : newsz.toNat ≤ 0x400000) :
    ∀ (k : Nat) (a : UInt32) (vm vm' : Vm) (sz : UInt32), PdirOk vm pgdir → a.toNat % 4096 = 0 →
      allocuvmLoop pgdir oldsz newsz k a vm = .ok (sz, vm') → sz ≠ 0 →
      sz = newsz ∧ PdirOk vm' pgdir ∧ ∀ j, j < 1024 → j ≠ 0 → vm'.pde pgdir j = vm.pde pgdir j
  | 0, a, vm, vm', sz, h, _, hl, _ => by
    simp only [allocuvmLoop, Except.pure_eq_ok, Except.ok.injEq, Prod.mk.injEq] at hl
    obtain ⟨rfl, rfl⟩ := hl
    exact ⟨rfl, h, fun _ _ _ => rfl⟩
  | k + 1, a, vm, vm', sz, h, ha, hl, hsz => by
    rw [allocuvmLoop] at hl
    by_cases hlt : a < newsz
    swap
    · simp only [if_neg hlt, Except.pure_eq_ok, Except.ok.injEq, Prod.mk.injEq] at hl
      obtain ⟨rfl, rfl⟩ := hl
      exact ⟨rfl, h, fun _ _ _ => rfl⟩
    rw [if_pos hlt] at hl
    by_cases hk : vm.kalloc.1 = 0
    · -- out of memory: `allocuvm` returns 0
      rw [if_pos hk, Except.bind_eq_ok] at hl
      obtain ⟨_, -, hl⟩ := hl
      simp only [Except.pure_eq_ok, Except.ok.injEq, Prod.mk.injEq] at hl
      exact absurd hl.1.symm hsz
    rw [if_neg hk, Except.bind_eq_ok] at hl
    obtain ⟨m, hm, hl⟩ := hl
    obtain ⟨hq, hqp⟩ := h.free _ (kalloc_mem_freelist hk)
    -- the fresh page is zeroed, then mapped at `a`, whose entry is entry 0
    obtain ⟨h₁, hfill⟩ := h.kalloc.fill (v := 0) hq hqp
    have hlt' : a.toNat < newsz.toNat := UInt32.lt_iff_toNat_lt.1 hlt
    have hend : (a + PGSIZE - 1).toNat = a.toNat + 4095 := by
      simp only [UInt32.toNat_sub, UInt32.toNat_add, PGSIZE, UInt32.reduceToNat]
      omega
    have hle : (PGROUNDDOWN a).toNat ≤ (PGROUNDDOWN (a + PGSIZE - 1)).toNat := by
      rw [toNat_PGROUNDDOWN, toNat_PGROUNDDOWN, hend]
      omega
    have hlast : PDX (PGROUNDDOWN (a + PGSIZE - 1)) = 0 := by
      apply UInt32.toNat_inj.1
      rw [toNat_PDX, toNat_PGROUNDDOWN, hend]
      simp only [UInt32.reduceToNat]
      omega
    obtain ⟨h₂, hfr₂⟩ := mappages_frame h₁ hle hm
    have hfr₂' : ∀ j, j < 1024 → j ≠ 0 → m.2.pde pgdir j = vm.pde pgdir j := fun j hj hj0 =>
      (hfr₂ j hj (Or.inr (hlast ▸ zero_lt_of_ne hj0))).trans ((hfill j hj).trans (pde_of_mem kalloc_mem j))
    by_cases hneg : m.1 < 0
    · -- `mappages` failed: `allocuvm` returns 0
      rw [if_pos hneg, Except.bind_eq_ok] at hl
      obtain ⟨_, -, hl⟩ := hl
      rw [Except.bind_eq_ok] at hl
      obtain ⟨_, -, hl⟩ := hl
      simp only [Except.pure_eq_ok, Except.ok.injEq, Prod.mk.injEq] at hl
      exact absurd hl.1.symm hsz
    rw [if_neg hneg] at hl
    have ha' : (a + PGSIZE).toNat % 4096 = 0 := by
      simp only [UInt32.toNat_add, PGSIZE, UInt32.reduceToNat]
      omega
    obtain ⟨rfl, h', hfr'⟩ := allocuvmLoop_frame hnew k (a + PGSIZE) m.2 vm' sz h₂ ha' hl hsz
    exact ⟨rfl, h', fun j hj hj0 => (hfr' j hj hj0).trans (hfr₂' j hj hj0)⟩

theorem allocuvm_frame {oldsz newsz sz : UInt32} (h : PdirOk vm pgdir) (hnew : newsz.toNat ≤ 0x400000)
    (ha : vm.allocuvm pgdir oldsz newsz = .ok (sz, vm')) (hsz : sz ≠ 0) :
    (oldsz ≤ newsz → sz = newsz) ∧ PdirOk vm' pgdir ∧
      ∀ j, j < 1024 → j ≠ 0 → vm'.pde pgdir j = vm.pde pgdir j := by
  unfold allocuvm at ha
  split_ifs at ha with hk hlt
  · exact absurd (Prod.mk.inj (Except.ok.inj ha)).1.symm hsz
  · obtain ⟨-, rfl⟩ := Prod.mk.inj (Except.ok.inj ha)
    exact ⟨fun hle => absurd hlt (UInt32.not_lt.2 hle), h, fun _ _ _ => rfl⟩
  · have hal : (PGROUNDUP oldsz).toNat % 4096 = 0 := by
      rw [toNat_PGROUNDUP]
      omega
    obtain ⟨rfl, h', hfr⟩ := allocuvmLoop_frame hnew _ _ _ _ _ h hal ha hsz
    exact ⟨fun _ => rfl, h', hfr⟩

end Walk

/-! ### The hole in a new directory -/

/-- No page table for the addresses from `P2V(PHYSTOP)` up to `DEVSPACE`, which no kernel mapping
covers: page directory entries 568 to 1015 are 0. -/
structure Hole (vm : Vm) (pgdir : UInt32) : Prop where
  ok : PdirOk vm pgdir
  empty : ∀ j, 568 ≤ j → j < 1016 → vm.pde pgdir j = 0

section Setupkvm

/-- An invariant every mapping of the list keeps holds after `setupkvm`'s loop, unless it gives up
with 0. -/
theorem setupkvmLoop_inv (I : Vm → Prop) {pgdir : UInt32} :
    ∀ (ks : List (UInt32 × UInt32 × UInt32 × UInt32)) (vm vm' : Vm) (pgdir' : UInt32),
      (∀ e ∈ ks, ∀ vm₁ vm₂ r, I vm₁ →
        vm₁.mappages pgdir e.1 (e.2.2.1 - e.2.1) e.2.1 e.2.2.2 = .ok (r, vm₂) → I vm₂) →
      I vm → setupkvmLoop pgdir ks vm = .ok (pgdir', vm') → pgdir' ≠ 0 → pgdir' = pgdir ∧ I vm'
  | [], vm, vm', pgdir', _, hI, hl, _ => by
    simp only [setupkvmLoop, Except.pure_eq_ok, Except.ok.injEq, Prod.mk.injEq] at hl
    obtain ⟨rfl, rfl⟩ := hl
    exact ⟨rfl, hI⟩
  | (virt, ps, pe, perm) :: ks, vm, vm', pgdir', hks, hI, hl, h0 => by
    rw [setupkvmLoop, Except.bind_eq_ok] at hl
    obtain ⟨m, hm, hl⟩ := hl
    have hI₁ := hks _ List.mem_cons_self vm m.2 m.1 hI hm
    by_cases hneg : m.1 < 0
    · -- a mapping failed: the directory is freed and 0 returned
      rw [if_pos hneg, Except.bind_eq_ok] at hl
      obtain ⟨_, -, hl⟩ := hl
      simp only [Except.pure_eq_ok, Except.ok.injEq, Prod.mk.injEq] at hl
      exact absurd hl.1.symm h0
    rw [if_neg hneg] at hl
    exact setupkvmLoop_inv I ks m.2 vm' pgdir' (fun e he => hks e (List.mem_cons_of_mem _ he)) hI₁ hl h0

/-- A range of entries that misses the hole from entry 568 to entry 1015. -/
theorem outside_hole {a l j : UInt32} (hl : (PDX l).toNat < 568 ∨ 1016 ≤ (PDX a).toNat)
    (hj1 : 568 ≤ j) (hj2 : j < 1016) : j < PDX a ∨ PDX l < j := by
  rw [UInt32.le_iff_toNat_le] at hj1
  rw [UInt32.lt_iff_toNat_lt] at hj2 ⊢
  rw [UInt32.lt_iff_toNat_lt]
  simp only [UInt32.reduceToNat] at hj1 hj2
  omega

/-- Each kernel mapping covers a range of pages that misses the hole: the kernel's image and
data below `P2V(PHYSTOP)`, and the devices from `DEVSPACE` on. -/
theorem kmap_outside_hole {kdata : UInt32} (hdata : KERNLINK < kdata ∧ kdata < P2V PHYSTOP) :
    ∀ e ∈ kmap kdata, (PGROUNDDOWN e.1).toNat ≤ (PGROUNDDOWN (e.1 + (e.2.2.1 - e.2.1) - 1)).toNat ∧
      ((PDX (PGROUNDDOWN (e.1 + (e.2.2.1 - e.2.1) - 1))).toNat < 568 ∨
        1016 ≤ (PDX (PGROUNDDOWN e.1)).toNat) := by
  have hk : 0x80100000 < kdata.toNat ∧ kdata.toNat < 0x8E000000 := by
    rw [UInt32.lt_iff_toNat_lt, UInt32.lt_iff_toNat_lt] at hdata
    exact hdata
  simp only [kmap, List.mem_cons, List.mem_nil_iff, or_false]
  rintro e (rfl | rfl | rfl | rfl)
  · decide
  · -- the kernel's text, up to `data`
    have hlast : (KERNLINK + (V2P kdata - V2P KERNLINK) - 1).toNat = kdata.toNat - 1 := by
      simp only [KERNLINK, KERNBASE, EXTMEM, V2P, UInt32.toNat_add, UInt32.toNat_sub, UInt32.reduceToNat]
      omega
    have hlink : KERNLINK.toNat = 0x80100000 := by decide
    simp only [toNat_PDX, toNat_PGROUNDDOWN, hlast, hlink]
    omega
  · -- the kernel's data and free memory, up to `P2V(PHYSTOP)`
    have hlast : (kdata + (PHYSTOP - V2P kdata) - 1).toNat = 0x8DFFFFFF := by
      simp only [PHYSTOP, KERNBASE, V2P, UInt32.toNat_add, UInt32.toNat_sub, UInt32.reduceToNat]
      omega
    simp only [toNat_PDX, toNat_PGROUNDDOWN, hlast]
    omega
  · decide

theorem setupkvm_hole {vm vm' : Vm} {pgdir : UInt32}
    (hfree : ∀ q ∈ vm.freelist, q.toNat % 4096 = 0) (hnodup : vm.freelist.Nodup)
    (hdata : KERNLINK < vm.kdata ∧ vm.kdata < P2V PHYSTOP)
    (h : vm.setupkvm = .ok (pgdir, vm')) (h0 : pgdir ≠ 0) : Hole vm' pgdir := by
  unfold setupkvm at h
  by_cases hk : vm.kalloc.1 = 0
  · simp only [if_pos hk, Except.pure_eq_ok, Except.ok.injEq, Prod.mk.injEq] at h
    exact absurd h.1.symm h0
  rw [if_neg hk, if_neg (by decide)] at h
  -- the directory is the first free page, zeroed; no other free page is it
  have hq := hfree _ (kalloc_mem_freelist hk)
  have hrest : vm.kalloc.1 ∉ vm.kalloc.2.freelist :=
    (List.nodup_cons.1 (freelist_eq_kalloc hk ▸ hnodup)).1
  have hzero : ∀ k, k < 1024 → pde { vm.kalloc.2 with
      mem := Word.fill vm.kalloc.2.mem vm.kalloc.1 PGSIZE.toNat 0 } vm.kalloc.1 k = 0 := fun k hk' =>
    Word.load_fill_zero fun j hj => by
      have hj' : j.toNat < 4 := hj
      have hk'' : k.toNat < 1024 := hk'
      have hq' := vm.kalloc.1.toNat_lt
      rw [UInt32.toNat_sub, (Word.word_page (entry_mod_four hq hk') hj).1, toNat_entry hq hk']
      simp only [PGSIZE, UInt32.reduceToNat]
      omega
  have h₀ : PdirOk { vm.kalloc.2 with mem := Word.fill vm.kalloc.2.mem vm.kalloc.1 PGSIZE.toNat 0 }
      vm.kalloc.1 :=
    ⟨hq, fun x hx => ⟨hfree x (mem_freelist_of_kalloc hx), fun e => hrest (e ▸ hx)⟩,
      fun k hk' hp => absurd (hzero k hk' ▸ hp) (by decide)⟩
  -- every kernel mapping leaves the hole alone
  have hkeep : ∀ e ∈ kmap vm.kdata, ∀ vm₁ vm₂ r, Hole vm₁ vm.kalloc.1 →
      vm₁.mappages vm.kalloc.1 e.1 (e.2.2.1 - e.2.1) e.2.1 e.2.2.2 = .ok (r, vm₂) → Hole vm₂ vm.kalloc.1 := by
    rintro e he vm₁ vm₂ r ⟨hok, hz⟩ hm
    obtain ⟨hle, hout⟩ := kmap_outside_hole hdata e he
    obtain ⟨hok₂, hfr⟩ := mappages_frame hok hle hm
    refine ⟨hok₂, fun j hj1 hj2 => ?_⟩
    rw [hfr j (UInt32.lt_of_lt_of_le hj2 (by decide)) (outside_hole hout hj1 hj2), hz j hj1 hj2]
  obtain ⟨rfl, hI⟩ := setupkvmLoop_inv (fun vm₁ => Hole vm₁ vm.kalloc.1) (kmap vm.kdata) _ vm' pgdir hkeep
    ⟨h₀, fun j _ hj => hzero j (UInt32.lt_of_lt_of_le hj (by decide))⟩ h h0
  exact hI

end Setupkvm

namespace Hole

variable {vm vm' : Vm} {pgdir : UInt32}

theorem allocuvm {oldsz newsz sz : UInt32} (h : Hole vm pgdir) (hnew : newsz.toNat ≤ 0x400000)
    (ha : vm.allocuvm pgdir oldsz newsz = .ok (sz, vm')) (hsz : sz ≠ 0) : Hole vm' pgdir := by
  obtain ⟨-, hok, hfr⟩ := allocuvm_frame h.ok hnew ha hsz
  refine ⟨hok, fun j hj1 hj2 => ?_⟩
  have hj0 : j ≠ 0 := by
    rintro rfl
    exact absurd hj1 (by decide)
  rw [hfr j (UInt32.lt_of_lt_of_le hj2 (by decide)) hj0, h.empty j hj1 hj2]

theorem clearpteu {uva : UInt32} (h : Hole vm pgdir) (hc : vm.clearpteu pgdir uva = .ok vm') :
    Hole vm' pgdir := by
  obtain ⟨hok, hfr⟩ := clearpteu_frame h.ok hc
  refine ⟨hok, fun j hj1 hj2 => ?_⟩
  rw [hfr j (UInt32.lt_of_lt_of_le hj2 (by decide)), h.empty j hj1 hj2]

end Hole

end Vm

end Xv6
