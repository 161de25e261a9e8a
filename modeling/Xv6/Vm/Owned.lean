import Xv6.Lib.Alloc
import Xv6.Vm.Dealloc

/-!
# The pages a page directory owns (`freevm`)

A page directory owns its own page, its page tables and the user pages it maps below `KERNBASE`
(`owned`); what it maps above is the kernel's memory. `freevm` hands all of them to `kfree`: the
user pages in address order (its `deallocuvm`), then the page tables in entry order, then the
directory, and it writes nowhere else (`freevm_frees`). That needs the pages to be distinct pages
`kfree` takes (`Sound`).
-/

namespace Xv6

namespace Vm

/-- The user pages the directory at `d` maps, address by address. -/
def frames (vm : Vm) (d : UInt32) : List UInt32 := vm.freed d (pagesIn 0 KERNBASE)

/-- The pages the directory at `d` owns: itself, its page tables, its user pages. -/
def owned (vm : Vm) (d : UInt32) : List UInt32 := d :: (vm.tables d ++ vm.frames d)

/-- A page `kfree` takes. -/
structure PageOk (vm : Vm) (q : UInt32) : Prop where
  aligned : q.toNat % 4096 = 0
  kend : vm.kend ≤ q
  phys : V2P q < PHYSTOP

/-- The pages a directory owns are distinct pages `kfree` takes, above the kernel's image. -/
structure Sound (vm : Vm) (d : UInt32) : Prop where
  nodup : (vm.owned d).Nodup
  page : ∀ q ∈ vm.owned d, PageOk vm q
  kend : KERNBASE < vm.kend

theorem PageOk.mod {vm : Vm} {q : UInt32} (h : PageOk vm q) : q % PGSIZE = 0 :=
  UInt32.toNat_inj.1 (by rw [UInt32.toNat_mod]; exact h.aligned)

theorem PageOk.V2P_ne_zero {vm : Vm} {q : UInt32} (h : PageOk vm q) (hk : KERNBASE < vm.kend) : V2P q ≠ 0 := by
  intro h0
  have e := congrArg UInt32.toNat h0
  have h₁ : KERNBASE.toNat < vm.kend.toNat := hk
  have h₂ : vm.kend.toNat ≤ q.toNat := h.kend
  have := q.toNat_lt
  rw [V2P, UInt32.toNat_sub, UInt32.toNat_zero] at e
  simp only [KERNBASE, UInt32.reduceToNat] at e h₁
  omega

theorem PageOk.ne_zero {vm : Vm} {q : UInt32} (h : PageOk vm q) (hk : KERNBASE < vm.kend) : q ≠ 0 := by
  rintro rfl
  have h₁ : KERNBASE.toNat < vm.kend.toNat := hk
  have h₂ : vm.kend.toNat ≤ (0 : UInt32).toNat := h.kend
  simp only [KERNBASE, UInt32.reduceToNat] at h₁ h₂
  omega

section Sound

variable {vm : Vm} {d : UInt32}

theorem tables_nodup (h : Sound vm d) : (vm.tables d).Nodup :=
  (List.nodup_cons.1 h.nodup).2.of_append_left

theorem mem_owned_of_table (hq : q ∈ vm.tables d) : q ∈ vm.owned d :=
  List.mem_cons_of_mem _ (List.mem_append_left _ hq)

theorem mem_owned_of_frame (hq : q ∈ vm.frames d) : q ∈ vm.owned d :=
  List.mem_cons_of_mem _ (List.mem_append_right _ hq)

theorem Sound.tables (h : Sound vm d) : Tables vm d where
  aligned := (h.page d List.mem_cons_self).aligned
  inj j k hj hk hpj hpk he := by
    have hj' : j.toNat < 1024 := hj
    have hk' : k.toNat < 1024 := hk
    have hjj : j.toNat.toUInt32 = j := by rw [Nat.toUInt32_eq, UInt32.ofNat_toNat]
    have hkk : k.toNat.toUInt32 = k := by rw [Nat.toUInt32_eq, UInt32.ofNat_toNat]
    -- two entries naming one page would list it twice
    have hjk := List.inj_on_of_nodup_map (tables_nodup h)
      (List.mem_filter.2 ⟨List.mem_range.2 hj', by rw [hjj]; exact hpj⟩)
      (List.mem_filter.2 ⟨List.mem_range.2 hk', by rw [hkk]; exact hpk⟩) (by rw [hjj, hkk]; exact he)
    exact UInt32.toNat_inj.1 hjk
  not_pgdir k hk hp he := by
    have hmem := table_mem_tables hk hp
    rw [he] at hmem
    exact (List.nodup_cons.1 h.nodup).1 (List.mem_append_left _ hmem)
  phys k hk hp := (h.page _ (mem_owned_of_table (table_mem_tables hk hp))).phys

theorem Sound.freeable (h : Sound vm d) {f : UInt32} (hf : f ∈ vm.frames d) : Freeable vm d f where
  ne_zero := (h.page f (mem_owned_of_frame hf)).V2P_ne_zero h.kend
  kend := (h.page f (mem_owned_of_frame hf)).kend
  phys := (h.page f (mem_owned_of_frame hf)).phys
  not_pgdir he := by
    rw [he] at hf
    exact (List.nodup_cons.1 h.nodup).1 (List.mem_append_right _ hf)
  not_table k hk hp he := by
    rw [he] at hf
    exact List.disjoint_of_nodup_append (List.nodup_cons.1 h.nodup).2 (table_mem_tables hk hp) hf

end Sound

/-! ### `kfree` -/

section Kfree

variable {vm vm' : Vm} {v : UInt32}

/-- What a `kfree` that returns did: junk and the link in the page, the page on the free list. -/
theorem kfree_eq_ok (h : vm.kfree v = .ok vm') :
    vm'.mem = Word.store (Word.fill vm.mem v PGSIZE.toNat 1) v (vm.freelist.headD 0) ∧
      vm'.freelist = v :: vm.freelist ∧ vm'.kend = vm.kend ∧ vm'.kdata = vm.kdata := by
  unfold kfree at h
  split at h
  · cases h
  · cases h
    exact ⟨rfl, rfl, rfl, rfl⟩

theorem PageOk.kfree (h : PageOk vm v) : ∃ vm', vm.kfree v = .ok vm' :=
  ⟨_, kfree_ok h.mod h.kend h.phys⟩

theorem kfree_outside {qs : List UInt32} (h : vm.kfree v = .ok vm') (hv : v ∈ qs) (hal : v.toNat % 4096 = 0) :
    Word.Outside qs vm.mem vm'.mem := by
  rw [(kfree_eq_ok h).1]
  have hfill : Word.Outside qs vm.mem (Word.fill vm.mem v PGSIZE.toNat 1) :=
    .fill hv hal (show PGSIZE.toNat ≤ 4096 by decide)
  exact hfill.trans (.store hv (by omega) rfl) (List.Subset.refl _)

theorem pde_kfree {d : UInt32} (h : vm.kfree v = .ok vm') (hd : d.toNat % 4096 = 0) (hal : v.toNat % 4096 = 0)
    (hne : v ≠ d) {k : UInt32} (hk : k < 1024) : vm'.pde d k = vm.pde d k := by
  rw [pde, (kfree_eq_ok h).1]
  exact load_kfree_other hd hk hal hne

end Kfree

/-! ### `freevm` -/

section Freevm

variable {vm : Vm} {d : UInt32}

/-- The page tables of the entries from `i` on, for `i + n = 1024`. -/
def tablesFrom (vm : Vm) (d : UInt32) (i n : Nat) : List UInt32 :=
  ((List.range' i n).filter fun k => vm.pdePresent d k.toUInt32).map fun k => vm.table d k.toUInt32

theorem tablesFrom_zero : vm.tablesFrom d 0 NPDENTRIES = vm.tables d := by
  rw [tablesFrom, tables, NPDENTRIES, List.range_eq_range']

/-- The entries `i .. i + n` of `freevm`'s loop: each present one's page table goes on the free
list, and no entry of the directory changes. -/
theorem freevmLoop_frees (h : Sound vm d) :
    ∀ (n : Nat) (i : UInt32) (vm' : Vm), i.toNat + n = 1024 → (∀ k, k < 1024 → vm'.pde d k = vm.pde d k) →
      vm'.kend = vm.kend →
      ∃ vm'', freevmLoop d n i vm' = .ok vm'' ∧ vm''.freelist = (vm.tablesFrom d i.toNat n).reverse ++ vm'.freelist ∧
        Word.Outside (vm.tables d) vm'.mem vm''.mem ∧ vm''.kend = vm'.kend := by
  have hd : d.toNat % 4096 = 0 := (h.page d List.mem_cons_self).aligned
  intro n
  induction n with
  | zero =>
    intro i vm' _ _ _
    exact ⟨vm', rfl, by simp [tablesFrom], Word.Outside.refl _ _, rfl⟩
  | succ n ih =>
    intro i vm' hi hpde hkend
    have hi' : i < 1024 := by
      rw [UInt32.lt_iff_toNat_lt]
      simp only [UInt32.reduceToNat]
      omega
    have hnext : (i + 1).toNat = i.toNat + 1 := by
      rw [UInt32.toNat_add]
      simp only [UInt32.reduceToNat]
      omega
    have hii : i.toNat.toUInt32 = i := by rw [Nat.toUInt32_eq, UInt32.ofNat_toNat]
    have hrange : List.range' i.toNat (n + 1) = i.toNat :: List.range' (i.toNat + 1) n := rfl
    rw [freevmLoop]
    -- the loop reads the entry as `vm` has it
    have he : Word.load vm'.mem (d + 4 * i) = vm.pde d i := hpde i hi'
    rw [he]
    by_cases hp : vm.pdePresent d i = true
    · -- a page table: `kfree` takes it and leaves the directory's entries
      have htm := table_mem_tables hi' hp
      have hpk := h.page _ (mem_owned_of_table htm)
      have hne : vm.table d i ≠ d := h.tables.not_pgdir i hi' hp
      obtain ⟨vm₁, hk₁⟩ := PageOk.kfree (⟨hpk.aligned, hkend ▸ hpk.kend, hpk.phys⟩ : PageOk vm' _)
      obtain ⟨-, hfl₁, hkend₁, -⟩ := kfree_eq_ok hk₁
      rw [if_pos (bne_iff_ne.1 hp), show P2V (PTE_ADDR (vm.pde d i)) = vm.table d i from rfl]
      rw [hk₁, Except.ok_bind]
      obtain ⟨vm'', hrun, hfl, ho, hk⟩ := ih (i + 1) vm₁ (by rw [hnext]; omega)
        (fun k hk => (pde_kfree hk₁ hd hpk.aligned hne hk).trans (hpde k hk)) (hkend₁.trans hkend)
      refine ⟨vm'', hrun, ?_, (kfree_outside hk₁ htm hpk.aligned).trans ho (List.Subset.refl _), hk.trans hkend₁⟩
      rw [hfl, hfl₁, hnext, tablesFrom, tablesFrom, hrange, List.filter_cons_of_pos (by rw [hii]; exact hp)]
      simp [hii]
    · have hp' : vm.pdePresent d i = false := by simpa using hp
      rw [if_neg (by simpa [pdePresent] using hp')]
      obtain ⟨vm'', hrun, hfl, ho, hk⟩ := ih (i + 1) vm' (by rw [hnext]; omega) hpde hkend
      refine ⟨vm'', hrun, ?_, ho, hk⟩
      rw [hfl, hnext, tablesFrom, tablesFrom, hrange, List.filter_cons_of_neg (by rw [hii, hp']; decide)]

theorem pagesIn_user : pagesIn 0 KERNBASE = pageRange 0 524288 := rfl

/-- `freevm` of a directory whose pages are sound: the user pages go on the free list in address
order, then the page tables in entry order, then the directory; memory changes only inside them. -/
theorem freevm_frees (h : Sound vm d) :
    ∃ vm', vm.freevm d = .ok vm' ∧
      vm'.freelist = d :: ((vm.tables d).reverse ++ ((vm.frames d).reverse ++ vm.freelist)) ∧
      Word.Outside (vm.owned d) vm.mem vm'.mem ∧ vm'.kend = vm.kend := by
  have hdk := h.page d List.mem_cons_self
  have hpg : PGROUNDUP 0 = 0 := by decide
  -- `deallocuvm(pgdir, KERNBASE, 0)` frees the user pages
  obtain ⟨vm₁, hdeal, hdone, ho₁⟩ := deallocuvm_spec h.tables (show KERNBASE ≤ KERNBASE by decide)
    (by rw [hpg]; exact fun f hf => h.freeable hf) (show (0 : UInt32) < KERNBASE by decide)
  rw [hpg] at hdone ho₁
  have hs : (UInt32.toNat 0 / 4096) = 0 := rfl
  have he : (KERNBASE.toNat + 4095) / 4096 = 524288 := rfl
  rw [hs, he] at hdone
  -- the page tables, then the directory
  obtain ⟨vm₂, hloop, hfl₂, ho₂, hk₂⟩ := freevmLoop_frees h NPDENTRIES 0 vm₁ rfl hdone.pde hdone.kend
  have hk₁ : vm₂.kend = vm.kend := hk₂.trans hdone.kend
  obtain ⟨vm₃, hk₃⟩ := PageOk.kfree (⟨hdk.aligned, hk₁ ▸ hdk.kend, hdk.phys⟩ : PageOk vm₂ _)
  obtain ⟨-, hfl₃, hkend₃, -⟩ := kfree_eq_ok hk₃
  refine ⟨vm₃, ?_, ?_, ?_, hkend₃.trans hk₁⟩
  · rw [freevm, if_neg (hdk.ne_zero h.kend)]
    change (do let d' ← vm.deallocuvm d KERNBASE 0; let vm ← freevmLoop d NPDENTRIES 0 d'.2; vm.kfree d) = _
    rw [hdeal, Except.ok_bind, hloop, Except.ok_bind, hk₃]
  · rw [hfl₃, hfl₂, hdone.freelist, UInt32.toNat_zero, tablesFrom_zero, frames, pagesIn_user]
  · have hsub₁ : vm.tables d ++ vm.freed d (pagesIn 0 KERNBASE) ⊆ vm.owned d := fun q hq =>
      List.mem_cons_of_mem _ hq
    have hsub₂ : vm.tables d ⊆ vm.owned d := fun q hq => mem_owned_of_table hq
    exact ((ho₁.mono hsub₁).trans ho₂ hsub₂).trans (kfree_outside hk₃ List.mem_cons_self hdk.aligned)
      (List.Subset.refl _)

theorem freevm_perm {vm' : Vm} (hf : vm'.freelist = d :: ((vm.tables d).reverse ++
    ((vm.frames d).reverse ++ vm.freelist))) : vm'.freelist.Perm (vm.owned d ++ vm.freelist) := by
  rw [hf, owned, List.cons_append, List.append_assoc]
  exact ((List.reverse_perm _).append ((List.reverse_perm _).append_right _)).cons d

end Freevm

/-! ### What writes do to a directory's pages -/

theorem toUInt32_lt_1024 {k : Nat} (hk : k < 1024) : k.toUInt32 < 1024 := by
  rw [UInt32.lt_iff_toNat_lt, Nat.toUInt32_eq, UInt32.toNat_ofNat_of_lt' (show k < 4294967296 by omega)]
  exact hk

section Apart

variable {vm vm' : Vm} {d : UInt32} {qs : List UInt32}

theorem mapped_congr {va : UInt32} (hp : vm'.pdePresent d (PDX va) = vm.pdePresent d (PDX va))
    (hpa : vm'.pteAddr d va = vm.pteAddr d va)
    (hpte : vm.pdePresent d (PDX va) = true →
      Word.load vm'.mem (vm.pteAddr d va) = Word.load vm.mem (vm.pteAddr d va)) :
    vm'.mapped d va = vm.mapped d va := by
  unfold Vm.mapped
  rw [hp, hpa]
  cases hpp : vm.pdePresent d (PDX va) with
  | false => rw [Bool.false_and, Bool.false_and]
  | true => rw [hpte hpp]

theorem frame_congr {va : UInt32} (hpa : vm'.pteAddr d va = vm.pteAddr d va)
    (hpte : Word.load vm'.mem (vm.pteAddr d va) = Word.load vm.mem (vm.pteAddr d va)) :
    vm'.frame d va = vm.frame d va := by
  rw [Vm.frame, Vm.frame, hpa, hpte]

/-- Writes inside the pages `qs`, none of them the directory's page or one of its page tables. -/
structure Apart (vm vm' : Vm) (d : UInt32) (qs : List UInt32) : Prop where
  outside : Word.Outside qs vm.mem vm'.mem
  aligned : d.toNat % 4096 = 0
  pages : ∀ q ∈ qs, q.toNat % 4096 = 0 ∧ q ≠ d ∧ q ∉ vm.tables d

theorem Apart.pde (h : Apart vm vm' d qs) {k : UInt32} (hk : k < 1024) : vm'.pde d k = vm.pde d k :=
  h.outside.load (entry_mod_four h.aligned hk) fun q hq => by
    rw [entry_page h.aligned hk]
    exact page_ne h.aligned (h.pages q hq).1 (Ne.symm (h.pages q hq).2.1)

theorem Apart.pdePresent (h : Apart vm vm' d qs) {k : UInt32} (hk : k < 1024) :
    vm'.pdePresent d k = vm.pdePresent d k := by
  rw [Vm.pdePresent, Vm.pdePresent, h.pde hk]

theorem Apart.table (h : Apart vm vm' d qs) {k : UInt32} (hk : k < 1024) : vm'.table d k = vm.table d k := by
  rw [Vm.table, Vm.table, h.pde hk]

theorem Apart.pteAddr (h : Apart vm vm' d qs) (va : UInt32) : vm'.pteAddr d va = vm.pteAddr d va := by
  rw [Vm.pteAddr, Vm.pteAddr, h.table (PDX_lt va)]

theorem Apart.pte (h : Apart vm vm' d qs) {va : UInt32} (hp : vm.pdePresent d (PDX va) = true) :
    Word.load vm'.mem (vm.pteAddr d va) = Word.load vm.mem (vm.pteAddr d va) :=
  h.outside.load (pteAddr_word va).1 fun q hq => by
    rw [(pteAddr_word va).2]
    refine page_ne (table_aligned _) (h.pages q hq).1 fun he => (h.pages q hq).2.2 ?_
    rw [← he]
    exact table_mem_tables (PDX_lt va) hp

theorem Apart.mapped (h : Apart vm vm' d qs) (va : UInt32) : vm'.mapped d va = vm.mapped d va :=
  mapped_congr (h.pdePresent (PDX_lt va)) (h.pteAddr va) h.pte

theorem Apart.frame (h : Apart vm vm' d qs) {va : UInt32} (hp : vm.pdePresent d (PDX va) = true) :
    vm'.frame d va = vm.frame d va :=
  frame_congr (h.pteAddr va) (h.pte hp)

theorem Apart.tables (h : Apart vm vm' d qs) : vm'.tables d = vm.tables d :=
  Alloc.filter_map_congr fun _ hk =>
    ⟨h.pdePresent (toUInt32_lt_1024 (List.mem_range.1 hk)), fun _ => h.table (toUInt32_lt_1024 (List.mem_range.1 hk))⟩

theorem Apart.frames (h : Apart vm vm' d qs) : vm'.frames d = vm.frames d :=
  Alloc.filter_map_congr fun _ _ => ⟨h.mapped _, fun hm => h.frame (Bool.and_eq_true_iff.1 hm).1⟩

theorem Apart.owned (h : Apart vm vm' d qs) : vm'.owned d = vm.owned d := by
  rw [Vm.owned, Vm.owned, h.tables, h.frames]

end Apart

/-- `walkpgdir`'s new page table `q` for entry `k` of the directory at `d`: the page zeroed and
the entry naming it, present, writable and user. -/
def attach (vm : Vm) (d k q : UInt32) : Vm :=
  { vm with mem := Word.store (Word.fill vm.mem q PGSIZE.toNat 0) (d + 4 * k) (V2P q ||| PTE_P ||| PTE_W ||| PTE_U) }

/-- The PTE of `va` set to `w`, in the page table its directory entry names. -/
def setPte (vm : Vm) (d va w : UInt32) : Vm := { vm with mem := Word.store vm.mem (vm.pteAddr d va) w }

section Attach

variable {vm : Vm} {d k q : UInt32}

theorem attach_pde_self : (vm.attach d k q).pde d k = V2P q ||| PTE_P ||| PTE_W ||| PTE_U :=
  Word.load_store_self _ _

theorem new_pde_present (hq : q.toNat % 4096 = 0) : (V2P q ||| PTE_P ||| PTE_W ||| PTE_U) &&& PTE_P != 0 := by
  have hv : (V2P q).toNat % 2 ^ 12 = 0 := by
    rw [V2P, UInt32.toNat_sub]
    simp only [KERNBASE, UInt32.reduceToNat]
    omega
  have hor := Word.toNat_or_of_lt (V2P q) 7 12 hv (by decide)
  rw [UInt32.or_assoc, UInt32.or_assoc, show PTE_P ||| (PTE_W ||| PTE_U) = 7 by decide, bne_iff_ne,
    Word.and_two_pow_ne_zero _ PTE_P 0 rfl, hor]
  simp only [UInt32.reduceToNat]
  omega

variable (hd : d.toNat % 4096 = 0) (hq : q.toNat % 4096 = 0) (hk : k < 1024)
include hd hq hk

theorem attach_pde_of_ne {j : UInt32} (hqd : q ≠ d) (hj : j < 1024) (hjk : j ≠ k) :
    (vm.attach d k q).pde d j = vm.pde d j := by
  rw [pde, attach]
  dsimp only
  rw [load_store_entry hd hk hj (Ne.symm hjk), load_fill_other_page hd hj hq hqd]
  rfl

omit hd hk in
theorem attach_pdePresent_self : (vm.attach d k q).pdePresent d k = true := by
  rw [pdePresent, attach_pde_self]
  exact new_pde_present hq

omit hd hk in
theorem attach_table_self : (vm.attach d k q).table d k = q := by
  rw [table, attach_pde_self, P2V_PTE_ADDR_new hq]

theorem attach_load_table {t : UInt32} (hqd : q ≠ d) (ht : t < 1024) :
    Word.load (vm.attach d k q).mem (q + 4 * t) = 0 := by
  rw [attach]
  dsimp only
  rw [load_store_other_page hq ht (entry_mod_four hd hk) (by rw [entry_page hd hk]; exact page_ne hd hq (Ne.symm hqd))]
  apply Word.load_fill_zero
  intro j hj
  have hj' : j.toNat < 4 := hj
  have ht' : t.toNat < 1024 := ht
  rw [UInt32.toNat_sub, UInt32.toNat_add, toNat_entry hq ht]
  simp only [PGSIZE, UInt32.reduceToNat]
  have := q.toNat_lt
  omega

theorem attach_outside : Word.Outside [q, d] vm.mem (vm.attach d k q).mem := by
  have hfill : Word.Outside [q, d] vm.mem (Word.fill vm.mem q PGSIZE.toNat 0) :=
    .fill List.mem_cons_self hq (show PGSIZE.toNat ≤ 4096 by decide)
  exact hfill.trans (.store (List.mem_cons_of_mem _ List.mem_cons_self) (entry_mod_four hd hk) (entry_page hd hk))
    (List.Subset.refl _)

theorem attach_tables (hqd : q ≠ d) (hp : vm.pdePresent d k = false) : ((vm.attach d k q).tables d).Perm (q :: vm.tables d) := by
  have hk' : k.toNat < 1024 := hk
  have hkk : k.toNat.toUInt32 = k := by rw [Nat.toUInt32_eq, UInt32.ofNat_toNat]
  have h := @Alloc.perm_filter_map_insert UInt32 Nat _ List.nodup_range _ (List.mem_range.2 hk')
    (fun j => vm.pdePresent d j.toUInt32) (fun j => (vm.attach d k q).pdePresent d j.toUInt32)
    (fun j => vm.table d j.toUInt32) (fun j => (vm.attach d k q).table d j.toUInt32)
    (by simp only [hkk, hp]) (by simp only [hkk, attach_pdePresent_self hq])
    (fun j hj hjk => by
      have hj' : j.toUInt32 ≠ k := fun he => hjk (by rw [← he, Nat.toUInt32_eq, UInt32.toNat_ofNat_of_lt' (show j < 4294967296 by have := List.mem_range.1 hj; omega)])
      have hpd : (vm.attach d k q).pde d j.toUInt32 = vm.pde d j.toUInt32 :=
        attach_pde_of_ne hd hq hk hqd (toUInt32_lt_1024 (List.mem_range.1 hj)) hj'
      exact ⟨by simp only [pdePresent, hpd], fun _ => by simp only [table, hpd]⟩)
  simp only [hkk, attach_table_self hq] at h
  exact h

theorem attach_pte (hqt : q ∉ vm.tables d) (hdt : d ∉ vm.tables d) {va : UInt32} (hpv : vm.pdePresent d (PDX va) = true) :
    Word.load (vm.attach d k q).mem (vm.pteAddr d va) = Word.load vm.mem (vm.pteAddr d va) := by
  have ht := table_mem_tables (PDX_lt va) hpv
  refine (attach_outside hd hq hk).load (pteAddr_word va).1 fun x hx => ?_
  rw [(pteAddr_word va).2]
  rcases List.mem_cons.1 hx with hx | hx
  · rw [hx]
    refine page_ne (table_aligned _) hq fun he => hqt ?_
    rw [he] at ht
    exact ht
  · rw [List.mem_singleton.1 hx]
    refine page_ne (table_aligned _) hd fun he => hdt ?_
    rw [he] at ht
    exact ht

theorem attach_pteAddr (hqd : q ≠ d) {va : UInt32} (hva : PDX va ≠ k) : (vm.attach d k q).pteAddr d va = vm.pteAddr d va := by
  rw [pteAddr, pteAddr, table, table, attach_pde_of_ne hd hq hk hqd (PDX_lt va) hva]

theorem attach_mapped (hqd : q ≠ d) (hp : vm.pdePresent d k = false) (hqt : q ∉ vm.tables d)
    (hdt : d ∉ vm.tables d) (va : UInt32) : (vm.attach d k q).mapped d va = vm.mapped d va := by
  by_cases hva : PDX va = k
  · -- the new table's PTEs are 0, and before there was no table
    have hm : vm.mapped d va = false := by rw [mapped, hva, hp, Bool.false_and]
    rw [hm, mapped, pteAddr, hva, attach_table_self hq, attach_load_table hd hq hk hqd (PTX_lt va)]
    simp
  · refine mapped_congr ?_ (attach_pteAddr hd hq hk hqd hva) (attach_pte hd hq hk hqt hdt)
    rw [pdePresent, pdePresent, attach_pde_of_ne hd hq hk hqd (PDX_lt va) hva]

theorem attach_frames (hqd : q ≠ d) (hp : vm.pdePresent d k = false) (hqt : q ∉ vm.tables d)
    (hdt : d ∉ vm.tables d) : (vm.attach d k q).frames d = vm.frames d := by
  refine Alloc.filter_map_congr fun va _ => ⟨attach_mapped hd hq hk hqd hp hqt hdt va, fun hm => ?_⟩
  have hpv : vm.pdePresent d (PDX va) = true := (Bool.and_eq_true_iff.1 hm).1
  have hva : PDX va ≠ k := fun he => by rw [he, hp] at hpv; cases hpv
  exact frame_congr (attach_pteAddr hd hq hk hqd hva) (attach_pte hd hq hk hqt hdt hpv)

end Attach

section SetPte

variable {vm : Vm} {d va w : UInt32}

theorem setPte_outside : Word.Outside [vm.table d (PDX va)] vm.mem (vm.setPte d va w).mem :=
  .store List.mem_cons_self (pteAddr_word va).1 (pteAddr_word va).2

theorem setPte_pte_self : Word.load (vm.setPte d va w).mem (vm.pteAddr d va) = w :=
  Word.load_store_self _ _

theorem setPte_pte_of_ne {b : UInt32} (hne : vm.pteAddr d b ≠ vm.pteAddr d va) :
    Word.load (vm.setPte d va w).mem (vm.pteAddr d b) = Word.load vm.mem (vm.pteAddr d b) :=
  Word.load_store_of_ne (pteAddr_word va).1 (pteAddr_word b).1 (Ne.symm hne)

variable (htab : Tables vm d) (hva : vm.pdePresent d (PDX va) = true)
include htab hva

theorem setPte_pde {k : UInt32} (hk : k < 1024) : (vm.setPte d va w).pde d k = vm.pde d k := by
  have hne := page_ne (table_aligned (PDX va)) htab.aligned (htab.not_pgdir _ (PDX_lt va) hva)
  rw [pde, setPte]
  dsimp only
  rw [load_store_other_page htab.aligned hk (pteAddr_word va).1 (by rw [(pteAddr_word va).2]; exact hne)]
  rfl

theorem setPte_pdePresent {k : UInt32} (hk : k < 1024) :
    (vm.setPte d va w).pdePresent d k = vm.pdePresent d k := by
  rw [pdePresent, pdePresent, setPte_pde htab hva hk]

theorem setPte_pteAddr (b : UInt32) : (vm.setPte d va w).pteAddr d b = vm.pteAddr d b := by
  rw [pteAddr, pteAddr, table, table, setPte_pde htab hva (PDX_lt b)]

theorem setPte_tables : (vm.setPte d va w).tables d = vm.tables d :=
  Alloc.filter_map_congr fun _ hk =>
    have hk' := toUInt32_lt_1024 (List.mem_range.1 hk)
    ⟨setPte_pdePresent htab hva hk', fun _ => by rw [table, table, setPte_pde htab hva hk']⟩

theorem setPte_mapped_self : (vm.setPte d va w).mapped d va = (w &&& PTE_P != 0) := by
  rw [mapped, setPte_pdePresent htab hva (PDX_lt va), hva, setPte_pteAddr htab hva, setPte_pte_self,
    Bool.true_and]

theorem setPte_frame_self : (vm.setPte d va w).frame d va = P2V (PTE_ADDR w) := by
  rw [frame, setPte_pteAddr htab hva, setPte_pte_self]

theorem setPte_pte_of_page_ne {b : UInt32} (hb : b.toNat / 4096 ≠ va.toNat / 4096)
    (hpb : vm.pdePresent d (PDX b) = true) :
    Word.load (vm.setPte d va w).mem (vm.pteAddr d b) = Word.load vm.mem (vm.pteAddr d b) :=
  setPte_pte_of_ne fun he => hb (htab.page_of_pteAddr hpb hva he)

theorem setPte_mapped_of_page_ne {b : UInt32} (hb : b.toNat / 4096 ≠ va.toNat / 4096) :
    (vm.setPte d va w).mapped d b = vm.mapped d b ∧
      (vm.mapped d b = true → (vm.setPte d va w).frame d b = vm.frame d b) := by
  have hpte := setPte_pte_of_page_ne (w := w) htab hva hb
  refine ⟨mapped_congr (setPte_pdePresent htab hva (PDX_lt b)) (setPte_pteAddr htab hva b) hpte, fun hm => ?_⟩
  exact frame_congr (setPte_pteAddr htab hva b) (hpte (Bool.and_eq_true_iff.1 hm).1)

end SetPte

end Vm

end Xv6
