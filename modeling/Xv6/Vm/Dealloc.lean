import Xv6.Vm.Frame
import Xv6.Vm.Growproc

/-!
# What `deallocuvm` frees

`deallocuvm(pgdir, oldsz, newsz)` walks the pages from `PGROUNDUP(newsz)` up to the last below
`oldsz`. At a page whose directory entry is absent it jumps to the next 4 MB boundary
(`PGADDR(PDX(a) + 1, 0, 0) - PGSIZE`, then `a += PGSIZE`); at a present PTE it hands the page to
`kfree` and clears the PTE. A PTE naming physical page 0 is a `panic("kfree")`
(`deallocuvm_null_frame`), and `kfree` writes junk and the free-list link into the page it frees,
so the walk is exact only for a directory whose page tables are distinct pages of physical memory
and whose mapped pages in the range are pages `kfree` takes, none of them the directory or one of
its tables (`Tables`, `Freeable`).

Under those conditions `deallocuvm_frees` says what a run does: it returns `newsz`, the free list
gains the pages mapped in the range in the order the loop meets them, and the PTEs of those pages,
and no other entry, are 0. The loop's invariant `Done` describes the state after the pages up to
the loop's position; every pass extends it by one page, or by the pages of an absent page table.
-/

namespace Xv6

namespace Vm

/-! ### The page tables of a directory -/

/-- Entry `k` of the directory at `pgdir` is present. -/
def pdePresent (vm : Vm) (pgdir k : UInt32) : Bool := vm.pde pgdir k &&& PTE_P != 0

/-- The page table that entry `k` names. -/
def table (vm : Vm) (pgdir k : UInt32) : UInt32 := P2V (PTE_ADDR (vm.pde pgdir k))

/-- The PTE of `va` in the page table of its entry: what `walkpgdir` returns when the entry is
present. -/
def pteAddr (vm : Vm) (pgdir va : UInt32) : UInt32 := vm.table pgdir (PDX va) + 4 * PTX va

/-- `va` is mapped: its directory entry and its PTE are present. -/
def mapped (vm : Vm) (pgdir va : UInt32) : Bool :=
  vm.pdePresent pgdir (PDX va) && (Word.load vm.mem (vm.pteAddr pgdir va) &&& PTE_P != 0)

/-- The kernel address of the page the PTE of `va` maps. -/
def frame (vm : Vm) (pgdir va : UInt32) : UInt32 := P2V (PTE_ADDR (Word.load vm.mem (vm.pteAddr pgdir va)))

/-- The first addresses of the pages numbered `s` up to `e`. -/
def pageRange (s e : Nat) : List UInt32 := (List.range' s (e - s)).map fun p => (4096 * p).toUInt32

/-- The pages of the addresses from `lo` up to `hi`, for a page-aligned `lo`. -/
def pagesIn (lo hi : UInt32) : List UInt32 := pageRange (lo.toNat / 4096) ((hi.toNat + 4095) / 4096)

/-- The pages that the mapped ones among `pages` map, in order. -/
def freed (vm : Vm) (pgdir : UInt32) (pages : List UInt32) : List UInt32 :=
  (pages.filter (vm.mapped pgdir)).map (vm.frame pgdir)

/-- The page tables of the directory at `pgdir`, entry by entry. -/
def tables (vm : Vm) (pgdir : UInt32) : List UInt32 :=
  ((List.range 1024).filter fun k => vm.pdePresent pgdir k.toUInt32).map fun k => vm.table pgdir k.toUInt32

/-- What `deallocuvm` needs of the directory: a page-aligned directory whose page tables are
distinct pages of physical memory, none of them the directory. -/
structure Tables (vm : Vm) (pgdir : UInt32) : Prop where
  aligned : pgdir.toNat % 4096 = 0
  inj : ∀ j k, j < 1024 → k < 1024 → vm.pdePresent pgdir j = true → vm.pdePresent pgdir k = true →
    vm.table pgdir j = vm.table pgdir k → j = k
  not_pgdir : ∀ k, k < 1024 → vm.pdePresent pgdir k = true → vm.table pgdir k ≠ pgdir
  phys : ∀ k, k < 1024 → vm.pdePresent pgdir k = true → V2P (vm.table pgdir k) < PHYSTOP

/-- A page `deallocuvm` may hand to `kfree`: not physical page 0, one that `kfree` accepts, and
neither the directory nor one of its page tables. -/
structure Freeable (vm : Vm) (pgdir f : UInt32) : Prop where
  ne_zero : V2P f ≠ 0
  kend : vm.kend ≤ f
  phys : V2P f < PHYSTOP
  not_pgdir : f ≠ pgdir
  not_table : ∀ k, k < 1024 → vm.pdePresent pgdir k = true → f ≠ vm.table pgdir k

/-! ### Where the walk reads and writes -/

section Geometry

variable {vm : Vm} {pgdir : UInt32}

theorem walkpgdir_of_pdePresent {va : UInt32} (h : vm.pdePresent pgdir (PDX va) = true) :
    vm.walkpgdir pgdir va false = (vm.pteAddr pgdir va, vm) :=
  walkpgdir_present false (bne_iff_ne.1 h)

theorem walkpgdir_of_not_pdePresent {va : UInt32} (h : vm.pdePresent pgdir (PDX va) = false) :
    vm.walkpgdir pgdir va false = (0, vm) :=
  walkpgdir_absent (by simpa [pdePresent, pde] using h)

theorem table_aligned (k : UInt32) : (vm.table pgdir k).toNat % 4096 = 0 :=
  toNat_P2V_PTE_ADDR_mod _

theorem table_mem_tables {k : UInt32} (hk : k < 1024) (hp : vm.pdePresent pgdir k = true) :
    vm.table pgdir k ∈ vm.tables pgdir := by
  have hk' : k.toNat < 1024 := hk
  have hkk : k.toNat.toUInt32 = k := by rw [Nat.toUInt32_eq, UInt32.ofNat_toNat]
  refine List.mem_map.2 ⟨k.toNat, List.mem_filter.2 ⟨List.mem_range.2 hk', ?_⟩, ?_⟩
  · rw [hkk]
    exact hp
  · rw [hkk]

theorem Tables.table_ne_zero (h : Tables vm pgdir) {k : UInt32} (hk : k < 1024)
    (hp : vm.pdePresent pgdir k = true) : (vm.table pgdir k).toNat ≠ 0 := by
  intro h0
  have hphys := h.phys k hk hp
  rw [UInt32.toNat_inj.1 (h0.trans UInt32.toNat_zero.symm)] at hphys
  exact absurd hphys (by decide)

theorem toNat_pteAddr (va : UInt32) :
    (vm.pteAddr pgdir va).toNat = (vm.table pgdir (PDX va)).toNat + 4 * (PTX va).toNat :=
  toNat_entry (table_aligned _) (PTX_lt va)

theorem pteAddr_ne_zero (h : Tables vm pgdir) {va : UInt32} (hp : vm.pdePresent pgdir (PDX va) = true) :
    vm.pteAddr pgdir va ≠ 0 := by
  intro h0
  have e := congrArg UInt32.toNat h0
  rw [toNat_pteAddr, UInt32.toNat_zero] at e
  exact h.table_ne_zero (PDX_lt va) hp (by omega)

theorem PDX_eq_of_page {va vb : UInt32} (h : va.toNat / 4096 = vb.toNat / 4096) : PDX va = PDX vb := by
  apply UInt32.toNat_inj.1
  rw [toNat_PDX, toNat_PDX]
  omega

theorem pteAddr_eq_of_page {va vb : UInt32} (h : va.toNat / 4096 = vb.toNat / 4096) :
    vm.pteAddr pgdir va = vm.pteAddr pgdir vb := by
  have hptx : PTX va = PTX vb := by
    apply UInt32.toNat_inj.1
    rw [toNat_PTX, toNat_PTX, h]
  rw [pteAddr, pteAddr, PDX_eq_of_page h, hptx]

theorem mapped_eq_of_page {va vb : UInt32} (h : va.toNat / 4096 = vb.toNat / 4096) :
    vm.mapped pgdir va = vm.mapped pgdir vb := by
  rw [mapped, mapped, PDX_eq_of_page h, pteAddr_eq_of_page h]

theorem Tables.page_of_pteAddr (h : Tables vm pgdir) {va vb : UInt32}
    (ha : vm.pdePresent pgdir (PDX va) = true) (hb : vm.pdePresent pgdir (PDX vb) = true)
    (he : vm.pteAddr pgdir va = vm.pteAddr pgdir vb) : va.toNat / 4096 = vb.toNat / 4096 := by
  have e := congrArg UInt32.toNat he
  rw [toNat_pteAddr, toNat_pteAddr] at e
  have hta : (vm.table pgdir (PDX va)).toNat % 4096 = 0 := table_aligned _
  have htb : (vm.table pgdir (PDX vb)).toNat % 4096 = 0 := table_aligned _
  have hxa : (PTX va).toNat < 1024 := PTX_lt va
  have hxb : (PTX vb).toNat < 1024 := PTX_lt vb
  -- the same page of the same table, so the same directory entry and the same index in it
  have ht : vm.table pgdir (PDX va) = vm.table pgdir (PDX vb) := UInt32.toNat_inj.1 (by omega)
  have hd := congrArg UInt32.toNat (h.inj _ _ (PDX_lt va) (PDX_lt vb) ha hb ht)
  rw [ht] at e
  rw [toNat_PDX, toNat_PDX] at hd
  rw [toNat_PTX, toNat_PTX] at e
  omega

theorem load_kfree_other {m : UInt32 → UInt8} {t f w k : UInt32} (ht : t.toNat % 4096 = 0)
    (hk : k < 1024) (hf : f.toNat % 4096 = 0) (hft : f ≠ t) :
    Word.load (Word.store (Word.fill m f PGSIZE.toNat 1) f w) (t + 4 * k) = Word.load m (t + 4 * k) := by
  rw [load_store_other_page ht hk (by omega) (page_ne hf ht hft), load_fill_other_page ht hk hf hft]

end Geometry

/-! ### Ranges of pages -/

section Pages

theorem toNat_page {p : Nat} (hp : p < 2 ^ 20) : ((4096 * p).toUInt32).toNat = 4096 * p := by
  rw [Nat.toUInt32_eq, UInt32.toNat_ofNat']
  omega

theorem pageRange_append {s e e' : Nat} (hs : s ≤ e) (he : e ≤ e') :
    pageRange s e' = pageRange s e ++ pageRange e e' := by
  have hsplit := (@List.range'_append s (e - s) (e' - e) 1).symm
  rw [Nat.one_mul, Nat.add_sub_cancel' hs, show e - s + (e' - e) = e' - s by omega] at hsplit
  rw [pageRange, pageRange, pageRange, hsplit, List.map_append]

theorem length_pageRange (s e : Nat) : (pageRange s e).length = e - s := by
  rw [pageRange, List.length_map, List.length_range']

theorem pageRange_succ {s e : Nat} (hs : s ≤ e) : pageRange s (e + 1) = pageRange s e ++ [(4096 * e).toUInt32] := by
  rw [pageRange_append hs (Nat.le_succ e)]
  simp [pageRange]

theorem page_of_mem_pageRange {s e : Nat} (he : e ≤ 2 ^ 20) {b : UInt32} (hb : b ∈ pageRange s e) :
    s ≤ b.toNat / 4096 ∧ b.toNat / 4096 < e := by
  obtain ⟨p, hp, rfl⟩ := List.mem_map.1 hb
  rw [List.mem_range'_1] at hp
  rw [toNat_page (by omega)]
  omega

variable {vm : Vm} {pgdir : UInt32}

theorem freed_append (l l' : List UInt32) : vm.freed pgdir (l ++ l') = vm.freed pgdir l ++ vm.freed pgdir l' := by
  simp [freed]

theorem freed_of_unmapped {l : List UInt32} (h : ∀ b ∈ l, vm.mapped pgdir b = false) : vm.freed pgdir l = [] := by
  simp only [freed, List.map_eq_nil_iff, List.filter_eq_nil_iff]
  intro b hb
  simp [h b hb]

end Pages

/-- The jump past an absent page table lands on the next 4 MB boundary. -/
theorem toNat_PGADDR_next {a : UInt32} (ha : a.toNat < 2 ^ 31) :
    (PGADDR (PDX a + 1) 0 0 - PGSIZE + PGSIZE).toNat = (a.toNat / 4194304 + 1) * 4194304 := by
  rw [UInt32.sub_add_cancel, PGADDR, UInt32.zero_shiftLeft, UInt32.or_zero, UInt32.or_zero,
    UInt32.toNat_shiftLeft, UInt32.toNat_add, toNat_PDX]
  simp only [UInt32.reduceToNat, Nat.shiftLeft_eq, Nat.reduceMod, Nat.reducePow]
  omega

theorem PDX_eq_of_lt_next {a va : UInt32} (hlo : a.toNat / 4096 ≤ va.toNat / 4096)
    (hhi : va.toNat / 4096 < (a.toNat / 4194304 + 1) * 4194304 / 4096) : PDX va = PDX a := by
  apply UInt32.toNat_inj.1
  rw [toNat_PDX, toNat_PDX]
  omega

/-! ### The loop's invariant -/

/-- The loop has handled the pages numbered `s` up to `e`: the pages mapped there are on the free
list, last first, their PTEs are 0, and every other PTE and every directory entry is as in `vm`. -/
structure Done (vm vm' : Vm) (pgdir : UInt32) (s e : Nat) : Prop where
  freelist : vm'.freelist = (vm.freed pgdir (pageRange s e)).reverse ++ vm.freelist
  pde : ∀ k, k < 1024 → vm'.pde pgdir k = vm.pde pgdir k
  pte : ∀ va, vm.pdePresent pgdir (PDX va) = true → Word.load vm'.mem (vm.pteAddr pgdir va) =
    if s ≤ va.toNat / 4096 ∧ va.toNat / 4096 < e ∧ vm.mapped pgdir va = true then 0
    else Word.load vm.mem (vm.pteAddr pgdir va)
  kend : vm'.kend = vm.kend

section Done

variable {vm vm' : Vm} {pgdir : UInt32} {s e : Nat}

theorem Done.start (he : e ≤ s) : Done vm vm pgdir s e where
  freelist := by simp [pageRange, Nat.sub_eq_zero_of_le he, freed]
  pde _ _ := rfl
  pte va _ := by
    rw [if_neg (fun hc => absurd (hc.1.trans_lt hc.2.1) (Nat.not_lt.2 he))]
  kend := rfl

theorem Done.pdePresent_eq (h : Done vm vm' pgdir s e) {k : UInt32} (hk : k < 1024) :
    vm'.pdePresent pgdir k = vm.pdePresent pgdir k := by
  rw [pdePresent, pdePresent, h.pde k hk]

theorem Done.pteAddr_eq (h : Done vm vm' pgdir s e) (va : UInt32) :
    vm'.pteAddr pgdir va = vm.pteAddr pgdir va := by
  rw [pteAddr, pteAddr, table, table, h.pde _ (PDX_lt va)]

theorem Done.load_pte_of_le (h : Done vm vm' pgdir s e) {va : UInt32}
    (hp : vm.pdePresent pgdir (PDX va) = true) (he : e ≤ va.toNat / 4096) :
    Word.load vm'.mem (vm.pteAddr pgdir va) = Word.load vm.mem (vm.pteAddr pgdir va) := by
  rw [h.pte va hp, if_neg (fun hc => absurd hc.2.1 (Nat.not_lt.2 he))]

theorem Done.extend (h : Done vm vm' pgdir s e) {e' : Nat} (hs : s ≤ e) (he : e ≤ e') (he' : e' ≤ 2 ^ 20)
    (hu : ∀ va : UInt32, e ≤ va.toNat / 4096 → va.toNat / 4096 < e' → vm.mapped pgdir va = false) :
    Done vm vm' pgdir s e' where
  freelist := by
    have hnil : vm.freed pgdir (pageRange e e') = [] := freed_of_unmapped fun b hb => by
      obtain ⟨hlo, hhi⟩ := page_of_mem_pageRange he' hb
      exact hu b hlo hhi
    rw [h.freelist, pageRange_append hs he, freed_append, hnil, List.append_nil]
  pde := h.pde
  pte va hp := by
    rw [h.pte va hp]
    by_cases hlt : va.toNat / 4096 < e
    · have hlt' : va.toNat / 4096 < e' := by omega
      simp only [hlt, hlt', true_and]
    · -- from `e` on nothing is mapped up to `e'`
      have hnot : ¬(s ≤ va.toNat / 4096 ∧ va.toNat / 4096 < e' ∧ vm.mapped pgdir va = true) := by
        rintro ⟨-, hlt', hm⟩
        rw [hu va (by omega) hlt'] at hm
        cases hm
      rw [if_neg (fun hc => hlt hc.2.1), if_neg hnot]
  kend := h.kend

theorem pteAddr_word (va : UInt32) :
    (vm.pteAddr pgdir va).toNat % 4 = 0 ∧
      (vm.pteAddr pgdir va).toNat / 4096 = (vm.table pgdir (PDX va)).toNat / 4096 :=
  ⟨entry_mod_four (table_aligned _) (PTX_lt va), entry_page (table_aligned _) (PTX_lt va)⟩

/-- One pass that frees the mapped page `a` of number `e` and clears its PTE. -/
theorem Done.free (h : Done vm vm' pgdir s e) (ht : Tables vm pgdir) (hs : s ≤ e) (he : e < 2 ^ 20)
    {a : UInt32} (ha : a.toNat = 4096 * e) (hm : vm.mapped pgdir a = true)
    (hf : Freeable vm pgdir (vm.frame pgdir a)) :
    Done vm { vm' with
      mem := Word.store (Word.store (Word.fill vm'.mem (vm.frame pgdir a) PGSIZE.toNat 1) (vm.frame pgdir a)
        (vm'.freelist.headD 0)) (vm.pteAddr pgdir a) 0
      freelist := vm.frame pgdir a :: vm'.freelist } pgdir s (e + 1) := by
  have hpa : vm.pdePresent pgdir (PDX a) = true := (Bool.and_eq_true_iff.1 hm).1
  have hfa : (vm.frame pgdir a).toNat % 4096 = 0 := toNat_P2V_PTE_ADDR_mod _
  have hta : vm.table pgdir (PDX a) ≠ pgdir := ht.not_pgdir _ (PDX_lt a) hpa
  have hpage : (4096 * e).toUInt32 = a := UInt32.toNat_inj.1 (by rw [toNat_page he, ha])
  constructor
  · -- the freed page goes on the front of the list
    rw [pageRange_succ hs, hpage, freed_append, h.freelist]
    simp [freed, hm]
  · -- the PTE and the freed page are apart from the directory
    intro k hk
    have hx : vm.pteAddr pgdir a ≠ pgdir + 4 * k := by
      intro hx
      have hpg : (vm.pteAddr pgdir a).toNat / 4096 = (vm.table pgdir (PDX a)).toNat / 4096 :=
        (pteAddr_word a).2
      rw [hx, entry_page ht.aligned hk] at hpg
      exact page_ne (table_aligned _) ht.aligned hta hpg.symm
    show Word.load (Word.store _ (vm.pteAddr pgdir a) 0) (pgdir + 4 * k) = _
    rw [Word.load_store_of_ne (pteAddr_word a).1 (entry_mod_four ht.aligned hk) hx,
      load_kfree_other ht.aligned hk hfa hf.not_pgdir]
    exact h.pde k hk
  · intro va hp
    by_cases hv : vm.pteAddr pgdir va = vm.pteAddr pgdir a
    · -- the PTE just cleared, the one of page `e`
      have hpg := ht.page_of_pteAddr hp hpa hv
      rw [hv, Word.load_store_self, if_pos ⟨by omega, by omega, by rw [mapped_eq_of_page hpg]; exact hm⟩]
    · have hft : vm.frame pgdir a ≠ vm.table pgdir (PDX va) := hf.not_table _ (PDX_lt va) hp
      have hne : va.toNat / 4096 ≠ e := fun hpg => hv (pteAddr_eq_of_page (by omega))
      rw [Word.load_store_of_ne (pteAddr_word a).1 (pteAddr_word va).1 (Ne.symm hv)]
      rw [show vm.pteAddr pgdir va = vm.table pgdir (PDX va) + 4 * PTX va from rfl,
        load_kfree_other (table_aligned _) (PTX_lt va) hfa hft, ← show vm.pteAddr pgdir va = vm.table pgdir (PDX va) + 4 * PTX va from rfl,
        h.pte va hp]
      by_cases hlt : va.toNat / 4096 < e
      · have hlt' : va.toNat / 4096 < e + 1 := by omega
        simp only [hlt, hlt', true_and]
      · rw [if_neg (fun hc => hlt hc.2.1), if_neg (fun hc => hne (by omega))]
  · exact h.kend

end Done

/-! ### The loop -/

section Loop

variable {vm : Vm} {pgdir oldsz : UInt32} {s : Nat}

theorem mem_pageRange_of_lt {a : UInt32} (ha : a.toNat % 4096 = 0) (hs : s ≤ a.toNat / 4096)
    (hlt : a < oldsz) : a ∈ pageRange s ((oldsz.toNat + 4095) / 4096) := by
  have hlt' : a.toNat < oldsz.toNat := hlt
  refine List.mem_map.2 ⟨a.toNat / 4096, List.mem_range'_1.2 ⟨hs, by omega⟩, UInt32.toNat_inj.1 ?_⟩
  rw [toNat_page (by have := oldsz.toNat_lt; omega)]
  omega

/-- The loop ends by its own test, whatever the directory holds: once the passes left outnumber
the pages left, more passes give the same outcome, panic or state. -/
theorem deallocuvmLoop_passes (hold : oldsz ≤ KERNBASE) :
    ∀ (k k' : Nat) (a : UInt32) (vm : Vm), a.toNat % 4096 = 0 →
      (oldsz.toNat + 4095) / 4096 - a.toNat / 4096 < k → k ≤ k' →
      deallocuvmLoop pgdir oldsz k a vm = deallocuvmLoop pgdir oldsz k' a vm := by
  have hold' : oldsz.toNat ≤ 2 ^ 31 := hold
  intro k
  induction k with
  | zero => intro k' a vm _ hk; omega
  | succ k ih =>
    intro k' a vm hal hk hkk
    obtain ⟨k', rfl⟩ : ∃ j, k' = j + 1 := ⟨k' - 1, by omega⟩
    rw [deallocuvmLoop, deallocuvmLoop]
    by_cases hlt : a < oldsz
    swap
    · rw [if_neg hlt, if_neg hlt]
    have hlt' : a.toNat < oldsz.toNat := hlt
    have hnext : (a + PGSIZE).toNat = a.toNat + 4096 := toNat_add_PGSIZE (by omega)
    have hstep := ih k' (a + PGSIZE)
    rw [hnext] at hstep
    simp only [if_pos hlt]
    split
    · -- the jump to the next 4 MB boundary
      have hjump := toNat_PGADDR_next (a := a) (by omega)
      exact ih k' _ vm (by rw [hjump]; omega) (by rw [hjump]; omega) (by omega)
    split
    · split
      · rfl
      · -- the rest of the pass after `kfree`
        cases vm.kfree _ with
        | error => rfl
        | ok vm₁ => exact hstep _ (by omega) (by omega) (by omega)
    · exact hstep vm (by omega) (by omega) (by omega)

/-- The loop from the page `a` with `k` passes left, when the pages before `a` are done. Each pass
moves `a` up by a page at least, so `k` passes past the last page reach `a ≥ oldsz`, and the loop
ends with every page of the range done. -/
theorem deallocuvmLoop_done (ht : Tables vm pgdir) (hold : oldsz ≤ KERNBASE)
    (hfree : ∀ f ∈ vm.freed pgdir (pageRange s ((oldsz.toNat + 4095) / 4096)), Freeable vm pgdir f) :
    ∀ (k : Nat) (a : UInt32) (vm' : Vm), a.toNat % 4096 = 0 → s ≤ a.toNat / 4096 →
      (oldsz.toNat + 4095) / 4096 - a.toNat / 4096 < k →
      Done vm vm' pgdir s (min (a.toNat / 4096) ((oldsz.toNat + 4095) / 4096)) →
      Word.Outside (vm.tables pgdir ++ vm.freed pgdir (pageRange s ((oldsz.toNat + 4095) / 4096))) vm.mem vm'.mem →
      ∃ vm'', deallocuvmLoop pgdir oldsz k a vm' = .ok vm'' ∧
        Done vm vm'' pgdir s ((oldsz.toNat + 4095) / 4096) ∧
        Word.Outside (vm.tables pgdir ++ vm.freed pgdir (pageRange s ((oldsz.toNat + 4095) / 4096))) vm.mem vm''.mem := by
  have hold' : oldsz.toNat ≤ 2 ^ 31 := hold
  intro k
  induction k with
  | zero => intro a vm' _ _ hk; omega
  | succ k ih =>
    intro a vm' hal hs hk hd ho
    rw [deallocuvmLoop]
    by_cases hlt : a < oldsz
    swap
    · -- `a ≥ oldsz`: the loop ends, past the last page
      have hge : (oldsz.toNat + 4095) / 4096 ≤ a.toNat / 4096 := by
        have : oldsz.toNat ≤ a.toNat := UInt32.not_lt.1 hlt
        omega
      rw [if_neg hlt, Nat.min_eq_right hge] at *
      exact ⟨vm', rfl, hd, ho⟩
    have hlt' : a.toNat < oldsz.toNat := hlt
    rw [if_pos hlt, Nat.min_eq_left (by omega)] at *
    have hpd := hd.pdePresent_eq (PDX_lt a)
    cases hp : vm.pdePresent pgdir (PDX a) with
    | false =>
      -- no page table: every page up to the next 4 MB boundary is unmapped
      rw [walkpgdir_of_not_pdePresent (hpd.trans hp), if_pos rfl]
      have hnext := toNat_PGADDR_next (a := a) (by omega)
      refine ih _ vm' (by rw [hnext]; omega) (by rw [hnext]; omega) (by rw [hnext]; omega) ?_ ho
      refine hd.extend (by omega) (by rw [hnext]; omega) (by omega) fun va hlo hhi => ?_
      rw [hnext] at hhi
      rw [mapped, PDX_eq_of_lt_next hlo (lt_of_lt_of_le hhi (Nat.min_le_left _ _)), hp, Bool.false_and]
    | true =>
      rw [walkpgdir_of_pdePresent (hpd.trans hp), hd.pteAddr_eq, if_neg (pteAddr_ne_zero ht hp),
        hd.load_pte_of_le hp (Nat.le_refl _)]
      have hnext : (a + PGSIZE).toNat = a.toNat + 4096 := toNat_add_PGSIZE (by omega)
      by_cases hm : Word.load vm.mem (vm.pteAddr pgdir a) &&& PTE_P ≠ 0
      · -- a mapped page: it is freed and its PTE cleared
        have hmap : vm.mapped pgdir a = true := by simp [mapped, hp, hm]
        have hf := hfree _ (List.mem_map_of_mem (List.mem_filter.2 ⟨mem_pageRange_of_lt hal hs hlt, hmap⟩))
        have hpa : PTE_ADDR (Word.load vm.mem (vm.pteAddr pgdir a)) ≠ 0 := by
          have := hf.ne_zero
          rwa [frame, V2P_P2V] at this
        rw [if_pos hm, if_neg hpa, kfree_ok (P2V_PTE_ADDR_aligned _) (hd.kend ▸ hf.kend) hf.phys,
          Except.ok_bind]
        have hfa : (vm.frame pgdir a).toNat % 4096 = 0 := toNat_P2V_PTE_ADDR_mod _
        have hfm : vm.frame pgdir a ∈ vm.freed pgdir (pageRange s ((oldsz.toNat + 4095) / 4096)) :=
          List.mem_map_of_mem (List.mem_filter.2 ⟨mem_pageRange_of_lt hal hs hlt, hmap⟩)
        have htm := table_mem_tables (PDX_lt a) hp
        refine ih _ _ (by rw [hnext]; omega) (by rw [hnext]; omega) (by rw [hnext]; omega) ?_ ?_
        · rw [hnext, show (a.toNat + 4096) / 4096 = a.toNat / 4096 + 1 by omega, Nat.min_eq_left (by omega)]
          exact hd.free ht hs (by omega) (by omega) hmap hf
        · -- `kfree` writes in the freed page, and the cleared PTE lies in its page table
          refine (((ho.trans (.fill (List.mem_append_right _ hfm) hfa (by decide)) (List.Subset.refl _)).trans
            (.store (List.mem_append_right _ hfm) (by omega) rfl) (List.Subset.refl _)).trans
            (.store (List.mem_append_left _ htm) (pteAddr_word a).1 (pteAddr_word a).2) (List.Subset.refl _))
      · -- an absent PTE: nothing is written
        rw [if_neg hm]
        refine ih _ vm' (by rw [hnext]; omega) (by rw [hnext]; omega) (by rw [hnext]; omega) ?_ ho
        rw [hnext, show (a.toNat + 4096) / 4096 = a.toNat / 4096 + 1 by omega, Nat.min_eq_left (by omega)]
        refine hd.extend hs (Nat.le_succ _) (by omega) fun va hlo hhi => ?_
        rw [mapped_eq_of_page (show va.toNat / 4096 = a.toNat / 4096 by omega), mapped, hp, Bool.true_and, bne_eq_false_iff_eq]
        exact not_not.1 hm

/-- `deallocuvm` that shrinks, as its loop leaves the machine: every page of the range done, and
memory written only in the page tables and in the pages freed. -/
theorem deallocuvm_spec {newsz : UInt32} (ht : Tables vm pgdir) (hold : oldsz ≤ KERNBASE)
    (hfree : ∀ f ∈ vm.freed pgdir (pagesIn (PGROUNDUP newsz) oldsz), Freeable vm pgdir f) (hlt : newsz < oldsz) :
    ∃ vm', vm.deallocuvm pgdir oldsz newsz = .ok (newsz, vm') ∧
      Done vm vm' pgdir ((PGROUNDUP newsz).toNat / 4096) ((oldsz.toNat + 4095) / 4096) ∧
      Word.Outside (vm.tables pgdir ++ vm.freed pgdir (pagesIn (PGROUNDUP newsz) oldsz)) vm.mem vm'.mem := by
  have hold' : oldsz.toNat ≤ 2 ^ 31 := hold
  -- the first page is page-aligned and at most `KERNBASE`, so the loop has passes to spare
  have hlo := toNat_PGROUNDUP newsz
  have hal : (PGROUNDUP newsz).toNat % 4096 = 0 := by omega
  have hbound : (oldsz.toNat + 4095) / 4096 - (PGROUNDUP newsz).toNat / 4096 < 2 ^ 19 + 1 := by omega
  obtain ⟨vm', hrun, hdone, ho⟩ := deallocuvmLoop_done ht hold hfree (NPDENTRIES * NPTENTRIES)
    (PGROUNDUP newsz) vm hal (Nat.le_refl _) (lt_of_lt_of_le hbound (by decide)) (Done.start (Nat.min_le_left _ _))
    (Word.Outside.refl _ _)
  refine ⟨vm', ?_, hdone, ho⟩
  rw [deallocuvm, if_neg (UInt32.not_le.2 hlt), hrun]
  rfl

end Loop

end Vm

/-- A directory whose first page table maps virtual page 0 to physical page 0: the PTE is
`0x00000007`, present with address 0. -/
def nullFrameVm : Vm where
  mem := Word.store (Word.store (fun _ => 0) 0x80300000 0x00301007) 0x80301000 0x00000007
  freelist := []
  kend := 0x80200000
  kdata := 0x80108000

/-- Not every directory lets `deallocuvm` return: a present PTE with address 0 is
`panic("kfree")`. -/
theorem deallocuvm_null_frame :
    (4096 : UInt32) ≤ KERNBASE ∧ nullFrameVm.deallocuvm 0x80300000 4096 0 = .error "kfree" :=
  ⟨by decide, rfl⟩

/-- `deallocuvm(pgdir, oldsz, newsz)` with `oldsz ≤ KERNBASE` returns `oldsz` and changes nothing
when `newsz ≥ oldsz`. Otherwise, for a directory whose page tables are distinct pages of physical
memory and whose pages mapped in the range are pages `kfree` takes, none of them the directory or a
page table: the loop ends by its own test, the call returns `newsz`, the pages mapped at the
addresses from `PGROUNDUP(newsz)` up to `oldsz` are freed in the order of their addresses, and their
PTEs are cleared while every other page-table and directory entry keeps its value. -/
theorem deallocuvm_frees (vm : Vm) (pgdir oldsz newsz : UInt32) (hold : oldsz ≤ KERNBASE) :
    (oldsz ≤ newsz → vm.deallocuvm pgdir oldsz newsz = .ok (oldsz, vm)) ∧
    (newsz < oldsz →
      ∀ k, 2 ^ 19 < k → Vm.deallocuvmLoop pgdir oldsz k (PGROUNDUP newsz) vm =
        Vm.deallocuvmLoop pgdir oldsz (NPDENTRIES * NPTENTRIES) (PGROUNDUP newsz) vm) ∧
    (vm.Tables pgdir → (∀ f ∈ vm.freed pgdir (Vm.pagesIn (PGROUNDUP newsz) oldsz), vm.Freeable pgdir f) →
      newsz < oldsz →
      ∃ vm', vm.deallocuvm pgdir oldsz newsz = .ok (newsz, vm') ∧
        vm'.freelist = (vm.freed pgdir (Vm.pagesIn (PGROUNDUP newsz) oldsz)).reverse ++ vm.freelist ∧
        (∀ k, k < 1024 → vm'.pde pgdir k = vm.pde pgdir k) ∧
        ∀ va, vm.pdePresent pgdir (PDX va) = true → Word.load vm'.mem (vm.pteAddr pgdir va) =
          if PGROUNDUP newsz ≤ PGROUNDDOWN va ∧ PGROUNDDOWN va < oldsz ∧ vm.mapped pgdir va = true then 0
          else Word.load vm.mem (vm.pteAddr pgdir va)) := by
  have hold' : oldsz.toNat ≤ 2 ^ 31 := hold
  -- the first page does not wrap: it is page-aligned and at most `KERNBASE`
  have hlo := toNat_PGROUNDUP newsz
  have hal : (PGROUNDUP newsz).toNat % 4096 = 0 := by omega
  refine ⟨Vm.deallocuvm_of_le, fun hlt k hk => ?_, fun ht hfree hlt => ?_⟩
  · -- the loop ends by its own test, for every directory
    have hlt' : newsz.toNat < oldsz.toNat := hlt
    have hbound : (oldsz.toNat + 4095) / 4096 - (PGROUNDUP newsz).toNat / 4096 < 2 ^ 19 + 1 := by omega
    rcases le_total k (NPDENTRIES * NPTENTRIES) with hle | hle
    · exact Vm.deallocuvmLoop_passes hold k _ _ vm hal (by omega) hle
    · exact (Vm.deallocuvmLoop_passes hold _ k _ vm hal (lt_of_lt_of_le hbound (by decide)) hle).symm
  obtain ⟨vm', hrun, hdone, -⟩ := Vm.deallocuvm_spec ht hold hfree hlt
  refine ⟨vm', hrun, hdone.freelist, hdone.pde, fun va hp => ?_⟩
  · -- the pages numbered from `PGROUNDUP(newsz) / 4096` are those from `PGROUNDUP(newsz)` on
    rw [hdone.pte va hp]
    have hrange : (PGROUNDUP newsz ≤ PGROUNDDOWN va ∧ PGROUNDDOWN va < oldsz) ↔
        ((PGROUNDUP newsz).toNat / 4096 ≤ va.toNat / 4096 ∧ va.toNat / 4096 < (oldsz.toNat + 4095) / 4096) := by
      rw [UInt32.le_iff_toNat_le, UInt32.lt_iff_toNat_lt, toNat_PGROUNDDOWN]
      omega
    by_cases hin : PGROUNDUP newsz ≤ PGROUNDDOWN va ∧ PGROUNDDOWN va < oldsz
    · have hin' := hrange.1 hin
      simp only [hin, hin', true_and]
    · rw [if_neg (fun hc => hin (hrange.2 ⟨hc.1, hc.2.1⟩)), if_neg (fun hc => hin ⟨hc.1, hc.2.1⟩)]

theorem onePageVm_pdePresent {k : UInt32} (hk : k < 1024) (hp : onePageVm.pdePresent 0x80300000 k = true) :
    k = 0 := by
  by_contra hk0
  have hpde : onePageVm.pde 0x80300000 k = 0 := by
    have hdir : (0x80300000 : UInt32).toNat % 4096 = 0 := by decide
    show Word.load (Word.store (Word.store (fun _ => 0) (0x80300000 + 4 * 0) _) 0x80301000 _) _ = 0
    rw [Vm.load_store_other_page hdir hk (by decide) (by decide),
      Vm.load_store_entry hdir (by decide) hk (Ne.symm hk0)]
    simp [Word.load]
  rw [Vm.pdePresent, hpde] at hp
  exact absurd hp (by decide)

/-- `deallocuvm(pgdir, 4096, 0)` on the one-page process of `onePageVm`: its page goes back to the
free list. -/
theorem deallocuvm_frees_onePage :
    ∃ vm', onePageVm.deallocuvm 0x80300000 4096 0 = .ok (0, vm') ∧ vm'.freelist = [0x80302000] := by
  have hfreed : onePageVm.freed 0x80300000 (Vm.pagesIn (PGROUNDUP 0) 4096) = [0x80302000] := by decide
  -- only entry 0 is present, and it names the table at `0x80301000`
  have htab : onePageVm.Tables 0x80300000 := by
    refine ⟨by decide, fun j k hj hk hpj hpk _ => ?_, fun k hk hp => ?_, fun k hk hp => ?_⟩
    · rw [onePageVm_pdePresent hj hpj, onePageVm_pdePresent hk hpk]
    all_goals
      rw [onePageVm_pdePresent hk hp]
      decide
  have hfree : ∀ f ∈ onePageVm.freed 0x80300000 (Vm.pagesIn (PGROUNDUP 0) 4096),
      onePageVm.Freeable 0x80300000 f := by
    rw [hfreed]
    intro f hf
    rw [List.mem_singleton] at hf
    subst hf
    refine ⟨by decide, by decide, by decide, by decide, fun k hk hp => ?_⟩
    rw [onePageVm_pdePresent hk hp]
    decide
  obtain ⟨vm', hrun, hfl, -⟩ :=
    (deallocuvm_frees onePageVm 0x80300000 4096 0 (by decide)).2.2 htab hfree (by decide)
  refine ⟨vm', hrun, ?_⟩
  rw [hfl, hfreed]
  rfl

end Xv6
