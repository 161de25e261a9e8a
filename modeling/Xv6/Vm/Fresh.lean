import Xv6.Vm.Owned

/-!
# A page directory built out of free pages (`setupkvm`, `copyuvm`)

`setupkvm` and `copyuvm` build a new directory out of pages they take from the free list: the
directory's own page, its page tables and, in `copyuvm`, the copies of the user pages.
`Fresh vm₀ vm d xs` says where each page taken since `vm₀` went: it is in `xs` (taken and not yet
entered in the directory) or the directory at `d` owns it, and memory changed only inside pages of
`vm₀`'s free list. Each primitive the builders use keeps it: `kalloc` (`Fresh.kalloc`), a write
into a taken page (`Fresh.write`), a new page table (`Fresh.attach`), and a PTE set in one of the
directory's tables (`Fresh.setPte_user`, and `Fresh.setPte_table` for a directory with no user
page). When the free list of `vm₀` is sound (`FreeOk`), the directory is `Sound`, so `freevm`
can undo it.
-/

namespace Xv6

namespace Vm

/-- The free list holds distinct pages `kfree` takes, above the kernel's image. -/
structure FreeOk (vm : Vm) : Prop where
  nodup : vm.freelist.Nodup
  page : ∀ q ∈ vm.freelist, PageOk vm q
  kend : KERNBASE < vm.kend

/-- Every page taken from `vm₀`'s free list is in `xs` or owned by the directory at `d`; memory
changed only inside pages of that free list. -/
structure Fresh (vm₀ vm : Vm) (d : UInt32) (xs : List UInt32) : Prop where
  perm : (xs ++ vm.owned d ++ vm.freelist).Perm vm₀.freelist
  outside : Word.Outside vm₀.freelist vm₀.mem vm.mem
  kend : vm.kend = vm₀.kend
  kdata : vm.kdata = vm₀.kdata

/-- Everything taken from `vm₀`'s free list is back: the free list is a permutation of `vm₀`'s,
and memory changed only inside its pages. -/
structure Undone (vm₀ vm : Vm) : Prop where
  perm : vm.freelist.Perm vm₀.freelist
  outside : Word.Outside vm₀.freelist vm₀.mem vm.mem
  kend : vm.kend = vm₀.kend

theorem Undone.refl (vm : Vm) : Undone vm vm := ⟨List.Perm.refl _, Word.Outside.refl _ _, rfl⟩

/-- No directory entry below `KERNBASE` is present. -/
def UserEmpty (vm : Vm) (d : UInt32) : Prop := ∀ k, k < 512 → vm.pdePresent d k = false

theorem PDX_lt_512 {va : UInt32} (h : va < KERNBASE) : PDX va < 512 := by
  rw [UInt32.lt_iff_toNat_lt, toNat_PDX]
  rw [UInt32.lt_iff_toNat_lt] at h
  simp only [KERNBASE, UInt32.reduceToNat] at h ⊢
  omega

theorem mem_pagesIn_user {va : UInt32} (h : va ∈ pagesIn 0 KERNBASE) : va < KERNBASE := by
  have hb := page_of_mem_pageRange (s := 0) (e := 524288) (by decide) (pagesIn_user ▸ h)
  rw [UInt32.lt_iff_toNat_lt]
  simp only [KERNBASE, UInt32.reduceToNat]
  omega

theorem UserEmpty.frames {vm : Vm} {d : UInt32} (h : UserEmpty vm d) : vm.frames d = [] :=
  freed_of_unmapped fun va hva => by
    rw [mapped, h _ (PDX_lt_512 (mem_pagesIn_user hva)), Bool.false_and]

theorem pageRange_nodup {s e : Nat} (he : e ≤ 2 ^ 20) : (pageRange s e).Nodup := by
  refine List.Nodup.map_on (fun x hx y hy hxy => ?_) List.nodup_range'
  obtain ⟨hx₁, hx₂⟩ := List.mem_range'_1.1 hx
  obtain ⟨hy₁, hy₂⟩ := List.mem_range'_1.1 hy
  have e := congrArg UInt32.toNat hxy
  rw [toNat_page (by omega), toNat_page (by omega)] at e
  omega

theorem aligned_of_mem_pageRange {s e : Nat} (he : e ≤ 2 ^ 20) {b : UInt32} (hb : b ∈ pageRange s e) :
    b.toNat % 4096 = 0 := by
  obtain ⟨p, hp, rfl⟩ := List.mem_map.1 hb
  rw [toNat_page (by rw [List.mem_range'_1] at hp; omega)]
  omega

theorem pagesIn_page_inj {a b : UInt32} (ha : a ∈ pagesIn 0 KERNBASE) (hb : b ∈ pagesIn 0 KERNBASE)
    (he : a.toNat / 4096 = b.toNat / 4096) : a = b := by
  have ha' := aligned_of_mem_pageRange (s := 0) (e := 524288) (by decide) (pagesIn_user ▸ ha)
  have hb' := aligned_of_mem_pageRange (s := 0) (e := 524288) (by decide) (pagesIn_user ▸ hb)
  exact UInt32.toNat_inj.1 (by omega)

section Fresh

variable {vm₀ vm vm' : Vm} {d q : UInt32} {xs : List UInt32}

theorem Fresh.mem (h : Fresh vm₀ vm d xs) (hq : q ∈ xs ++ vm.owned d ++ vm.freelist) : q ∈ vm₀.freelist :=
  h.perm.subset hq

theorem Fresh.mem_of_taken (h : Fresh vm₀ vm d xs) (hq : q ∈ xs) : q ∈ vm₀.freelist :=
  h.mem (List.mem_append_left _ (List.mem_append_left _ hq))

theorem Fresh.mem_of_owned (h : Fresh vm₀ vm d xs) (hq : q ∈ vm.owned d) : q ∈ vm₀.freelist :=
  h.mem (List.mem_append_left _ (List.mem_append_right _ hq))

theorem Fresh.mem_of_free (h : Fresh vm₀ vm d xs) (hq : q ∈ vm.freelist) : q ∈ vm₀.freelist :=
  h.mem (List.mem_append_right _ hq)

/-- A directory with no user entry and a kernel entry missing has at most 511 page tables: a free
list of `vm₀` that ran out while building it held at most 512 pages. -/
theorem Fresh.length_le_of_starved (h : Fresh vm₀ vm d []) (hu : UserEmpty vm d) (hfl : vm.freelist = [])
    {k : UInt32} (hk : 512 ≤ k.toNat) (hk' : k < 1024) (hp : vm.pdePresent d k = false) :
    vm₀.freelist.length ≤ 512 := by
  -- the directory's tables sit in kernel entries other than `k`
  have htl : (vm.tables d).length < 512 := by
    have hsplit : List.range 1024 = List.range 512 ++ List.range' 512 512 := by
      rw [List.range_eq_range', List.range_eq_range', List.range'_append_1]
    have hk'' : k.toNat < 1024 := hk'
    have hlt : ((List.range' 512 512).filter fun j => vm.pdePresent d j.toUInt32).length <
        (List.range' 512 512).length :=
      List.length_filter_lt_length_iff_exists.2 ⟨k.toNat, List.mem_range'_1.2 ⟨hk, by omega⟩, by
        rw [show k.toNat.toUInt32 = k by rw [Nat.toUInt32_eq, UInt32.ofNat_toNat], hp]
        decide⟩
    rw [tables, List.length_map, hsplit, List.filter_append,
      List.filter_eq_nil_iff.2 fun j hj => by
        have hj' := List.mem_range.1 hj
        rw [hu _ (by
          rw [UInt32.lt_iff_toNat_lt, Nat.toUInt32_eq, UInt32.toNat_ofNat_of_lt' (show j < 4294967296 by omega)]
          exact hj')]
        decide,
      List.nil_append]
    rwa [List.length_range'] at hlt
  have hown : (vm.owned d).length = (vm.tables d).length + 1 := by
    rw [owned, hu.frames, List.append_nil, List.length_cons]
  have hlen := h.perm.length_eq
  rw [List.nil_append, hfl, List.append_nil, hown] at hlen
  omega
variable (h₀ : FreeOk vm₀)
include h₀

theorem Fresh.nodup (h : Fresh vm₀ vm d xs) : (xs ++ vm.owned d ++ vm.freelist).Nodup :=
  h.perm.nodup_iff.2 h₀.nodup

theorem Fresh.pageOk (h : Fresh vm₀ vm d xs) (hq : q ∈ vm₀.freelist) : PageOk vm q :=
  have hp := h₀.page q hq
  ⟨hp.aligned, h.kend ▸ hp.kend, hp.phys⟩

theorem Fresh.sound (h : Fresh vm₀ vm d xs) : Sound vm d where
  nodup := ((h.nodup h₀).of_append_left).of_append_right
  page _ hq := h.pageOk h₀ (h.mem_of_owned hq)
  kend := h.kend ▸ h₀.kend

theorem Fresh.freeOk (h : Fresh vm₀ vm d xs) : FreeOk vm where
  nodup := (h.nodup h₀).of_append_right
  page _ hq := h.pageOk h₀ (h.mem_of_free hq)
  kend := h.kend ▸ h₀.kend

theorem Fresh.taken_apart (h : Fresh vm₀ vm d xs) (hq : q ∈ xs) :
    q.toNat % 4096 = 0 ∧ q ≠ d ∧ q ∉ vm.tables d := by
  have hdisj := List.disjoint_of_nodup_append (h.nodup h₀).of_append_left hq
  refine ⟨(h.pageOk h₀ (h.mem_of_taken hq)).aligned, fun he => hdisj ?_, fun ht => hdisj (mem_owned_of_table ht)⟩
  rw [he]
  exact List.mem_cons_self

theorem Fresh.frame_apart (h : Fresh vm₀ vm d xs) {f : UInt32} (hf : f ∈ vm.frames d) :
    f ≠ d ∧ f ∉ vm.tables d ∧ f ∉ xs ∧ f ∉ vm.freelist := by
  have hnd := (h.sound h₀).nodup
  have ho : f ∈ vm.owned d := mem_owned_of_frame hf
  refine ⟨fun he => by
      subst he
      exact (List.nodup_cons.1 hnd).1 (List.mem_append_right _ hf),
    fun ht => List.disjoint_of_nodup_append (List.nodup_cons.1 hnd).2 ht hf,
    fun hx => List.disjoint_of_nodup_append (h.nodup h₀).of_append_left hx ho,
    fun hx => List.disjoint_of_nodup_append (h.nodup h₀) (List.mem_append_right _ ho) hx⟩

omit h₀ in
theorem Fresh.kalloc (h : Fresh vm₀ vm d xs) {rest : List UInt32} (hfl : vm.freelist = q :: rest) :
    Fresh vm₀ { vm with freelist := rest } d (q :: xs) where
  perm := by
    refine List.Perm.trans ?_ h.perm
    rw [hfl, List.cons_append, List.cons_append]
    exact List.perm_middle.symm
  outside := h.outside
  kend := h.kend
  kdata := h.kdata

omit h₀ in
theorem Fresh.outside_trans (h : Fresh vm₀ vm d xs) {qs : List UInt32} (hqs : qs ⊆ vm₀.freelist)
    (hm : Word.Outside qs vm.mem vm'.mem) : Word.Outside vm₀.freelist vm₀.mem vm'.mem :=
  h.outside.trans hm hqs

theorem Fresh.write (h : Fresh vm₀ vm d xs) (hq : q ∈ xs) (hm : Word.Outside [q] vm.mem vm'.mem)
    (hfl : vm'.freelist = vm.freelist) (hk : vm'.kend = vm.kend) (hkd : vm'.kdata = vm.kdata) :
    Fresh vm₀ vm' d xs := by
  have hd := (h.sound h₀).page d List.mem_cons_self
  have happ : Apart vm vm' d [q] := ⟨hm, hd.aligned, fun x hx => by
    rw [List.mem_singleton.1 hx]
    exact h.taken_apart h₀ hq⟩
  refine ⟨?_, h.outside_trans (fun x hx => by rw [List.mem_singleton.1 hx]; exact h.mem_of_taken hq) hm, hk.trans h.kend,
    hkd.trans h.kdata⟩
  rw [happ.owned, hfl]
  exact h.perm

theorem Fresh.attach (h : Fresh vm₀ vm d xs) (hq : q ∈ xs) {k : UInt32} (hk : k < 1024)
    (hp : vm.pdePresent d k = false) : Fresh vm₀ (vm.attach d k q) d (xs.erase q) := by
  have hs := h.sound h₀
  have hd := (hs.page d List.mem_cons_self).aligned
  obtain ⟨hqa, hqd, hqt⟩ := h.taken_apart h₀ hq
  have hdt : d ∉ vm.tables d := fun ht => (List.nodup_cons.1 hs.nodup).1 (List.mem_append_left _ ht)
  have howned : ((vm.attach d k q).owned d).Perm (d :: (q :: vm.tables d ++ vm.frames d)) := by
    rw [owned, attach_frames hd hqa hk hqd hp hqt hdt]
    exact ((attach_tables hd hqa hk hqd hp).append_right _).cons d
  rw [List.cons_append] at howned
  have hfl : (vm.attach d k q).freelist = vm.freelist := rfl
  refine ⟨?_, h.outside_trans ?_ (attach_outside hd hqa hk), h.kend, h.kdata⟩
  · refine List.Perm.trans ?_ h.perm
    -- the page moves from the taken ones into the tables
    have hxs : (q :: xs.erase q).Perm xs := (List.perm_cons_erase hq).symm
    rw [hfl]
    calc List.Perm (xs.erase q ++ (vm.attach d k q).owned d ++ vm.freelist)
          (xs.erase q ++ d :: q :: (vm.tables d ++ vm.frames d) ++ vm.freelist) :=
          (howned.append_left _).append_right _
      List.Perm _ (q :: xs.erase q ++ d :: (vm.tables d ++ vm.frames d) ++ vm.freelist) := by
          have hmove := Alloc.perm_take_middle (xs.erase q) [] (vm.tables d ++ vm.frames d) vm.freelist q d
          rw [List.nil_append, List.nil_append] at hmove
          exact hmove
      List.Perm _ (xs ++ vm.owned d ++ vm.freelist) := (hxs.append_right _).append_right _
  · intro x hx
    rcases List.mem_cons.1 hx with rfl | hx
    · exact h.mem_of_taken hq
    · rw [List.mem_singleton.1 hx]
      exact h.mem_of_owned List.mem_cons_self

theorem Fresh.kfree (h : Fresh vm₀ vm d xs) (hq : q ∈ xs) (hk : vm.kfree q = .ok vm') :
    Fresh vm₀ vm' d (xs.erase q) := by
  obtain ⟨-, hfl, hkend, hkdata⟩ := kfree_eq_ok hk
  have hqa := (h.taken_apart h₀ hq).1
  have hm : Word.Outside [q] vm.mem vm'.mem := kfree_outside hk List.mem_cons_self hqa
  have happ : Apart vm vm' d [q] := ⟨hm, ((h.sound h₀).page d List.mem_cons_self).aligned, fun x hx => by
    rw [List.mem_singleton.1 hx]
    exact h.taken_apart h₀ hq⟩
  refine ⟨?_, h.outside_trans (fun x hx => by rw [List.mem_singleton.1 hx]; exact h.mem_of_taken hq) hm,
    hkend.trans h.kend, hkdata.trans h.kdata⟩
  rw [happ.owned, hfl]
  refine List.Perm.trans ?_ h.perm
  refine List.perm_middle.trans ?_
  rw [← List.cons_append, ← List.cons_append]
  exact ((List.perm_cons_erase hq).symm.append_right _).append_right _

theorem Fresh.setPte_table (h : Fresh vm₀ vm d xs) (hu : UserEmpty vm d) {va w : UInt32}
    (hva : vm.pdePresent d (PDX va) = true) :
    Fresh vm₀ (vm.setPte d va w) d xs ∧ UserEmpty (vm.setPte d va w) d := by
  have htab := (h.sound h₀).tables
  have hu' : UserEmpty (vm.setPte d va w) d := fun k hk => by
    rw [setPte_pdePresent htab hva (UInt32.lt_of_lt_of_le hk (by decide))]
    exact hu k hk
  refine ⟨⟨?_, h.outside_trans ?_ setPte_outside, h.kend, h.kdata⟩, hu'⟩
  · have hp := h.perm
    rw [owned, hu.frames] at hp
    rw [owned, setPte_tables htab hva, hu'.frames]
    exact hp
  · intro x hx
    rw [List.mem_singleton.1 hx]
    exact h.mem_of_owned (mem_owned_of_table (table_mem_tables (PDX_lt va) hva))

/-- A PTE set for an unmapped user page, naming a taken page: the page joins the directory's user
pages. -/
theorem Fresh.setPte_user (h : Fresh vm₀ vm d xs) {va w : UInt32} (hv : va ∈ pagesIn 0 KERNBASE)
    (hva : vm.pdePresent d (PDX va) = true) (hm : vm.mapped d va = false) (hq : q ∈ xs)
    (hw : (w &&& PTE_P != 0) = true) (hwq : P2V (PTE_ADDR w) = q) :
    Fresh vm₀ (vm.setPte d va w) d (xs.erase q) := by
  have htab := (h.sound h₀).tables
  -- the pages of the user half are distinct and page-aligned
  have hnd : (pagesIn 0 KERNBASE).Nodup := pageRange_nodup (by decide)
  have hframes : ((vm.setPte d va w).frames d).Perm (q :: vm.frames d) := by
    have hins := @Alloc.perm_filter_map_insert UInt32 UInt32 _ hnd _ hv (vm.mapped d) ((vm.setPte d va w).mapped d)
      (vm.frame d) ((vm.setPte d va w).frame d) hm
      (by rw [setPte_mapped_self htab hva]; exact hw) fun b hb hne =>
        setPte_mapped_of_page_ne htab hva fun he => hne (pagesIn_page_inj hb hv he)
    rw [setPte_frame_self htab hva, hwq] at hins
    exact hins
  have howned : ((vm.setPte d va w).owned d).Perm (d :: (vm.tables d ++ q :: vm.frames d)) := by
    rw [owned, setPte_tables htab hva]
    exact (hframes.append_left _).cons d
  refine ⟨?_, h.outside_trans ?_ setPte_outside, h.kend, h.kdata⟩
  · have hfl : (vm.setPte d va w).freelist = vm.freelist := rfl
    rw [hfl]
    refine List.Perm.trans ?_ h.perm
    refine ((howned.append_left _).append_right _).trans ?_
    exact (Alloc.perm_take_middle _ _ _ _ q d).trans
      (((List.perm_cons_erase hq).symm.append_right _).append_right _)
  · intro x hx
    rw [List.mem_singleton.1 hx]
    exact h.mem_of_owned (mem_owned_of_table (table_mem_tables (PDX_lt va) hva))

/-- `freevm` of a directory built of free pages gives every page back. -/
theorem Fresh.freevm (h : Fresh vm₀ vm d []) : ∃ vm', vm.freevm d = .ok vm' ∧ Undone vm₀ vm' := by
  obtain ⟨vm', hf, hfl, ho, hk⟩ := freevm_frees (h.sound h₀)
  refine ⟨vm', hf, (freevm_perm hfl).trans ?_, h.outside_trans (fun _ hq => h.mem_of_owned hq) ho, hk.trans h.kend⟩
  simpa using h.perm

end Fresh

/-! ### Walks with `alloc` -/

/-- What a walk with `alloc` that found or made the page table of `va` leaves: the entry present,
the other entries and every mapping as they were, and writes only in the directory's page and a
page that was free. -/
structure Walked (vm₀ vm vm' : Vm) (d va : UInt32) (xs : List UInt32) : Prop where
  fresh : Fresh vm₀ vm' d xs
  present : vm'.pdePresent d (PDX va) = true
  pde : ∀ k, k < 1024 → k ≠ PDX va → vm'.pde d k = vm.pde d k
  mapped : ∀ b, vm'.mapped d b = vm.mapped d b
  pte : ∀ b, vm.mapped d b = true →
    Word.load vm'.mem (vm'.pteAddr d b) = Word.load vm.mem (vm.pteAddr d b)
  outside : Word.Outside (d :: vm.freelist) vm.mem vm'.mem
  freelist : vm'.freelist ⊆ vm.freelist

/-! ### What a directory maps -/

/-- The directory at `d` maps the pages `f` names and no other, each with the PTE `f` gives it:
its mappings as a partial function from page numbers to PTEs. -/
def MapsAs (vm : Vm) (d : UInt32) (f : Nat → Option UInt32) : Prop :=
  ∀ va, vm.mapped d va = (f (va.toNat / 4096)).isSome ∧
    ∀ w, f (va.toNat / 4096) = some w → Word.load vm.mem (vm.pteAddr d va) = w

/-- The mappings `mappages` adds to `f`: the pages `s` to `e`, to the physical pages from `pa` on,
with the permissions `perm`. -/
def mapRange (s e : Nat) (pa perm : UInt32) (f : Nat → Option UInt32) (p : Nat) : Option UInt32 :=
  if s ≤ p ∧ p ≤ e then some ((pa + (4096 * (p - s)).toUInt32) ||| perm ||| PTE_P) else f p

section MapRange

variable {s e : Nat} {pa perm : UInt32} {f : Nat → Option UInt32}

theorem mapRange_self : mapRange s s pa perm f = Function.update f s (some (pa ||| perm ||| PTE_P)) := by
  funext p
  by_cases hp : p = s
  · subst hp
    rw [Function.update_self, mapRange, if_pos ⟨le_rfl, le_rfl⟩, Nat.sub_self, Nat.mul_zero,
      show (0 : Nat).toUInt32 = 0 from rfl, UInt32.add_zero]
  · rw [Function.update_of_ne hp, mapRange, if_neg (by omega)]

/-- Mapping page `s` and then the pages after it, one page on in physical memory, maps them all:
the step of `mappages`' loop. -/
theorem mapRange_succ (h : s ≤ e) :
    mapRange (s + 1) e (pa + PGSIZE) perm (Function.update f s (some (pa ||| perm ||| PTE_P))) =
      mapRange s e pa perm f := by
  funext p
  unfold mapRange
  by_cases hp : p = s
  · subst hp
    rw [if_neg (by omega), Function.update_self, if_pos ⟨le_rfl, h⟩, Nat.sub_self, Nat.mul_zero,
      show (0 : Nat).toUInt32 = 0 from rfl, UInt32.add_zero]
  by_cases hin : s + 1 ≤ p ∧ p ≤ e
  · have hoff : pa + PGSIZE + (4096 * (p - (s + 1))).toUInt32 = pa + (4096 * (p - s)).toUInt32 := by
      apply UInt32.toNat_inj.1
      simp only [UInt32.toNat_add, Nat.toUInt32, UInt32.toNat_ofNat', PGSIZE, UInt32.reduceToNat]
      omega
    rw [if_pos hin, if_pos ⟨by omega, hin.2⟩, hoff]
  · rw [if_neg hin, if_neg (by omega), Function.update_of_ne hp]

theorem mapRange_or {g : Nat → Option UInt32} (hg : ∀ p, s ≤ p → g p = none) (p : Nat) :
    (mapRange s e pa perm g p).or (f p) = (g p).or (mapRange s e pa perm f p) := by
  unfold mapRange
  by_cases hin : s ≤ p ∧ p ≤ e
  · rw [if_pos hin, if_pos hin, hg p hin.1, Option.some_or, Option.none_or]
  · rw [if_neg hin, if_neg hin]

end MapRange

theorem or_PTE_P_present (x : UInt32) : ((x ||| PTE_P) &&& PTE_P != 0) = true := by
  rw [bne_iff_ne, PTE_P_ne_zero, UInt32.toNat_or]
  simp [PTE_P, Nat.or_mod_two_eq_one]

namespace MapsAs

variable {vm vm' : Vm} {d : UInt32} {f : Nat → Option UInt32}

theorem unmapped (h : MapsAs vm d f) {va : UInt32} (hn : f (va.toNat / 4096) = none) :
    vm.mapped d va = false := by
  rw [(h va).1, hn]
  rfl

theorem walked {vm₀ : Vm} {a : UInt32} {xs : List UInt32} (h : MapsAs vm d f)
    (hw : Walked vm₀ vm vm' d a xs) : MapsAs vm' d f := fun va =>
  ⟨(hw.mapped va).trans (h va).1, fun w hf => by
    have hm : vm.mapped d va = true := by rw [(h va).1, hf]; rfl
    rw [hw.pte va hm]
    exact (h va).2 w hf⟩

theorem setPte (h : MapsAs vm d f) (htab : Tables vm d) {a w : UInt32}
    (ha : vm.pdePresent d (PDX a) = true) (hw : (w &&& PTE_P != 0) = true) :
    MapsAs (vm.setPte d a w) d (Function.update f (a.toNat / 4096) (some w)) := by
  intro b
  by_cases hb : b.toNat / 4096 = a.toNat / 4096
  · rw [hb, Function.update_self, mapped_eq_of_page hb, setPte_mapped_self htab ha, hw]
    refine ⟨rfl, fun w' hw' => ?_⟩
    rw [← Option.some_inj.1 hw', setPte_pteAddr htab ha, pteAddr_eq_of_page hb, setPte_pte_self]
  · rw [Function.update_of_ne hb, (setPte_mapped_of_page_ne htab ha hb).1]
    refine ⟨(h b).1, fun w' hw' => ?_⟩
    have hm : vm.mapped d b = true := by rw [(h b).1, hw']; rfl
    rw [setPte_pteAddr htab ha, setPte_pte_of_page_ne htab ha hb (Bool.and_eq_true_iff.1 hm).1]
    exact (h b).2 w' hw'

end MapsAs

section Walk

variable {vm₀ vm : Vm} {d va : UInt32} {xs : List UInt32}

theorem pde_bne_iff {vm : Vm} {k : UInt32} : vm.pdePresent d k = false ↔ vm.pde d k &&& PTE_P = 0 := by
  rw [pdePresent, bne_eq_false_iff_eq]

variable (h₀ : FreeOk vm₀)
include h₀

theorem walkpgdir_present_fresh (h : Fresh vm₀ vm d xs) (hp : vm.pdePresent d (PDX va) = true) :
    vm.walkpgdir d va true = (vm.pteAddr d va, vm) ∧ vm.pteAddr d va ≠ 0 ∧ Walked vm₀ vm vm d va xs :=
  ⟨walkpgdir_present true (bne_iff_ne.1 hp), pteAddr_ne_zero (h.sound h₀).tables hp,
    ⟨h, hp, fun _ _ _ => rfl, fun _ => rfl, fun _ _ => rfl, Word.Outside.refl _ _, List.Subset.refl _⟩⟩

theorem walkpgdir_alloc_fresh (h : Fresh vm₀ vm d xs) (hp : vm.pdePresent d (PDX va) = false)
    {q : UInt32} {rest : List UInt32} (hfl : vm.freelist = q :: rest) :
    vm.walkpgdir d va true = (q + 4 * PTX va, ({ vm with freelist := rest } : Vm).attach d (PDX va) q) ∧
      q + 4 * PTX va ≠ 0 ∧
      (({ vm with freelist := rest } : Vm).attach d (PDX va) q).pteAddr d va = q + 4 * PTX va ∧
      Walked vm₀ vm (({ vm with freelist := rest } : Vm).attach d (PDX va) q) d va xs := by
  have hk := h.kalloc hfl
  have hs := h.sound h₀
  have hd := (hs.page d List.mem_cons_self).aligned
  have hqf : q ∈ vm₀.freelist := h.mem_of_free (by rw [hfl]; exact List.mem_cons_self)
  have hqok := h.pageOk h₀ hqf
  obtain ⟨hqa, hqd, hqt⟩ := hk.taken_apart h₀ List.mem_cons_self
  have hdt : d ∉ vm.tables d := fun ht => (List.nodup_cons.1 hs.nodup).1 (List.mem_append_left _ ht)
  have hq0 : q ≠ 0 := hqok.ne_zero (h.kend ▸ h₀.kend)
  have hkal : vm.kalloc = (q, { vm with freelist := rest }) := kalloc_cons hfl
  have hwalk : vm.walkpgdir d va true =
      (q + 4 * PTX va, ({ vm with freelist := rest } : Vm).attach d (PDX va) q) := by
    rw [walkpgdir_alloc (pde_bne_iff.1 hp) (by rw [hkal]; exact hq0), hkal]
    rfl
  have hpa : (({ vm with freelist := rest } : Vm).attach d (PDX va) q).pteAddr d va = q + 4 * PTX va := by
    rw [pteAddr, attach_table_self hqa]
  have hfresh := hk.attach h₀ List.mem_cons_self (PDX_lt va) hp
  rw [List.erase_cons_head] at hfresh
  refine ⟨hwalk, ?_, hpa, ⟨hfresh, attach_pdePresent_self hqa,
    fun k hk' hne => attach_pde_of_ne hd hqa (PDX_lt va) hqd hk' hne,
    attach_mapped hd hqa (PDX_lt va) hqd hp hqt hdt, fun b hb => ?_, ?_, ?_⟩⟩
  · -- the PTE lies in the new page, which is not page 0
    intro h0
    have e := congrArg UInt32.toNat h0
    rw [toNat_entry hqa (PTX_lt va), UInt32.toNat_zero] at e
    exact hq0 (UInt32.toNat_inj.1 (by rw [UInt32.toNat_zero]; omega))
  · have hpb : vm.pdePresent d (PDX b) = true := (Bool.and_eq_true_iff.1 hb).1
    have hne : PDX b ≠ PDX va := fun he => by rw [he, hp] at hpb; cases hpb
    rw [attach_pteAddr hd hqa (PDX_lt va) hqd hne]
    exact attach_pte hd hqa (PDX_lt va) hqt hdt hpb
  · refine (attach_outside hd hqa (PDX_lt va)).mono fun x hx => ?_
    rcases List.mem_cons.1 hx with rfl | hx
    · rw [hfl]
      exact List.mem_cons_of_mem _ List.mem_cons_self
    · rw [List.mem_singleton.1 hx]
      exact List.mem_cons_self
  · intro x hx
    rw [hfl]
    exact List.mem_cons_of_mem _ hx

/-- The walk with `alloc`: no free page for a missing table gives 0 and changes nothing;
otherwise the walk returns the PTE of `va` in the state it leaves. -/
theorem walkpgdir_fresh (h : Fresh vm₀ vm d xs) (va : UInt32) :
    (vm.walkpgdir d va true = (0, vm) ∧ vm.freelist = [] ∧ vm.pdePresent d (PDX va) = false) ∨
      ((vm.walkpgdir d va true).1 = (vm.walkpgdir d va true).2.pteAddr d va ∧
        (vm.walkpgdir d va true).1 ≠ 0 ∧ Walked vm₀ vm (vm.walkpgdir d va true).2 d va xs) := by
  cases hp : vm.pdePresent d (PDX va) with
  | true =>
    obtain ⟨hw, h0, hwk⟩ := walkpgdir_present_fresh h₀ h hp
    rw [hw]
    exact Or.inr ⟨rfl, h0, hwk⟩
  | false =>
    cases hfl : vm.freelist with
    | nil =>
      left
      refine ⟨?_, rfl, rfl⟩
      rw [walkpgdir_alloc_zero (pde_bne_iff.1 hp) (by rw [kalloc_nil hfl]), kalloc_nil hfl]
    | cons q rest =>
      obtain ⟨hw, h0, hpa, hwk⟩ := walkpgdir_alloc_fresh h₀ h hp hfl
      rw [hw]
      exact Or.inr ⟨hpa.symm, h0, hwk⟩

/-- One pass of `mappages`' loop over a page it has not mapped: either no page for a missing table
(-1, nothing changed), or the walk, the store of the PTE, and the rest of the loop. -/
theorem mappagesLoop_pass (h : Fresh vm₀ vm d xs) (last perm pa : UInt32) (k : Nat) {a : UInt32}
    (hm : vm.mapped d a = false) :
    (vm.freelist = [] ∧ vm.pdePresent d (PDX a) = false ∧
      mappagesLoop d last perm (k + 1) a pa vm = .ok (-1, vm)) ∨
    ∃ vm', Walked vm₀ vm vm' d a xs ∧ mappagesLoop d last perm (k + 1) a pa vm =
      if a = last then .ok (0, vm'.setPte d a (pa ||| perm ||| PTE_P))
      else mappagesLoop d last perm k (a + PGSIZE) (pa + PGSIZE) (vm'.setPte d a (pa ||| perm ||| PTE_P)) := by
  rcases walkpgdir_fresh h₀ h a with ⟨hw, hfl, hp⟩ | ⟨hpa, h0, hwk⟩
  · left
    refine ⟨hfl, hp, ?_⟩
    rw [mappagesLoop, hw]
    rfl
  right
  generalize hr : vm.walkpgdir d a true = r at hpa h0 hwk
  obtain ⟨t, vm'⟩ := r
  dsimp only at hpa h0 hwk
  -- the PTE is not present: `a` was not mapped, and the walk keeps that
  have hnp : ¬(Word.load vm'.mem t &&& PTE_P ≠ 0) := by
    have hm' := (hwk.mapped a).trans hm
    rw [mapped, hwk.present, Bool.true_and, ← hpa, bne_eq_false_iff_eq] at hm'
    exact not_not.2 hm'
  refine ⟨vm', hwk, ?_⟩
  rw [mappagesLoop, hr]
  dsimp only
  rw [if_neg h0, if_neg hnp, hpa]
  rfl

omit h₀ in
theorem PDX_toNat_ge_512 {a : UInt32} (ha : KERNBASE ≤ a) : 512 ≤ (PDX a).toNat := by
  rw [UInt32.le_iff_toNat_le] at ha
  rw [toNat_PDX]
  simp only [KERNBASE, UInt32.reduceToNat] at ha
  omega

omit h₀ in
theorem PDX_ge_512 {a : UInt32} (ha : KERNBASE ≤ a) {k : UInt32} (hk : k < 512) : k ≠ PDX a := by
  rintro rfl
  rw [UInt32.le_iff_toNat_le] at ha
  rw [UInt32.lt_iff_toNat_lt, toNat_PDX] at hk
  simp only [KERNBASE, UInt32.reduceToNat] at ha hk
  omega

/-- One pass of `mappages`' loop over a kernel page of a directory with no user entry, which maps
the pages `f` names, none from `a` on: -1 with nothing changed, or the PTE stored, and `a`'s page
added to what the directory maps. -/
theorem mappagesLoop_kernel_pass (h : Fresh vm₀ vm d []) (hu : UserEmpty vm d) {f : Nat → Option UInt32}
    (hf : MapsAs vm d f) {a : UInt32} (hnone : ∀ p, a.toNat / 4096 ≤ p → f p = none) (ha : KERNBASE ≤ a)
    (last perm pa : UInt32) (k : Nat) :
    (vm.freelist = [] ∧ vm.pdePresent d (PDX a) = false ∧ mappagesLoop d last perm (k + 1) a pa vm = .ok (-1, vm)) ∨
    ∃ vm'', Fresh vm₀ vm'' d [] ∧ UserEmpty vm'' d ∧
      MapsAs vm'' d (Function.update f (a.toNat / 4096) (some (pa ||| perm ||| PTE_P))) ∧
      mappagesLoop d last perm (k + 1) a pa vm =
        if a = last then .ok (0, vm'') else mappagesLoop d last perm k (a + PGSIZE) (pa + PGSIZE) vm'' := by
  rcases mappagesLoop_pass h₀ h last perm pa k (hf.unmapped (hnone _ le_rfl)) with
    hrun | ⟨vm', hwk, hrun⟩
  · exact Or.inl hrun
  right
  -- the walk touched a kernel entry only
  have hu' : UserEmpty vm' d := fun j hj => by
    rw [pdePresent, hwk.pde j (UInt32.lt_of_lt_of_le hj (by decide)) (PDX_ge_512 ha hj)]
    exact hu j hj
  obtain ⟨hfr, hu''⟩ := Fresh.setPte_table h₀ hwk.fresh hu' (w := pa ||| perm ||| PTE_P) hwk.present
  exact ⟨_, hfr, hu'', (hf.walked hwk).setPte (hwk.fresh.sound h₀).tables hwk.present (or_PTE_P_present _),
    hrun⟩

/-- `mappages`' loop over kernel pages of a directory with no user entry, which maps the pages `f`
names, none from `a` on: it maps the pages up to `last` to the physical pages from `pa` on, or it
runs out of pages for a table and returns -1, which only a free list of at most 512 pages at `vm₀`
allows. The directory stays one built of free pages, with no user entry. -/
theorem mappagesLoop_kernel {last perm : UInt32} : ∀ (n : Nat) (a pa : UInt32) (vm : Vm) (f : Nat → Option UInt32),
    Fresh vm₀ vm d [] → UserEmpty vm d → MapsAs vm d f → (∀ p, a.toNat / 4096 ≤ p → f p = none) →
    KERNBASE ≤ a → last.toNat = a.toNat + 4096 * n →
    ∃ r vm', mappagesLoop d last perm (n + 1) a pa vm = .ok (r, vm') ∧ Fresh vm₀ vm' d [] ∧ UserEmpty vm' d ∧
      (r = -1 ∧ vm₀.freelist.length ≤ 512 ∨
        r = 0 ∧ MapsAs vm' d (mapRange (a.toNat / 4096) (last.toNat / 4096) pa perm f)) := by
  intro n
  induction n with
  | zero =>
    intro a pa vm f h hu hf hnone ha hlast
    rcases mappagesLoop_kernel_pass h₀ h hu hf hnone ha last perm pa 0 with
      ⟨hfl, hp, hrun⟩ | ⟨vm'', hfr, hu'', hf'', hrun⟩
    · exact ⟨-1, vm, hrun, h, hu, Or.inl ⟨rfl, h.length_le_of_starved hu hfl (PDX_toNat_ge_512 ha) (PDX_lt a) hp⟩⟩
    -- the last page
    have hal : a = last := UInt32.toNat_inj.1 (by omega)
    rw [if_pos hal] at hrun
    refine ⟨0, vm'', hrun, hfr, hu'', Or.inr ⟨rfl, ?_⟩⟩
    rw [← hal, mapRange_self]
    exact hf''
  | succ n ih =>
    intro a pa vm f h hu hf hnone ha hlast
    rcases mappagesLoop_kernel_pass h₀ h hu hf hnone ha last perm pa (n + 1) with
      ⟨hfl, hp, hrun⟩ | ⟨vm'', hfr, hu'', hf'', hrun⟩
    · exact ⟨-1, vm, hrun, h, hu, Or.inl ⟨rfl, h.length_le_of_starved hu hfl (PDX_toNat_ge_512 ha) (PDX_lt a) hp⟩⟩
    -- a page before the last: the next one does not wrap
    have hne : a ≠ last := fun he => by rw [he] at hlast; omega
    have hnext : (a + PGSIZE).toNat = a.toNat + 4096 := toNat_add_PGSIZE (by have := last.toNat_lt; omega)
    have hpage : (a + PGSIZE).toNat / 4096 = a.toNat / 4096 + 1 := by omega
    have hka : KERNBASE ≤ a + PGSIZE := by
      rw [UInt32.le_iff_toNat_le, hnext]
      rw [UInt32.le_iff_toNat_le] at ha
      omega
    rw [if_neg hne] at hrun
    rw [hrun]
    obtain ⟨r, vm', hrun', hfr', hu', hr⟩ := ih (a + PGSIZE) (pa + PGSIZE) vm'' _ hfr hu'' hf''
      (fun p hp => by rw [Function.update_of_ne (by omega)]; exact hnone p (by omega)) hka (by omega)
    refine ⟨r, vm', hrun', hfr', hu', ?_⟩
    rcases hr with ⟨rfl, hlen⟩ | ⟨rfl, hm⟩
    · exact Or.inl ⟨rfl, hlen⟩
    · rw [hpage, mapRange_succ (by omega)] at hm
      exact Or.inr ⟨rfl, hm⟩

end Walk

end Vm

end Xv6
