import Xv6.Vm.Copy

/-!
# Growing a directory built out of free pages (`allocuvm`, `deallocuvm`)

`exec` builds the new address space in a directory that `setupkvm` took from the free list and
grows it with `allocuvm`, segment by segment and then by the two stack pages. `Img vm₀ vm d sz`
says what is built: a directory of pages taken since `vm₀` (`Fresh`) whose user half maps the
pages below `sz` and no other. `allocuvm` keeps it at the new size (`Img.allocuvm`). When it runs
out of pages it gives back, through `deallocuvm`, the user pages it mapped, so the directory maps
the pages below the old size again; the page tables it added stay, owned by the directory, and
`freevm` gives them back with the rest.
-/

namespace Xv6

namespace Vm

/-! ### `deallocuvm` -/

section Dealloc

variable {vm vm' : Vm} {pgdir : UInt32} {s e : Nat}

theorem deallocuvmLoop_kdata {oldsz : UInt32} :
    ∀ (k : Nat) (a : UInt32) (vm vm' : Vm), deallocuvmLoop pgdir oldsz k a vm = .ok vm' → vm'.kdata = vm.kdata
  | 0, _, vm, vm', h => by
    cases h
    rfl
  | k + 1, a, vm, vm', h => by
    rw [deallocuvmLoop] at h
    dsimp only at h
    -- `split_ifs` discards the `panic` of a null frame
    split_ifs at h with hlt h0 hp hpa
    · exact deallocuvmLoop_kdata k _ vm vm' h
    · obtain ⟨vm₁, hk, h⟩ := Except.bind_eq_ok.1 h
      rw [deallocuvmLoop_kdata k _ _ vm' h]
      exact (kfree_eq_ok hk).2.2.2
    · exact deallocuvmLoop_kdata k _ vm vm' h
    · cases h
      rfl

theorem Done.mapped_eq (h : Done vm vm' pgdir s e) (b : UInt32) :
    vm'.mapped pgdir b = (vm.mapped pgdir b && !decide (s ≤ b.toNat / 4096 ∧ b.toNat / 4096 < e)) := by
  cases hp : vm.pdePresent pgdir (PDX b) with
  | false =>
    rw [mapped, mapped, h.pdePresent_eq (PDX_lt b), hp, Bool.false_and, Bool.false_and, Bool.false_and]
  | true =>
    have hpte := h.pte b hp
    rw [mapped, h.pdePresent_eq (PDX_lt b), hp, h.pteAddr_eq, hpte]
    by_cases hr : s ≤ b.toNat / 4096 ∧ b.toNat / 4096 < e
    · by_cases hm : vm.mapped pgdir b = true
      · -- a page of the range that was mapped: its PTE is now 0
        rw [if_pos ⟨hr.1, hr.2, hm⟩]
        simp [hr]
      · rw [if_neg fun hc => hm hc.2.2]
        rw [Bool.not_eq_true] at hm
        rw [hm]
        rw [mapped, hp, Bool.true_and] at hm
        rw [Bool.true_and, hm, Bool.false_and]
    · rw [if_neg fun hc => hr ⟨hc.1, hc.2.1⟩, mapped, hp]
      simp [hr]

theorem Done.frame_eq (h : Done vm vm' pgdir s e) {b : UInt32} (hm : vm.mapped pgdir b = true)
    (hr : ¬(s ≤ b.toNat / 4096 ∧ b.toNat / 4096 < e)) : vm'.frame pgdir b = vm.frame pgdir b := by
  have hp : vm.pdePresent pgdir (PDX b) = true := (Bool.and_eq_true_iff.1 hm).1
  refine frame_congr (h.pteAddr_eq b) ?_
  rw [h.pte b hp, if_neg fun hc => hr ⟨hc.1, hc.2.1⟩]

theorem Done.tables_eq (h : Done vm vm' pgdir s e) : vm'.tables pgdir = vm.tables pgdir :=
  Alloc.filter_map_congr fun _ hk =>
    have hk' := toUInt32_lt_1024 (List.mem_range.1 hk)
    ⟨h.pdePresent_eq hk', fun _ => by rw [table, table, h.pde _ hk']⟩

theorem Done.frames_perm (h : Done vm vm' pgdir s e) (hs : s ≤ e) (he : e ≤ 524288) :
    (vm.frames pgdir).Perm (vm'.frames pgdir ++ vm.freed pgdir (pageRange s e)) := by
  have hsplit : pagesIn 0 KERNBASE = pageRange 0 s ++ pageRange s e ++ pageRange e 524288 := by
    rw [pagesIn_user, ← pageRange_append (Nat.zero_le s) hs, ← pageRange_append (Nat.zero_le e) he]
  -- outside the range the directory maps what it mapped; inside, nothing
  have hout : ∀ l : List UInt32, (∀ b ∈ l, ¬(s ≤ b.toNat / 4096 ∧ b.toNat / 4096 < e)) →
      vm'.freed pgdir l = vm.freed pgdir l := fun l hl =>
    Alloc.filter_map_congr fun b hb =>
      ⟨by rw [h.mapped_eq]; simp [hl b hb], fun hm => h.frame_eq hm (hl b hb)⟩
  have hin : vm'.freed pgdir (pageRange s e) = [] := freed_of_unmapped fun b hb => by
    have := page_of_mem_pageRange (by omega) hb
    rw [h.mapped_eq]
    simp [this]
  have hlo : ∀ b ∈ pageRange 0 s, ¬(s ≤ b.toNat / 4096 ∧ b.toNat / 4096 < e) := fun b hb hr =>
    absurd hr.1 (Nat.not_le.2 (page_of_mem_pageRange (by omega) hb).2)
  have hhi : ∀ b ∈ pageRange e 524288, ¬(s ≤ b.toNat / 4096 ∧ b.toNat / 4096 < e) := fun b hb hr =>
    absurd hr.2 (Nat.not_lt.2 (page_of_mem_pageRange (by decide) hb).1)
  rw [frames, frames, hsplit, freed_append, freed_append, freed_append, freed_append, hin, hout _ hlo,
    hout _ hhi, List.append_nil, List.append_assoc, List.append_assoc]
  exact (List.perm_append_comm.append_left _)

theorem perm_freed_back {α : Type} {xs T F F' R L : List α} {d : α} (hfr : F.Perm (F' ++ R)) :
    (xs ++ d :: (T ++ F') ++ (R.reverse ++ L)).Perm (xs ++ d :: (T ++ F) ++ L) := by
  have hmid : (F' ++ (R.reverse ++ L)).Perm (F ++ L) :=
    calc (F' ++ (R.reverse ++ L)).Perm (F' ++ (R ++ L)) := ((List.reverse_perm R).append_right L).append_left F'
      _ = F' ++ R ++ L := (List.append_assoc _ _ _).symm
      List.Perm _ (F ++ L) := hfr.symm.append_right L
  simp only [List.append_assoc, List.cons_append]
  exact ((hmid.append_left T).cons d).append_left xs

end Dealloc

theorem mem_pagesIn_user_of {lo hi va : UInt32} (hhi : hi ≤ KERNBASE) (h : va ∈ pagesIn lo hi) :
    va ∈ pagesIn 0 KERNBASE := by
  obtain ⟨hal, -, hlt⟩ := (mem_pagesIn hhi).1 h
  have hhi' := UInt32.le_iff_toNat_le.1 hhi
  refine (mem_pagesIn (show KERNBASE ≤ KERNBASE by decide)).2 ⟨hal, Nat.zero_le _, ?_⟩
  simp only [KERNBASE, UInt32.reduceToNat] at hhi' ⊢
  omega

section Fresh

variable {vm₀ vm : Vm} {d : UInt32} {xs : List UInt32}

theorem Fresh.deallocuvm (h₀ : FreeOk vm₀) (h : Fresh vm₀ vm d xs) {oldsz newsz : UInt32}
    (hold : oldsz ≤ KERNBASE) (hlt : newsz < oldsz) :
    ∃ vm', vm.deallocuvm d oldsz newsz = .ok (newsz, vm') ∧ Fresh vm₀ vm' d xs ∧
      ∀ b, vm'.mapped d b = (vm.mapped d b &&
        !decide ((PGROUNDUP newsz).toNat / 4096 ≤ b.toNat / 4096 ∧ b.toNat / 4096 < (oldsz.toNat + 4095) / 4096)) := by
  have hs := h.sound h₀
  -- the pages freed are user pages of the directory
  have hsub : ∀ f ∈ vm.freed d (pagesIn (PGROUNDUP newsz) oldsz), f ∈ vm.frames d := fun f hf => by
    obtain ⟨b, hb, rfl⟩ := List.mem_map.1 hf
    obtain ⟨hb, hm⟩ := List.mem_filter.1 hb
    exact List.mem_map.2 ⟨b, List.mem_filter.2 ⟨mem_pagesIn_user_of hold hb, hm⟩, rfl⟩
  obtain ⟨vm', hrun, hdone, hout⟩ := deallocuvm_spec hs.tables hold (fun f hf => hs.freeable (hsub f hf)) hlt
  have hold' := UInt32.le_iff_toNat_le.1 hold
  have hlt' := UInt32.lt_iff_toNat_lt.1 hlt
  have hkb : KERNBASE.toNat = 0x80000000 := rfl
  have hup : (PGROUNDUP newsz).toNat = (newsz.toNat + 4095) / 4096 * 4096 :=
    toNat_PGROUNDUP_of_le (UInt32.le_of_lt (UInt32.lt_of_lt_of_le hlt hold))
  have hse : (PGROUNDUP newsz).toNat / 4096 ≤ (oldsz.toNat + 4095) / 4096 := by omega
  have he : (oldsz.toNat + 4095) / 4096 ≤ 524288 := by omega
  refine ⟨vm', hrun, ⟨?_, ?_, hdone.kend.trans h.kend, ?_⟩, hdone.mapped_eq⟩
  · -- the freed pages move from the directory's user pages to the front of the free list
    have hp := h.perm
    rw [owned] at hp
    rw [owned, hdone.tables_eq, hdone.freelist]
    exact (perm_freed_back (hdone.frames_perm hse he)).trans hp
  · refine h.outside.trans hout fun f hf => ?_
    rcases List.mem_append.1 hf with ht | hf
    · exact h.mem_of_owned (mem_owned_of_table ht)
    · exact h.mem_of_owned (mem_owned_of_frame (hsub f hf))
  · rw [Vm.deallocuvm, if_neg (UInt32.not_le.2 hlt)] at hrun
    obtain ⟨vm₁, hloop, hvm'⟩ := Except.bind_eq_ok.1 hrun
    have hv : vm₁ = vm' := (Prod.mk.inj (Except.ok.inj hvm')).2
    rw [← hv]
    exact (deallocuvmLoop_kdata _ _ _ _ hloop).trans h.kdata

theorem Fresh.apart_taken (h₀ : FreeOk vm₀) (h : Fresh vm₀ vm d xs) {vm' : Vm} {q : UInt32} (hq : q ∈ xs)
    (hm : Word.Outside [q] vm.mem vm'.mem) : Apart vm vm' d [q] :=
  ⟨hm, ((h.sound h₀).page d List.mem_cons_self).aligned, fun x hx => by
    rw [List.mem_singleton.1 hx]
    exact h.taken_apart h₀ hq⟩

end Fresh

/-! ### What `exec` has built -/

/-- `exec`'s new address space so far: a directory of pages taken since `vm₀` whose user half
maps the pages numbered below `n`, and no other. -/
structure Img (vm₀ vm : Vm) (d : UInt32) (n : Nat) : Prop where
  fresh : Fresh vm₀ vm d []
  le : n ≤ 524288
  mapped : ∀ va ∈ pagesIn 0 KERNBASE, vm.mapped d va = decide (va.toNat / 4096 < n)

/-- The user pages numbered from `s` below `e` are mapped, for user code, to pages of zeros. -/
def UserZero (vm : Vm) (d : UInt32) (s e : Nat) : Prop :=
  ∀ va ∈ pagesIn 0 KERNBASE, s ≤ va.toNat / 4096 → va.toNat / 4096 < e →
    Word.load vm.mem (vm.pteAddr d va) &&& PTE_U ≠ 0 ∧
      Word.bytes vm.mem (vm.frame d va) 4096 = List.replicate 4096 0

section Img

variable {vm₀ vm : Vm} {d : UInt32} {n : Nat}

theorem Img.start (h : Fresh vm₀ vm d []) (hu : UserEmpty vm d) : Img vm₀ vm d 0 where
  fresh := h
  le := Nat.zero_le _
  mapped va hva := by
    rw [Vm.mapped, hu _ (PDX_lt_512 (mem_pagesIn_user hva)), Bool.false_and]
    rfl

theorem UserZero.empty (vm : Vm) (d : UInt32) (s : Nat) : UserZero vm d s s :=
  fun _ _ hs hlt => absurd hs (Nat.not_le.2 hlt)

theorem Img.of_dealloc {vm' : Vm} {s e : Nat} (hf : Fresh vm₀ vm' d [])
    (hmap : ∀ va ∈ pagesIn 0 KERNBASE, vm.mapped d va = decide (va.toNat / 4096 < n))
    (hd : ∀ b, vm'.mapped d b = (vm.mapped d b && !decide (s ≤ b.toNat / 4096 ∧ b.toNat / 4096 < e)))
    (hsn : s ≤ n) (hne : n ≤ e) (hn : n ≤ 524288) : Img vm₀ vm' d s where
  fresh := hf
  le := by omega
  mapped va hva := by
    rw [hd, hmap va hva]
    by_cases hs : va.toNat / 4096 < s
    · simp [hs, show va.toNat / 4096 < n by omega]
    · by_cases hn' : va.toNat / 4096 < n
      · simp [hs, hn', show s ≤ va.toNat / 4096 by omega, show va.toNat / 4096 < e by omega]
      · simp [hs, hn']

/-- The PTE `allocuvm` writes for the page `q`: present, naming `q`, open to user code. -/
theorem user_pte {q : UInt32} (hq : q.toNat % 4096 = 0) :
    ((V2P q ||| (PTE_W ||| PTE_U) ||| PTE_P) &&& PTE_P != 0) = true ∧
      P2V (PTE_ADDR (V2P q ||| (PTE_W ||| PTE_U) ||| PTE_P)) = q ∧
      (V2P q ||| (PTE_W ||| PTE_U) ||| PTE_P) &&& PTE_U ≠ 0 := by
  have hv : (V2P q).toNat % 2 ^ 12 = 0 := by
    rw [V2P, UInt32.toNat_sub]
    simp only [KERNBASE, UInt32.reduceToNat]
    omega
  have h₁ := Word.toNat_or_of_lt (V2P q) (PTE_W ||| PTE_U) 12 hv (by decide)
  have hperm : (PTE_W ||| PTE_U).toNat = 6 := rfl
  have hw : (V2P q ||| (PTE_W ||| PTE_U) ||| PTE_P).toNat = (V2P q).toNat + 7 := by
    rw [Word.toNat_or_of_lt _ PTE_P 1 (by rw [h₁, hperm]; omega) (by decide), h₁, hperm]
    rfl
  refine ⟨?_, ?_, ?_⟩
  · rw [bne_iff_ne, PTE_P_ne_zero, hw]
    omega
  · have ha : PTE_ADDR (V2P q ||| (PTE_W ||| PTE_U) ||| PTE_P) = V2P q :=
      UInt32.toNat_inj.1 (by rw [toNat_PTE_ADDR, hw]; omega)
    rw [ha, P2V_V2P]
  · rw [PTE_U_ne_zero, hw]
    omega

end Img

/-! ### `allocuvm` -/

section Alloc

variable {vm₀ vm : Vm} {d oldsz newsz a : UInt32} {n s : Nat}

/-- The pass at `a` when the free list is empty: `deallocuvm(pgdir, newsz, oldsz)` and 0. -/
theorem allocuvmLoop_nomem {k : Nat} (hlt : a < newsz) (hfl : vm.freelist = []) :
    allocuvmLoop d oldsz newsz (k + 1) a vm = (vm.deallocuvm d newsz oldsz >>= fun r => pure (0, r.2)) := by
  rw [allocuvmLoop, if_pos hlt]
  simp only [kalloc_nil hfl]
  rfl

/-- The pass at `a` when `kalloc` hands out `q`: the zeroed page mapped at `a`, then the rest of
the loop, or the way back when `mappages` finds no page for a table. -/
theorem allocuvmLoop_page {q : UInt32} {rest : List UInt32} {k : Nat} (hlt : a < newsz)
    (hfl : vm.freelist = q :: rest) (hq : q ≠ 0) :
    allocuvmLoop d oldsz newsz (k + 1) a vm =
      (mappages { vm with freelist := rest, mem := Word.fill vm.mem q PGSIZE.toNat 0 } d a PGSIZE (V2P q)
          (PTE_W ||| PTE_U) >>= fun m =>
        if m.1 < 0 then (m.2.deallocuvm d newsz oldsz >>= fun r => r.2.kfree q >>= fun vm => pure (0, vm))
        else allocuvmLoop d oldsz newsz k (a + PGSIZE) m.2) := by
  rw [allocuvmLoop, if_pos hlt]
  simp only [kalloc_cons hfl, if_neg hq]

/-- One pass of `allocuvm`'s loop at the page `a`, number `n`, of an image of `n` pages whose pages
from `s` on are fresh zeroed pages: out of pages it gives back the pages from `s` on and returns 0;
otherwise it maps a zeroed page at `a`. -/
theorem allocuvmLoop_pass (h₀ : FreeOk vm₀) (hi : Img vm₀ vm d n) (hz : UserZero vm d s n)
    (hs : (oldsz.toNat + 4095) / 4096 = s) (hsn : s ≤ n) (ha : a.toNat = 4096 * n) (hlt : a < newsz)
    (hnew : newsz ≤ KERNBASE) (k : Nat) :
    (∃ vm', allocuvmLoop d oldsz newsz (k + 1) a vm = .ok (0, vm') ∧ Img vm₀ vm' d s) ∨
    ∃ vm', Img vm₀ vm' d (n + 1) ∧ UserZero vm' d s (n + 1) ∧
      allocuvmLoop d oldsz newsz (k + 1) a vm = allocuvmLoop d oldsz newsz k (a + PGSIZE) vm' := by
  have hlt' := UInt32.lt_iff_toNat_lt.1 hlt
  have hnew' := UInt32.le_iff_toNat_le.1 hnew
  have hkb : KERNBASE.toNat = 0x80000000 := rfl
  have hold : oldsz < newsz := UInt32.lt_iff_toNat_lt.2 (by omega)
  have hup : (PGROUNDUP oldsz).toNat / 4096 = s := by
    rw [toNat_PGROUNDUP_of_le (UInt32.le_of_lt (UInt32.lt_of_lt_of_le hold hnew))]
    omega
  have hau : a ∈ pagesIn 0 KERNBASE :=
    (mem_pagesIn (show KERNBASE ≤ KERNBASE by decide)).2 ⟨by omega, Nat.zero_le _, by omega⟩
  have hna : a.toNat / 4096 = n := by omega
  -- the way back: `deallocuvm` of the pages from `s` on, which leaves an image of `s` pages
  have hback : ∀ {vm₁ : Vm} {xs : List UInt32}, Fresh vm₀ vm₁ d xs →
      (∀ va ∈ pagesIn 0 KERNBASE, vm₁.mapped d va = decide (va.toNat / 4096 < n)) →
      ∃ vm₂, vm₁.deallocuvm d newsz oldsz = .ok (oldsz, vm₂) ∧ Fresh vm₀ vm₂ d xs ∧
        ∀ va ∈ pagesIn 0 KERNBASE, vm₂.mapped d va = decide (va.toNat / 4096 < s) := by
    intro vm₁ xs hf hmap
    obtain ⟨vm₂, hrun, hf₂, hd⟩ := hf.deallocuvm h₀ hnew hold
    rw [hup] at hd
    refine ⟨vm₂, hrun, hf₂, fun va hva => ?_⟩
    rw [hd, hmap va hva]
    by_cases hvs : va.toNat / 4096 < s
    · simp [hvs, show va.toNat / 4096 < n by omega]
    · by_cases hvn : va.toNat / 4096 < n
      · simp [hvs, hvn, show s ≤ va.toNat / 4096 by omega, show va.toNat / 4096 < (newsz.toNat + 4095) / 4096 by omega]
      · simp [hvs, hvn]
  have hsle : s ≤ 524288 := le_trans hsn hi.le
  cases hfl : vm.freelist with
  | nil =>
    obtain ⟨vm₂, hrun, hf₂, hmap₂⟩ := hback hi.fresh hi.mapped
    left
    refine ⟨vm₂, ?_, ⟨hf₂, hsle, hmap₂⟩⟩
    rw [allocuvmLoop_nomem hlt hfl, hrun]
    rfl
  | cons q rest =>
    have hqf : q ∈ vm.freelist := by rw [hfl]; exact List.mem_cons_self
    have hqok := hi.fresh.pageOk h₀ (hi.fresh.mem_of_free hqf)
    rw [allocuvmLoop_page hlt hfl (hqok.ne_zero (hi.fresh.kend ▸ h₀.kend))]
    -- the page `q`, taken and zeroed
    generalize hvm₂ : ({ vm with freelist := rest, mem := Word.fill vm.mem q PGSIZE.toNat 0 } : Vm) = vm₂
    have hf₁ := hi.fresh.kalloc hfl
    have hm₂ : Word.Outside [q] vm.mem vm₂.mem := by
      rw [← hvm₂]
      exact Word.Outside.fill List.mem_cons_self hqok.aligned (by decide)
    have hf₂ : Fresh vm₀ vm₂ d [q] := hf₁.write h₀ List.mem_cons_self hm₂ (by rw [← hvm₂]) (by rw [← hvm₂])
      (by rw [← hvm₂])
    have happ : Apart vm vm₂ d [q] :=
      have h := hf₁.apart_taken h₀ List.mem_cons_self hm₂
      ⟨h.outside, h.aligned, h.pages⟩
    have hfl₂ : vm₂.freelist = rest := by rw [← hvm₂]
    have hzero : Word.bytes vm₂.mem q 4096 = List.replicate 4096 0 := by
      rw [← hvm₂]
      exact Word.bytes_fill_self (by decide)
    have hmap₂ : ∀ va ∈ pagesIn 0 KERNBASE, vm₂.mapped d va = decide (va.toNat / 4096 < n) := fun va hva =>
      (happ.mapped va).trans (hi.mapped va hva)
    have hma : vm₂.mapped d a = false := by
      rw [hmap₂ a hau, hna]
      simp
    rw [mappages_page (by omega) (by omega)]
    rcases mappagesLoop_pass h₀ hf₂ a (PTE_W ||| PTE_U) (V2P q) 0 hma with ⟨-, -, hrun⟩ | ⟨vm₃, hwk, hrun⟩
    · -- no page for the page table: give back the pages mapped, then `kfree(mem)`
      obtain ⟨vm₃, hdeal, hf₃, hmap₃⟩ := hback hf₂ hmap₂
      obtain ⟨vm₄, hk₄⟩ := (hf₃.pageOk h₀ (hf₃.mem_of_taken List.mem_cons_self)).kfree
      have hf₄ := hf₃.kfree h₀ List.mem_cons_self hk₄
      rw [List.erase_cons_head] at hf₄
      have happ₄ : Apart vm₃ vm₄ d [q] :=
        hf₃.apart_taken h₀ List.mem_cons_self (kfree_outside hk₄ List.mem_cons_self hqok.aligned)
      left
      refine ⟨vm₄, ?_, ⟨hf₄, hsle, fun va hva => (happ₄.mapped va).trans (hmap₃ va hva)⟩⟩
      rw [Nat.zero_add] at hrun
      rw [hrun, Except.ok_bind, if_pos (show (-1 : Int) < 0 by decide)]
      dsimp only
      rw [hdeal, Except.ok_bind, hk₄]
      rfl
    · rw [if_pos rfl, Nat.zero_add] at hrun
      right
      have htab₃ := (hwk.fresh.sound h₀).tables
      obtain ⟨hpres, hpa, hpu⟩ := user_pte hqok.aligned
      have hf₄ := Fresh.setPte_user h₀ hwk.fresh hau hwk.present ((hwk.mapped a).trans hma) List.mem_cons_self
        hpres hpa
      rw [List.erase_cons_head] at hf₄
      refine ⟨_, ⟨hf₄, by omega, fun va hva => ?_⟩, fun va hva hsv hvn => ?_, ?_⟩
      · by_cases hpv : va.toNat / 4096 = n
        · -- the page mapped in this pass
          have hva' : va = a := UInt32.toNat_inj.1 (by
            have := ((mem_pagesIn (show KERNBASE ≤ KERNBASE by decide)).1 hva).1
            omega)
          rw [hva', setPte_mapped_self htab₃ hwk.present, hpres, hna]
          simp
        · rw [(setPte_mapped_of_page_ne htab₃ hwk.present (by omega)).1, hwk.mapped, hmap₂ va hva]
          simp only [decide_eq_decide]
          omega
      · by_cases hpv : va.toNat / 4096 = n
        · have hva' : va = a := UInt32.toNat_inj.1 (by
            have := ((mem_pagesIn (show KERNBASE ≤ KERNBASE by decide)).1 hva).1
            omega)
          rw [hva', setPte_pteAddr htab₃ hwk.present, setPte_pte_self, setPte_frame_self htab₃ hwk.present, hpa,
            pass_new h₀ hi.fresh hfl hfl₂ hwk, hzero]
          exact ⟨hpu, rfl⟩
        · -- a page mapped before this pass keeps its PTE and its zeros
          have hmv : vm.mapped d va = true := by
            rw [hi.mapped va hva]
            simp only [decide_eq_true_eq]
            omega
          obtain ⟨-, hword, hfr, hbytes⟩ := pass_keeps h₀ hi.fresh hfl happ hfl₂ hwk _ hva hmv (by omega)
          obtain ⟨hu, hz'⟩ := hz va hva hsv (by omega)
          rw [hword, hfr, hbytes]
          exact ⟨hu, hz'⟩
      · rw [hrun, Except.ok_bind, if_neg (show ¬(0 : Int) < 0 by decide)]

/-- `allocuvm`'s loop from the page `a`, number `n`, with more passes left than pages to map below
`newsz`: it maps a fresh zeroed page at each page up to `newsz` and returns `newsz`, or it gives
back the pages from `s` on and returns 0. The induction is on the passes left. -/
theorem allocuvmLoop_grows (h₀ : FreeOk vm₀) (hs : (oldsz.toNat + 4095) / 4096 = s) (hnew : newsz ≤ KERNBASE) :
    ∀ (k n : Nat) (a : UInt32) (vm : Vm), Img vm₀ vm d n → UserZero vm d s n → s ≤ n →
      a.toNat = 4096 * n → n ≤ (newsz.toNat + 4095) / 4096 → (newsz.toNat + 4095) / 4096 - n < k →
      ∃ r vm', allocuvmLoop d oldsz newsz k a vm = .ok (r, vm') ∧
        (r = 0 ∧ Img vm₀ vm' d s ∨
          r = newsz ∧ Img vm₀ vm' d ((newsz.toNat + 4095) / 4096) ∧
            UserZero vm' d s ((newsz.toNat + 4095) / 4096))
  | 0, _, _, _, _, _, _, _, _, hk => absurd hk (Nat.not_lt_zero _)
  | k + 1, n, a, vm, hi, hz, hsn, ha, hle, hk => by
    have hnew' := UInt32.le_iff_toNat_le.1 hnew
    have hkb : KERNBASE.toNat = 0x80000000 := rfl
    by_cases hlt : a < newsz
    · rcases allocuvmLoop_pass h₀ hi hz hs hsn ha hlt hnew k with ⟨vm', hrun, hi'⟩ | ⟨vm', hi', hz', hrun⟩
      · exact ⟨0, vm', hrun, Or.inl ⟨rfl, hi'⟩⟩
      · -- the next page, still at most the first page not below `newsz`
        have hlt' := UInt32.lt_iff_toNat_lt.1 hlt
        have hnext : (a + PGSIZE).toNat = 4096 * (n + 1) := by
          rw [toNat_add_PGSIZE (by omega)]
          omega
        rw [hrun]
        exact allocuvmLoop_grows h₀ hs hnew k (n + 1) (a + PGSIZE) vm' hi' hz' (by omega) hnext (by omega)
          (by omega)
    · -- past `newsz`: the page reached is the first page not below `newsz`
      have hge := UInt32.le_iff_toNat_le.1 (UInt32.not_lt.1 hlt)
      have hn : n = (newsz.toNat + 4095) / 4096 := by omega
      refine ⟨newsz, vm, ?_, Or.inr ⟨rfl, by rw [← hn]; exact hi, by rw [← hn]; exact hz⟩⟩
      rw [allocuvmLoop, if_neg hlt]
      rfl

/-- `allocuvm(pgdir, oldsz, newsz)` on an image of the pages below `oldsz` never panics. It returns
0 with an image of the pages below `oldsz`; or, for `oldsz ≤ newsz < KERNBASE`, `newsz` with an
image of the pages below `newsz`, the new ones fresh zeroed pages open to user code; or, for
`newsz < oldsz`, `oldsz` with nothing changed. -/
theorem Img.allocuvm (h₀ : FreeOk vm₀) (hi : Img vm₀ vm d ((oldsz.toNat + 4095) / 4096)) (newsz : UInt32) :
    ∃ r vm', vm.allocuvm d oldsz newsz = .ok (r, vm') ∧
      (r = 0 ∧ Img vm₀ vm' d ((oldsz.toNat + 4095) / 4096) ∨
        newsz < KERNBASE ∧ oldsz ≤ newsz ∧ r = newsz ∧ Img vm₀ vm' d ((newsz.toNat + 4095) / 4096) ∧
          UserZero vm' d ((oldsz.toNat + 4095) / 4096) ((newsz.toNat + 4095) / 4096) ∨
        newsz < oldsz ∧ r = oldsz ∧ vm' = vm) := by
  by_cases hk : newsz ≥ KERNBASE
  · exact ⟨0, vm, by rw [Vm.allocuvm, if_pos hk]; rfl, Or.inl ⟨rfl, hi⟩⟩
  by_cases hlt : newsz < oldsz
  · refine ⟨oldsz, vm, ?_, Or.inr (Or.inr ⟨hlt, rfl, rfl⟩)⟩
    rw [Vm.allocuvm, if_neg hk, if_pos hlt]
    rfl
  have hk' : newsz < KERNBASE := UInt32.not_le.1 hk
  have hle : oldsz ≤ newsz := UInt32.not_lt.1 hlt
  have hkb : KERNBASE.toNat = 0x80000000 := rfl
  have hk'' := UInt32.lt_iff_toNat_lt.1 hk'
  have hle' := UInt32.le_iff_toNat_le.1 hle
  have hup : (PGROUNDUP oldsz).toNat = 4096 * ((oldsz.toNat + 4095) / 4096) := by
    rw [toNat_PGROUNDUP_of_le (UInt32.le_of_lt (UInt32.lt_of_le_of_lt hle hk'))]
    omega
  obtain ⟨r, vm', hrun, hr⟩ := allocuvmLoop_grows h₀ rfl (UInt32.le_of_lt hk') (NPDENTRIES * NPTENTRIES)
    ((oldsz.toNat + 4095) / 4096) (PGROUNDUP oldsz) vm hi (UserZero.empty _ _ _) (le_refl _) hup (by omega)
    (by simp only [NPDENTRIES, NPTENTRIES]; omega)
  refine ⟨r, vm', ?_, ?_⟩
  · rw [Vm.allocuvm, if_neg hk, if_neg hlt]
    exact hrun
  · rcases hr with ⟨rfl, hi'⟩ | ⟨rfl, hi', hz'⟩
    · exact Or.inl ⟨rfl, hi'⟩
    · exact Or.inr (Or.inl ⟨hk', hle, rfl, hi', hz'⟩)

end Alloc

end Vm

end Xv6
