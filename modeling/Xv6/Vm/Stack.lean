import Xv6.Vm.Load
import Xv6.Vm.Exec

/-!
# `exec`'s stack page

`exec` grows the image by two pages, closes the lower one to user code with `clearpteu` and pushes
the argument strings down from the top of the upper one. Over such an image (`Stack`), a string of
at most 4092 bytes lands inside the stack page, or its `copyout` starts in the guard page, which
`uva2ka` refuses before anything is written (`Stack.copyout`); so the loop writes nowhere else
(`execArgs_stack`). A longer string can carry `sp` below the image (`Xv6.Vm.Exec`).
-/

namespace Xv6

namespace Vm

theorem and_not_PTE_U (x : UInt32) :
    (x &&& ~~~PTE_U) &&& PTE_U = 0 ∧ (x &&& ~~~PTE_U) &&& PTE_P = x &&& PTE_P ∧
      PTE_ADDR (x &&& ~~~PTE_U) = PTE_ADDR x := by
  have hu : (~~~PTE_U &&& PTE_U : UInt32) = 0 := by decide
  have hp : (~~~PTE_U &&& PTE_P : UInt32) = PTE_P := by decide
  have ha : (~~~PTE_U &&& ~~~0xFFF : UInt32) = ~~~0xFFF := by decide
  refine ⟨?_, ?_, ?_⟩
  · rw [UInt32.and_assoc, hu, UInt32.and_zero]
  · rw [UInt32.and_assoc, hp]
  · unfold PTE_ADDR
    rw [UInt32.and_assoc, ha]

section Present

variable {vm : Vm} {d : UInt32}

theorem pdePresent_of_mapped {va : UInt32} (h : vm.mapped d va = true) : vm.pdePresent d (PDX va) = true :=
  (Bool.and_eq_true_iff.1 h).1

theorem uva2ka_present (ht : Tables vm d) {va : UInt32} (hp : vm.pdePresent d (PDX va) = true)
    (read0 : UInt32) :
    vm.uva2ka d va read0 =
      if Word.load vm.mem (vm.pteAddr d va) &&& PTE_P = 0 then 0
      else if Word.load vm.mem (vm.pteAddr d va) &&& PTE_U = 0 then 0 else vm.frame d va := by
  rw [uva2ka, walkpgdir_of_pdePresent hp]
  dsimp only
  rw [if_neg (pteAddr_ne_zero ht hp)]
  rfl

theorem clearpteu_present (ht : Tables vm d) {va : UInt32} (hp : vm.pdePresent d (PDX va) = true) :
    vm.clearpteu d va = .ok (vm.setPte d va (Word.load vm.mem (vm.pteAddr d va) &&& ~~~PTE_U)) := by
  rw [clearpteu, walkpgdir_of_pdePresent hp]
  dsimp only
  rw [if_neg (pteAddr_ne_zero ht hp)]
  rfl

theorem setPte_flags_mapped (htab : Tables vm d) {va w : UInt32} (hva : vm.pdePresent d (PDX va) = true)
    (hP : w &&& PTE_P = Word.load vm.mem (vm.pteAddr d va) &&& PTE_P)
    (hA : PTE_ADDR w = PTE_ADDR (Word.load vm.mem (vm.pteAddr d va))) (b : UInt32) :
    (vm.setPte d va w).mapped d b = vm.mapped d b ∧
      (vm.mapped d b = true → (vm.setPte d va w).frame d b = vm.frame d b) := by
  by_cases hb : b.toNat / 4096 = va.toNat / 4096
  · -- the rewritten PTE itself
    have hpa : vm.pteAddr d b = vm.pteAddr d va := pteAddr_eq_of_page hb
    have hpte : Word.load (vm.setPte d va w).mem (vm.pteAddr d b) = w := by
      rw [hpa]
      exact setPte_pte_self
    refine ⟨?_, fun _ => ?_⟩
    · rw [mapped, mapped, setPte_pdePresent htab hva (PDX_lt b), setPte_pteAddr htab hva, hpte, hP, hpa]
    · rw [frame, frame, setPte_pteAddr htab hva, hpte, hA, hpa]
  · exact setPte_mapped_of_page_ne htab hva hb

end Present

section Stack

variable {vm₀ vm : Vm} {d g : UInt32} {n : Nat}

theorem Img.setPte_flags (h₀ : FreeOk vm₀) (hi : Img vm₀ vm d n) {va w : UInt32}
    (hva : vm.pdePresent d (PDX va) = true) (hP : w &&& PTE_P = Word.load vm.mem (vm.pteAddr d va) &&& PTE_P)
    (hA : PTE_ADDR w = PTE_ADDR (Word.load vm.mem (vm.pteAddr d va))) : Img vm₀ (vm.setPte d va w) d n := by
  have htab := (hi.fresh.sound h₀).tables
  have hkeep := setPte_flags_mapped htab hva hP hA
  have howned : (vm.setPte d va w).owned d = vm.owned d := by
    rw [owned, owned, setPte_tables htab hva, frames, frames, freed, freed,
      Alloc.filter_map_congr fun b _ => hkeep b]
  refine ⟨⟨?_, hi.fresh.outside_trans ?_ setPte_outside, hi.fresh.kend, hi.fresh.kdata⟩, hi.le,
    fun b hb => (hkeep b).1.trans (hi.mapped b hb)⟩
  · rw [howned]
    exact hi.fresh.perm
  · intro x hx
    rw [List.mem_singleton.1 hx]
    exact hi.fresh.mem_of_owned (mem_owned_of_table (table_mem_tables (PDX_lt va) hva))

/-- `exec`'s image once `clearpteu` has run: the pages below `g + 2*PGSIZE`, the guard page at `g`
closed to user code and the stack page above it open to it. -/
structure Stack (vm₀ vm : Vm) (d g : UInt32) : Prop where
  img : Img vm₀ vm d (g.toNat / 4096 + 2)
  aligned : g.toNat % 4096 = 0
  guard : Word.load vm.mem (vm.pteAddr d g) &&& PTE_U = 0
  user : Word.load vm.mem (vm.pteAddr d (g + PGSIZE)) &&& PTE_U ≠ 0

theorem Img.top_pages (hi : Img vm₀ vm d (g.toNat / 4096 + 2)) (hal : g.toNat % 4096 = 0) :
    (g + PGSIZE).toNat = g.toNat + 4096 ∧ (g ∈ pagesIn 0 KERNBASE ∧ vm.mapped d g = true) ∧
      (g + PGSIZE ∈ pagesIn 0 KERNBASE ∧ vm.mapped d (g + PGSIZE) = true) := by
  have hn := hi.le
  have h4 : (g + PGSIZE).toNat = g.toNat + 4096 := toNat_add_PGSIZE (by omega)
  exact ⟨h4, hi.mapped_of_lt hal (by omega), hi.mapped_of_lt (by omega) (by omega)⟩

/-- `clearpteu` of the lower of two zeroed user pages at the top of the image closes it to user
code and leaves the stack page above it open. -/
theorem Img.clearpteu (h₀ : FreeOk vm₀) (hi : Img vm₀ vm d (g.toNat / 4096 + 2)) (hal : g.toNat % 4096 = 0)
    (hz : UserZero vm d (g.toNat / 4096) (g.toNat / 4096 + 2)) :
    ∃ vm', vm.clearpteu d g = .ok vm' ∧ Stack vm₀ vm' d g := by
  obtain ⟨h4, ⟨-, hgm⟩, hsu, hsm⟩ := hi.top_pages hal
  have htab := (hi.fresh.sound h₀).tables
  have hpd := pdePresent_of_mapped hgm
  obtain ⟨hU, hP, hA⟩ := and_not_PTE_U (Word.load vm.mem (vm.pteAddr d g))
  refine ⟨_, clearpteu_present htab hpd, hi.setPte_flags h₀ hpd hP hA, hal, ?_, ?_⟩
  · rw [setPte_pteAddr htab hpd, setPte_pte_self]
    exact hU
  · -- the stack page's PTE is another word, still open to user code
    have hne : (g + PGSIZE).toNat / 4096 ≠ g.toNat / 4096 := by omega
    rw [setPte_pteAddr htab hpd, setPte_pte_of_page_ne htab hpd hne (pdePresent_of_mapped hsm)]
    exact (hz _ hsu (by omega) (by omega)).1

theorem Stack.toNat_stack (hs : Stack vm₀ vm d g) : (g + PGSIZE).toNat = g.toNat + 4096 :=
  (hs.img.top_pages hs.aligned).1

theorem Stack.pages (hs : Stack vm₀ vm d g) :
    (g ∈ pagesIn 0 KERNBASE ∧ vm.mapped d g = true) ∧
      (g + PGSIZE ∈ pagesIn 0 KERNBASE ∧ vm.mapped d (g + PGSIZE) = true) :=
  (hs.img.top_pages hs.aligned).2

theorem Stack.uva2ka_guard (h₀ : FreeOk vm₀) (hs : Stack vm₀ vm d g) (read0 : UInt32) :
    vm.uva2ka d g read0 = 0 := by
  rw [uva2ka_present (hs.img.fresh.sound h₀).tables (pdePresent_of_mapped hs.pages.1.2)]
  simp [hs.guard]

theorem Stack.uva2ka_stack (h₀ : FreeOk vm₀) (hs : Stack vm₀ vm d g) (read0 : UInt32) :
    vm.uva2ka d (g + PGSIZE) read0 = vm.frame d (g + PGSIZE) := by
  obtain ⟨hpd, hpte⟩ := Bool.and_eq_true_iff.1 hs.pages.2.2
  rw [uva2ka_present (hs.img.fresh.sound h₀).tables hpd, if_neg (bne_iff_ne.1 hpte), if_neg hs.user]

theorem Stack.frame_stack (h₀ : FreeOk vm₀) (hs : Stack vm₀ vm d g) :
    (vm.frame d (g + PGSIZE)).toNat % 4096 = 0 ∧ vm.frame d (g + PGSIZE) ≠ 0 := by
  have hf : vm.frame d (g + PGSIZE) ∈ vm.frames d :=
    List.mem_map.2 ⟨_, List.mem_filter.2 ⟨hs.pages.2.1, hs.pages.2.2⟩, rfl⟩
  have hsound := hs.img.fresh.sound h₀
  exact ⟨toNat_P2V_PTE_ADDR_mod _, (hsound.page _ (mem_owned_of_frame hf)).ne_zero hsound.kend⟩

theorem Stack.write (h₀ : FreeOk vm₀) (hs : Stack vm₀ vm d g) {vm' : Vm}
    (hout : Word.Outside [vm.frame d (g + PGSIZE)] vm.mem vm'.mem) (hfl : vm'.freelist = vm.freelist)
    (hk : vm'.kend = vm.kend) (hkd : vm'.kdata = vm.kdata) : Stack vm₀ vm' d g := by
  obtain ⟨hi', happ⟩ := hs.img.write_frame h₀ hs.pages.2.1 hs.pages.2.2 hout hfl hk hkd
  have hpte : ∀ {va : UInt32}, vm.mapped d va = true →
      Word.load vm'.mem (vm'.pteAddr d va) = Word.load vm.mem (vm.pteAddr d va) := fun hm => by
    rw [happ.pteAddr, happ.pte (pdePresent_of_mapped hm)]
  refine ⟨hi', hs.aligned, ?_, ?_⟩
  · rw [hpte hs.pages.1.2]
    exact hs.guard
  · rw [hpte hs.pages.2.2]
    exact hs.user

theorem copyoutLoop_nil (read0 : UInt32) (k : Nat) (va : UInt32) (vm : Vm) :
    copyoutLoop d read0 k va [] vm = (0, vm) := by
  cases k <;> simp [copyoutLoop]

/-- `copyout` of a buffer that ends inside the stack page and starts above the guard page's start:
from the guard page it fails before writing anything; from the stack page it copies the whole
buffer there. -/
theorem Stack.copyout (h₀ : FreeOk vm₀) (hs : Stack vm₀ vm d g) (read0 va : UInt32) (buf : List UInt8)
    (hb : buf ≠ []) (hlo : g.toNat ≤ va.toNat) (hhi : va.toNat + buf.length ≤ g.toNat + 8192) :
    ∃ r vm', vm.copyout d va buf read0 = (r, vm') ∧ Stack vm₀ vm' d g ∧
      (r = -1 ∧ va.toNat < g.toNat + 4096 ∨ r = 0 ∧ g.toNat + 4096 ≤ va.toNat) := by
  have h4 := hs.toNat_stack
  have hal := hs.aligned
  have hva32 := va.toNat_lt
  obtain ⟨k, hk⟩ : ∃ k, buf.length = k + 1 := ⟨buf.length - 1, by have := List.length_pos_iff.2 hb; omega⟩
  rw [Vm.copyout, hk]
  by_cases hva : va.toNat < g.toNat + 4096
  · -- `copyout` starts in the guard page, which `uva2ka` refuses
    have hdown : PGROUNDDOWN va = g := UInt32.toNat_inj.1 (by rw [toNat_PGROUNDDOWN]; omega)
    exact ⟨-1, vm, copyoutLoop_fail hb (by rw [hdown]; exact hs.uva2ka_guard h₀ read0), hs, Or.inl ⟨rfl, hva⟩⟩
  · -- all of it lands in the stack page
    have hdown : PGROUNDDOWN va = g + PGSIZE := UInt32.toNat_inj.1 (by rw [toNat_PGROUNDDOWN, h4]; omega)
    obtain ⟨hfa, hf0⟩ := hs.frame_stack h₀
    have hoff : (va - (g + PGSIZE)).toNat = va.toNat - (g.toNat + 4096) := by
      rw [UInt32.toNat_sub, h4]
      omega
    have hn : min (PGSIZE - (va - (g + PGSIZE))).toNat buf.length = buf.length := by
      have hrest : (PGSIZE - (va - (g + PGSIZE))).toNat = 4096 - (va.toNat - (g.toNat + 4096)) := by
        rw [UInt32.toNat_sub, hoff]
        simp only [PGSIZE, UInt32.reduceToNat]
        omega
      omega
    rw [copyoutLoop_page hb (by rw [hdown, hs.uva2ka_stack h₀ read0]; exact hf0), hdown,
      hs.uva2ka_stack h₀ read0, hn, List.drop_length, List.take_length, copyoutLoop_nil]
    refine ⟨0, _, rfl, hs.write h₀ ?_ rfl rfl rfl, Or.inr ⟨rfl, by omega⟩⟩
    exact Word.Outside.copy List.mem_cons_self hfa (by rw [hoff]; omega)

/-- The new `sp` of a string of at most 4092 bytes pushed from `sp`: at most 4096 bytes down, on a
word boundary. -/
theorem toNat_push (sp : UInt32) {s : List UInt8} (hs : s.length ≤ 4092) (hsp : s.length + 1 ≤ sp.toNat) :
    ((sp - (s.length.toUInt32 + 1)) &&& ~~~3).toNat = (sp.toNat - (s.length + 1)) / 4 * 4 := by
  have hl : (s.length.toUInt32 + 1).toNat = s.length + 1 := by
    rw [UInt32.toNat_add, Nat.toUInt32_eq, UInt32.toNat_ofNat_of_lt' (lt_of_le_of_lt hs (by decide))]
    simp only [UInt32.reduceToNat]
    omega
  rw [Word.toNat_and_not _ 3 2 (by decide) (by decide) (by decide), UInt32.toNat_sub, hl]
  have := sp.toNat_lt
  omega

/-- `exec`'s loop over the arguments, from a stack pointer inside the stack page or at its top, with
strings of at most 4092 bytes, keeps the stack: each string lands in the stack page or its
`copyout` fails in the guard page, and the final `sp` is again in the stack page or at its top.
The induction is on the strings left. -/
theorem execArgs_stack (h₀ : FreeOk vm₀) (read0 : UInt32) :
    ∀ (argv : List (List UInt8)) (argc : Nat) (sp : UInt32) (vm : Vm), Stack vm₀ vm d g →
      (∀ s ∈ argv, s.length ≤ 4092) → g.toNat + 4096 ≤ sp.toNat → sp.toNat ≤ g.toNat + 8192 →
      ∃ r vm', execArgs d read0 argv argc sp vm = (r, vm') ∧ Stack vm₀ vm' d g ∧
        ∀ sp' us, r = some (sp', us) → g.toNat + 4096 ≤ sp'.toNat ∧ sp'.toNat ≤ g.toNat + 8192
  | [], _, sp, vm, hs, _, hlo, hhi => ⟨_, vm, rfl, hs, fun _ _ h => by cases h; exact ⟨hlo, hhi⟩⟩
  | s :: rest, argc, sp, vm, hs, hlen, hlo, hhi => by
    rw [execArgs]
    by_cases hmax : argc ≥ MAXARG
    · exact ⟨none, vm, by rw [if_pos hmax], hs, fun _ _ h => by cases h⟩
    rw [if_neg hmax]
    dsimp only
    have hs4 := hlen s List.mem_cons_self
    have hsp := toNat_push sp hs4 (by omega)
    generalize (sp - (s.length.toUInt32 + 1)) &&& ~~~3 = sp₁ at hsp ⊢
    have hbuf : (s ++ [0]).length = s.length + 1 := by simp
    obtain ⟨r, vm₁, hcopy, hs₁, hr⟩ :=
      hs.copyout h₀ read0 sp₁ (s ++ [0]) (by simp) (by omega) (by rw [hbuf]; omega)
    rw [hcopy]
    dsimp only
    rcases hr with ⟨rfl, -⟩ | ⟨rfl, hlo₁⟩
    · exact ⟨none, vm₁, by rw [if_pos (by decide)], hs₁, fun _ _ h => by cases h⟩
    · obtain ⟨r', vm₂, hrun, hs₂, hr'⟩ := execArgs_stack h₀ read0 rest (argc + 1) sp₁ vm₁ hs₁
        (fun t ht => hlen t (List.mem_cons_of_mem _ ht)) hlo₁ (by omega)
      rw [if_neg (by decide), hrun]
      rcases r' with _ | ⟨sp', us⟩
      · exact ⟨none, vm₂, rfl, hs₂, fun _ _ h => by cases h⟩
      · exact ⟨some (sp', sp₁ :: us), vm₂, rfl, hs₂, fun _ _ h => by cases h; exact hr' sp' us rfl⟩

/-- `exec` after the segments, over an image of the pages below `sz`, with strings of at most 4092
bytes: `execStack` never panics and keeps the directory built of free pages; when it gives a stack
pointer, the guard page at `PGROUNDUP(sz)` is closed to user code and `sp` lies in the stack page
above it or at its top. -/
theorem Img.execStack (h₀ : FreeOk vm₀) {sz : UInt32} (hi : Img vm₀ vm d ((sz.toNat + 4095) / 4096))
    (read0 : UInt32) {argv : List (List UInt8)} (hargs : ∀ s ∈ argv, s.length ≤ 4092) :
    ∃ r vm', vm.execStack d sz read0 argv = .ok (r, vm') ∧ Fresh vm₀ vm' d [] ∧
      ∀ sp us, r = some (sp, us) → Stack vm₀ vm' d (PGROUNDUP sz) ∧
        (PGROUNDUP sz).toNat + 4096 ≤ sp.toNat ∧ sp.toNat ≤ (PGROUNDUP sz).toNat + 8192 := by
  have hn := hi.le
  have hsz : sz ≤ KERNBASE := by
    rw [UInt32.le_iff_toNat_le]
    simp only [KERNBASE, UInt32.reduceToNat]
    omega
  have hg := toNat_PGROUNDUP_of_le hsz
  unfold Vm.execStack
  generalize PGROUNDUP sz = g at hg ⊢
  have hal : g.toNat % 4096 = 0 := by omega
  have hi' : Img vm₀ vm d ((g.toNat + 4095) / 4096) := by
    have he : (g.toNat + 4095) / 4096 = (sz.toNat + 4095) / 4096 := by omega
    rw [he]
    exact hi
  have hnew : (g + 2 * PGSIZE).toNat = g.toNat + 8192 := by
    simp only [UInt32.toNat_add, UInt32.toNat_mul, PGSIZE, UInt32.reduceToNat]
    omega
  obtain ⟨r, vm₁, hrun, hcase⟩ := hi'.allocuvm h₀ (g + 2 * PGSIZE)
  dsimp only
  rw [hrun, Except.ok_bind]
  dsimp only
  rcases hcase with ⟨rfl, hi₁⟩ | ⟨-, -, rfl, hi₁, hz⟩ | ⟨hlt, -, -⟩
  · exact ⟨none, vm₁, by rw [if_pos rfl]; rfl, hi₁.fresh, fun _ _ h => by cases h⟩
  · -- the two pages are there: close the lower one, push the strings from the top
    have hne : g + 2 * PGSIZE ≠ 0 := fun h => by
      have h0 := congrArg UInt32.toNat h
      rw [hnew, UInt32.toNat_zero] at h0
      omega
    rw [if_neg hne, UInt32.add_sub_cancel]
    have he : ((g + 2 * PGSIZE).toNat + 4095) / 4096 = g.toNat / 4096 + 2 := by
      rw [hnew]
      omega
    have hs' : (g.toNat + 4095) / 4096 = g.toNat / 4096 := by omega
    rw [he] at hi₁ hz
    rw [hs'] at hz
    obtain ⟨vm₂, hclear, hs⟩ := hi₁.clearpteu h₀ hal hz
    rw [hclear, Except.ok_bind]
    obtain ⟨r', vm₃, hrun', hs₃, hb⟩ :=
      execArgs_stack h₀ read0 argv 0 (g + 2 * PGSIZE) vm₂ hs hargs (by omega) (by omega)
    rw [hrun']
    exact ⟨r', vm₃, rfl, hs₃.img.fresh, fun sp us h => ⟨hs₃, hb sp us h⟩⟩
  · exact absurd (UInt32.lt_iff_toNat_lt.1 hlt) (by omega)

theorem execStack_boot :
    ∃ vm₁ d vm₂, bootVm.freerange bootVm.kend (P2V 0x400000) = .ok vm₁ ∧ vm₁.setupkvm = .ok (d, vm₂) ∧
      FreeOk vm₁ ∧ Img vm₁ vm₂ d 0 ∧ ∃ r vm', vm₂.execStack d 0 0 [[104, 105]] = .ok (r, vm') :=
  have ⟨vm₁, d, vm₂, h₁, h₂, hok, hi⟩ := boot_img
  have ⟨r, vm', hrun, _⟩ := @Img.execStack vm₁ vm₂ d hok 0 hi 0 [[104, 105]] fun s hs => by
    rw [List.mem_singleton.1 hs]
    decide
  ⟨vm₁, d, vm₂, h₁, h₂, hok, hi, r, vm', hrun⟩

end Stack

end Vm

end Xv6
