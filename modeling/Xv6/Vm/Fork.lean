import Xv6.Vm.Copy

/-!
# The memory side of `fork` (`allocproc`'s kernel stack, `copyuvm`, the child's trap frame)

`allocproc` takes a page for the new process's kernel stack and lays out its top the way `swtch`
and `trapret` expect: room for the trap frame, below it the return address `trapret`, below that
a zeroed context whose `eip` is `forkret`. `fork` then copies the parent's address space with
`copyuvm`, and on failure gives the stack back (`kfree(np->kstack)`). On success it copies the
parent's trap frame into the child's and clears its `eax`, so that `fork` returns 0 in the child.

Either way no page is lost and the parent's memory is untouched: every byte outside the pages
that were free keeps its value (`fork_mem`). The process-table half of `allocproc` and `fork` is
`Ptable.allocproc` and `Ptable.fork`, whose `kstackOk` and `copyOk` are the two tests made here.
-/

namespace Xv6

/-- `KSTACKSIZE` (`param.h`). -/
def KSTACKSIZE : UInt32 := 4096

/-- `sizeof(struct trapframe)` (`x86.h`): the registers `pusha` saves, the segment registers with
their padding, `trapno`, and what the hardware pushes. -/
def sizeofTrapframe : UInt32 := 76

/-- `sizeof(struct context)` (`proc.h`): `edi`, `esi`, `ebx`, `ebp`, `eip`. -/
def sizeofContext : UInt32 := 20

/-- The offset of `eax` in `struct trapframe`, after `edi`, `esi`, `ebp`, `oesp`, `ebx`, `edx`
and `ecx`. -/
def trapframeEax : UInt32 := 28

/-- The offset of `eip` in `struct context`. -/
def contextEip : UInt32 := 16

namespace Vm

/-- The kernel-stack half of `allocproc()`: a page from `kalloc`, or 0; at its top room for the
trap frame (`p->tf`), below it the return address `trapret`, below that a zeroed context whose
`eip` is `forkret`. -/
def allocprocKstack (vm : Vm) (trapret forkret : UInt32) : UInt32 × Vm :=
  let r := vm.kalloc
  if r.1 = 0 then (0, r.2)
  else
    let sp := r.1 + KSTACKSIZE - sizeofTrapframe - 4
    let mem := Word.store r.2.mem sp trapret
    let sp := sp - sizeofContext
    let mem := Word.fill mem sp sizeofContext.toNat 0
    (r.1, { r.2 with mem := Word.store mem (sp + contextEip) forkret })

/-- The memory half of `fork()` once `allocproc` has found a slot, for a parent with directory
`pgdir`, size `sz` and trap frame at `ptf`: the child's kernel stack and directory, or `none`. -/
def forkMem (vm : Vm) (pgdir sz ptf trapret forkret : UInt32) :
    Except String (Option (UInt32 × UInt32) × Vm) := do
  let (kstack, vm) := vm.allocprocKstack trapret forkret
  if kstack = 0 then pure (none, vm)
  else
    let (d, vm) ← vm.copyuvm pgdir sz
    if d = 0 then do
      -- `kfree(np->kstack)`
      let vm ← vm.kfree kstack
      pure (none, vm)
    else
      -- `*np->tf = *curproc->tf; np->tf->eax = 0`
      let tf := kstack + KSTACKSIZE - sizeofTrapframe
      let mem := Word.copy vm.mem tf (Word.bytes vm.mem ptf sizeofTrapframe.toNat)
      pure (some (kstack, d), { vm with mem := Word.store mem (tf + trapframeEax) 0 })

/-! ### The kernel stack's top -/

section Kstack

variable {q : UInt32}

theorem toNat_add_of_aligned (hq : q.toNat % 4096 = 0) {c : UInt32} (hc : c.toNat < 4096) :
    (q + c).toNat = q.toNat + c.toNat := by
  rw [UInt32.toNat_add]
  have := q.toNat_lt
  omega

theorem word_of_aligned (hq : q.toNat % 4096 = 0) {c : UInt32} (hc : c.toNat < 4096) (h4 : c.toNat % 4 = 0) :
    (q + c).toNat % 4 = 0 := by
  rw [toNat_add_of_aligned hq hc]
  omega

/-- The words below the trap frame as `allocproc` writes them: the return address at `4016`, the
context from `3996`, its `eip` at `4012`. -/
theorem kstack_words (hq : q.toNat % 4096 = 0) (m : UInt32 → UInt8) (trapret forkret : UInt32) :
    Word.load (Word.store (Word.fill (Word.store m (q + 4016) trapret) (q + 3996) 20 0) (q + 4012) forkret)
        (q + 4016) = trapret ∧
      (∀ i : UInt32, i < 4 → Word.load (Word.store (Word.fill (Word.store m (q + 4016) trapret)
        (q + 3996) 20 0) (q + 4012) forkret) (q + 3996 + 4 * i) = 0) ∧
      Word.load (Word.store (Word.fill (Word.store m (q + 4016) trapret) (q + 3996) 20 0) (q + 4012) forkret)
        (q + 4012) = forkret := by
  have h4012 := word_of_aligned hq (show (4012 : UInt32).toNat < 4096 by decide) (by decide)
  have h4016 := word_of_aligned hq (show (4016 : UInt32).toNat < 4096 by decide) (by decide)
  have hq' := q.toNat_lt
  refine ⟨?_, fun i hi => ?_, Word.load_store_self _ _⟩
  · -- the context's fill ends where the return address starts
    rw [Word.load_store_of_ne h4012 h4016 (fun he => by
        have := congrArg UInt32.toNat he
        rw [toNat_add_of_aligned hq (by decide), toNat_add_of_aligned hq (by decide)] at this
        simp only [UInt32.reduceToNat] at this
        omega),
      Word.load_fill_of_apart fun j hj => by
        rw [show q + 4016 + j - (q + 3996) = 20 + j by grind, UInt32.toNat_add]
        have : j.toNat < 4 := hj
        simp only [UInt32.reduceToNat]
        omega,
      Word.load_store_self]
  · have hi' : i.toNat < 4 := hi
    have hoff : (3996 + 4 * i).toNat = 3996 + 4 * i.toNat := by
      rw [UInt32.toNat_add, UInt32.toNat_mul]
      simp only [UInt32.reduceToNat]
      omega
    have hword : (q + 3996 + 4 * i).toNat = q.toNat + 3996 + 4 * i.toNat := by
      rw [UInt32.add_assoc, toNat_add_of_aligned hq (by omega), hoff, Nat.add_assoc]
    rw [Word.load_store_of_ne h4012 (by omega) (fun he => by
        have := congrArg UInt32.toNat he
        rw [toNat_add_of_aligned hq (by decide), hword] at this
        simp only [UInt32.reduceToNat] at this
        omega),
      Word.load_fill_zero fun j hj => by
        rw [show q + 3996 + 4 * i + j - (q + 3996) = 4 * i + j by grind, UInt32.toNat_add, UInt32.toNat_mul]
        have : j.toNat < 4 := hj
        simp only [UInt32.reduceToNat]
        omega]

theorem kstack_offsets :
    q + KSTACKSIZE - sizeofTrapframe = q + 4020 ∧ q + 4020 - 4 = q + 4016 ∧
      q + 4016 - sizeofContext = q + 3996 ∧ q + 3996 + contextEip = q + 4012 ∧
      q + 4020 + trapframeEax = q + 4048 := by
  simp only [KSTACKSIZE, sizeofTrapframe, sizeofContext, contextEip, trapframeEax]
  refine ⟨?_, ?_, ?_, ?_, ?_⟩ <;> grind

theorem load_below_tf (hq : q.toNat % 4096 = 0) {c : UInt32} (hc : c.toNat + 4 ≤ 4020) (h4 : c.toNat % 4 = 0)
    (m : UInt32 → UInt8) {bs : List UInt8} (hbs : bs.length = 76) (w : UInt32) :
    Word.load (Word.store (Word.copy m (q + 4020) bs) (q + 4048) w) (q + c) = Word.load m (q + c) := by
  have hc' : (q + c).toNat = q.toNat + c.toNat := toNat_add_of_aligned hq (by omega)
  rw [Word.load_store_of_ne (word_of_aligned hq (by decide) (by decide)) (by rw [hc']; omega) (fun he => by
      have := congrArg UInt32.toNat he
      rw [toNat_add_of_aligned hq (by decide), hc'] at this
      simp only [UInt32.reduceToNat] at this
      omega)]
  refine Word.load_congr fun j hj => Word.copy_apply_of_le ?_
  have hj' : j.toNat < 4 := hj
  rw [hbs, show q + c + j - (q + 4020) = c + j - 4020 by grind, UInt32.toNat_sub, UInt32.toNat_add]
  simp only [UInt32.reduceToNat]
  omega

theorem tf_bytes (m : UInt32 → UInt8) (ptf : UInt32) :
    Word.load (Word.store (Word.copy m (q + 4020) (Word.bytes m ptf 76)) (q + 4048) 0) (q + 4048) = 0 ∧
      ∀ j < 76, (j < 28 ∨ 32 ≤ j) →
        Word.store (Word.copy m (q + 4020) (Word.bytes m ptf 76)) (q + 4048) 0 (q + 4020 + j.toUInt32) =
          m (ptf + j.toUInt32) := by
  refine ⟨Word.load_store_self _ _, fun j hj hout => ?_⟩
  have hjt : j.toUInt32.toNat = j := by
    rw [Nat.toUInt32_eq, UInt32.toNat_ofNat_of_lt' (show j < 4294967296 by omega)]
  rw [Word.store_apply_of_le ?_, Word.copy_apply_of_lt ?_]
  · simp only [show q + 4020 + j.toUInt32 - (q + 4020) = j.toUInt32 by grind, hjt, Word.bytes,
      List.getElem_map, List.getElem_range]
  · rw [show q + 4020 + j.toUInt32 - (q + 4020) = j.toUInt32 by grind, hjt, Word.length_bytes]
    exact hj
  · rw [show q + 4020 + j.toUInt32 - (q + 4048) = j.toUInt32 - 28 by grind, UInt32.toNat_sub, hjt]
    simp only [UInt32.reduceToNat]
    omega

theorem page_add {a c : UInt32} (h : a.toNat % 4096 + c.toNat < 4096) : (a + c).toNat / 4096 = a.toNat / 4096 := by
  rw [UInt32.toNat_add]
  have := a.toNat_lt
  omega

theorem kstack_outside (hq : q.toNat % 4096 = 0) (m : UInt32 → UInt8) (trapret forkret : UInt32) :
    Word.Outside [q] m
      (Word.store (Word.fill (Word.store m (q + 4016) trapret) (q + 3996) 20 0) (q + 4012) forkret) :=
  ((Word.Outside.store List.mem_cons_self (word_of_aligned hq (by decide) (by decide))
      (page_add (by rw [hq]; decide))).trans (.fill_off List.mem_cons_self hq (by decide))
      (List.Subset.refl _)).trans
    (.store List.mem_cons_self (word_of_aligned hq (by decide) (by decide)) (page_add (by rw [hq]; decide)))
    (List.Subset.refl _)

theorem tf_outside (hq : q.toNat % 4096 = 0) (m : UInt32 → UInt8) {bs : List UInt8} (hbs : bs.length = 76) :
    Word.Outside [q] m (Word.store (Word.copy m (q + 4020) bs) (q + 4048) 0) :=
  (Word.Outside.copy List.mem_cons_self hq (by rw [hbs]; decide)).trans
    (.store List.mem_cons_self (word_of_aligned hq (by decide) (by decide)) (page_add (by rw [hq]; decide)))
    (List.Subset.refl _)

/-- A word of the stack below the trap frame, once `copyuvm` has written only in other pages and
`fork` has written the trap frame, is the word `allocproc` left there. -/
theorem load_kstack_after {m₁ m₂ : UInt32 → UInt8} {rest : List UInt32} (hq : q.toNat % 4096 = 0)
    (hout : Word.Outside rest m₁ m₂) (hrest : ∀ r ∈ rest, r.toNat % 4096 = 0 ∧ r ≠ q) {c : UInt32}
    (hc : c.toNat + 4 ≤ 4020) (h4 : c.toNat % 4 = 0) {bs : List UInt8} (hbs : bs.length = 76) :
    Word.load (Word.store (Word.copy m₂ (q + 4020) bs) (q + 4048) 0) (q + c) = Word.load m₁ (q + c) := by
  rw [load_below_tf hq hc h4 _ hbs]
  refine hout.load (word_of_aligned hq (by omega) h4) fun r hr => ?_
  rw [page_add (by omega)]
  exact page_ne hq (hrest r hr).1 (hrest r hr).2.symm

end Kstack

/-! ### `allocproc`'s stack and the parent -/

section Fork

variable {vm₀ vm₁ : Vm} {pgdir sz trapret forkret q : UInt32} {rest : List UInt32}

theorem allocprocKstack_nil (hfl : vm₀.freelist = []) : vm₀.allocprocKstack trapret forkret = (0, vm₀) := by
  rw [allocprocKstack, kalloc_nil hfl]
  rfl

theorem allocprocKstack_cons (hfl : vm₀.freelist = q :: rest) (hq : q ≠ 0) :
    vm₀.allocprocKstack trapret forkret = (q, { vm₀ with
      mem := Word.store (Word.fill (Word.store vm₀.mem (q + 4016) trapret) (q + 3996) 20 0) (q + 4012) forkret
      freelist := rest }) := by
  obtain ⟨e₀, e₁, e₂, e₃, -⟩ := kstack_offsets (q := q)
  rw [allocprocKstack, kalloc_cons hfl]
  dsimp only
  rw [if_neg hq, e₀, e₁, e₂, e₃]
  rfl

/-- Writes inside a free page `q` that the allocator has taken leave the parent a parent, and the
rest of the free list sound. -/
theorem Parent.of_taken (hp : Parent vm₀ pgdir sz) (h₀ : FreeOk vm₀) (hfl : vm₀.freelist = q :: rest)
    (hfl₁ : vm₁.freelist = rest) (hm : Word.Outside [q] vm₀.mem vm₁.mem) (hk : vm₁.kend = vm₀.kend) :
    Parent vm₁ pgdir sz ∧ Apart vm₀ vm₁ pgdir [q] ∧ FreeOk vm₁ := by
  have hqf : q ∈ vm₀.freelist := by rw [hfl]; exact List.mem_cons_self
  have hrest : ∀ r ∈ rest, r ∈ vm₀.freelist := fun r hr => by rw [hfl]; exact List.mem_cons_of_mem _ hr
  have happ : Apart vm₀ vm₁ pgdir [q] := ⟨hm, (hp.sound.page pgdir List.mem_cons_self).aligned, fun q' hq' => by
    rw [List.mem_singleton.1 hq']
    exact ⟨(h₀.page q hqf).aligned, fun he => hp.notFree pgdir List.mem_cons_self (he ▸ hqf),
      fun ht => hp.notFree q (mem_owned_of_table ht) hqf⟩⟩
  have hpage : ∀ q' ∈ vm₀.owned pgdir, PageOk vm₁ q' := fun q' hq' =>
    have h := hp.sound.page q' hq'
    ⟨h.aligned, hk ▸ h.kend, h.phys⟩
  refine ⟨⟨⟨?_, fun q' hq' => hpage q' (happ.owned ▸ hq'), hk ▸ hp.sound.kend⟩, fun q' hq' hr => ?_,
    hp.small, fun va hva => (happ.mapped va).trans (hp.present va hva)⟩, happ, ⟨?_, fun r hr => ?_, hk ▸ h₀.kend⟩⟩
  · rw [happ.owned]
    exact hp.sound.nodup
  · rw [happ.owned] at hq'
    exact hp.notFree q' hq' (hrest q' (hfl₁ ▸ hr))
  · have hn := h₀.nodup
    rw [hfl] at hn
    rw [hfl₁]
    exact (List.nodup_cons.1 hn).2
  · have h := h₀.page r (hrest r (hfl₁ ▸ hr))
    exact ⟨h.aligned, hk ▸ h.kend, h.phys⟩

/-- Writes inside pages that were not free when the copy started leave the child's directory and
its copy of the parent as they were. -/
theorem Copied.apart {vm₂ vm₃ : Vm} {d i : UInt32} {qs : List UInt32} (hc : Copied vm₁ vm₂ pgdir d i)
    (h₁ : FreeOk vm₁) (hi : i ≤ KERNBASE) (hm : Word.Outside qs vm₂.mem vm₃.mem)
    (hqs : ∀ q ∈ qs, q.toNat % 4096 = 0 ∧ q ∉ vm₁.freelist) :
    Apart vm₂ vm₃ d qs ∧ ∀ va ∈ pagesIn 0 i, vm₃.mapped d va = true ∧
      PTE_FLAGS (Word.load vm₃.mem (vm₃.pteAddr d va)) = PTE_FLAGS (Word.load vm₁.mem (vm₁.pteAddr pgdir va)) ∧
      Word.bytes vm₃.mem (vm₃.frame d va) 4096 = Word.bytes vm₁.mem (vm₁.frame pgdir va) 4096 := by
  have hs := hc.fresh.sound h₁
  -- the child's pages all came from the free list, so none of them is written
  have hown : ∀ x ∈ vm₂.owned d, x ∈ vm₁.freelist := fun x hx => hc.fresh.mem_of_owned hx
  have happ : Apart vm₂ vm₃ d qs := ⟨hm, (hs.page d List.mem_cons_self).aligned, fun q hq =>
    ⟨(hqs q hq).1, fun he => (hqs q hq).2 (he ▸ hown d List.mem_cons_self),
      fun ht => (hqs q hq).2 (hown q (mem_owned_of_table ht))⟩⟩
  refine ⟨happ, fun va hva => ?_⟩
  obtain ⟨hmv, hflags, hbytes⟩ := hc.copied va hva
  have hpres : vm₂.pdePresent d (PDX va) = true := (Bool.and_eq_true_iff.1 hmv).1
  have hf : vm₂.frame d va ∈ vm₂.frames d :=
    List.mem_map.2 ⟨va, List.mem_filter.2 ⟨pagesIn_subset (UInt32.le_iff_toNat_le.1 hi) va hva, hmv⟩, rfl⟩
  have hfal := (hs.page _ (mem_owned_of_frame hf)).aligned
  have hff := hown _ (mem_owned_of_frame hf)
  refine ⟨(happ.mapped va).trans hmv, ?_, ?_⟩
  · rw [happ.pteAddr, happ.pte hpres, hflags]
  · rw [happ.frame hpres, bytes_of_outside hm hfal fun q hq =>
      page_ne hfal (hqs q hq).1 fun he => (hqs q hq).2 (he ▸ hff), hbytes]

/-- `fork`'s memory half never panics, for a parent whose user pages below `sz` are present and
whose trap frame lies inside one page that is not free. Memory changes only inside pages that were
free. Either it gives up, which it does only when the free list held at most `NPDENTRIES + 2` pages
more than there are pages below `sz`, the free list a permutation of the old one; or the child gets a kernel
stack and a directory, which with the pages left free make up the old free list, each page once.
The stack holds `trapret`, a zeroed context whose `eip` is `forkret`, and the parent's trap frame
with `eax` cleared; the directory maps every page below `sz`, with the parent's flags, to a copy of
the parent's page, and no other user page. -/
theorem fork_mem {ptf : UInt32} (hp : Parent vm₀ pgdir sz) (h₀ : FreeOk vm₀)
    (hdata : KERNLINK < vm₀.kdata ∧ vm₀.kdata < P2V PHYSTOP) (hal : vm₀.kdata.toNat % 4096 = 0)
    (hptf : ptf.toNat % 4096 + 76 ≤ 4096) (hpf : ∀ q ∈ vm₀.freelist, ptf.toNat / 4096 ≠ q.toNat / 4096) :
    ∃ r vm', vm₀.forkMem pgdir sz ptf trapret forkret = .ok (r, vm') ∧
      Word.Outside vm₀.freelist vm₀.mem vm'.mem ∧
      ((r = none ∧ vm₀.freelist.length ≤ NPDENTRIES + 2 + (pagesIn 0 sz).length ∧
          vm'.freelist.Perm vm₀.freelist) ∨
       ∃ kstack d, r = some (kstack, d) ∧ d ≠ 0 ∧
        (kstack :: (vm'.owned d ++ vm'.freelist)).Perm vm₀.freelist ∧
        Word.load vm'.mem (kstack + KSTACKSIZE - sizeofTrapframe - 4) = trapret ∧
        (∀ i : UInt32, i < 4 →
          Word.load vm'.mem (kstack + KSTACKSIZE - sizeofTrapframe - 4 - sizeofContext + 4 * i) = 0) ∧
        Word.load vm'.mem (kstack + KSTACKSIZE - sizeofTrapframe - 4 - sizeofContext + contextEip) = forkret ∧
        Word.load vm'.mem (kstack + KSTACKSIZE - sizeofTrapframe + trapframeEax) = 0 ∧
        (∀ j < 76, (j < 28 ∨ 32 ≤ j) →
          vm'.mem (kstack + KSTACKSIZE - sizeofTrapframe + j.toUInt32) = vm₀.mem (ptf + j.toUInt32)) ∧
        (∀ va ∈ pagesIn 0 sz, vm'.mapped d va = true ∧
          PTE_FLAGS (Word.load vm'.mem (vm'.pteAddr d va)) = PTE_FLAGS (Word.load vm₀.mem (vm₀.pteAddr pgdir va)) ∧
          Word.bytes vm'.mem (vm'.frame d va) 4096 = Word.bytes vm₀.mem (vm₀.frame pgdir va) 4096) ∧
        ∀ va ∈ pagesIn (PGROUNDUP sz) KERNBASE, vm'.mapped d va = false) := by
  cases hfl : vm₀.freelist with
  | nil =>
    -- no page for the stack: `allocproc` fails
    refine ⟨none, vm₀, ?_, .refl _ _, Or.inl ⟨rfl, Nat.zero_le _, by rw [hfl]⟩⟩
    rw [forkMem, allocprocKstack_nil hfl]
    rfl
  | cons q rest =>
    have hqf : q ∈ vm₀.freelist := by rw [hfl]; exact List.mem_cons_self
    have hq := h₀.page q hqf
    have hq0 := hq.ne_zero h₀.kend
    have hrest : ∀ r ∈ rest, r.toNat % 4096 = 0 ∧ r ≠ q := by
      have hn := h₀.nodup
      rw [hfl] at hn
      exact fun r hr => ⟨(h₀.page r (by rw [hfl]; exact List.mem_cons_of_mem _ hr)).aligned,
        fun he => (List.nodup_cons.1 hn).1 (he ▸ hr)⟩
    obtain ⟨e₀, e₁, e₂, e₃, e₄⟩ := kstack_offsets (q := q)
    rw [forkMem, allocprocKstack_cons hfl hq0]
    dsimp only
    rw [if_neg hq0]
    -- the stack's words, written inside the page `q`
    generalize hvm₁ : ({ vm₀ with
      mem := Word.store (Word.fill (Word.store vm₀.mem (q + 4016) trapret) (q + 3996) 20 0) (q + 4012) forkret
      freelist := rest } : Vm) = vm₁
    have hmem₁ : vm₁.mem = Word.store (Word.fill (Word.store vm₀.mem (q + 4016) trapret) (q + 3996) 20 0)
        (q + 4012) forkret := by rw [← hvm₁]
    have hfl₁ : vm₁.freelist = rest := by rw [← hvm₁]
    have hm₁ : Word.Outside [q] vm₀.mem vm₁.mem := hmem₁ ▸ kstack_outside hq.aligned _ _ _
    have hm₁' : Word.Outside (q :: rest) vm₀.mem vm₁.mem := hm₁.mono (List.cons_subset_cons _ (List.nil_subset _))
    obtain ⟨hp₁, happ₁, h₁⟩ := hp.of_taken h₀ hfl hfl₁ hm₁ (by rw [← hvm₁])
    have hkd₁ : vm₁.kdata = vm₀.kdata := by rw [← hvm₁]
    obtain ⟨d, vm₂, hrun, hr⟩ := copyuvm_cases hp₁ h₁ (hkd₁ ▸ hdata) (hkd₁ ▸ hal)
    rw [hrun, Except.ok_bind]
    dsimp only
    rcases hr with ⟨hd0, hc⟩ | ⟨rfl, hundo, hlen⟩
    · -- the copy is made: the child's trap frame is written inside the stack's page
      rw [if_neg hd0, e₀, e₄, show sizeofTrapframe.toNat = 76 from rfl]
      have hbs : (Word.bytes vm₂.mem ptf 76).length = 76 := Word.length_bytes _ _
      generalize hvm₃ : ({ vm₂ with
        mem := Word.store (Word.copy vm₂.mem (q + 4020) (Word.bytes vm₂.mem ptf 76)) (q + 4048) 0 } : Vm) = vm₃
      have hmem₃ : vm₃.mem = Word.store (Word.copy vm₂.mem (q + 4020) (Word.bytes vm₂.mem ptf 76)) (q + 4048) 0 :=
        by rw [← hvm₃]
      have hm₃ : Word.Outside [q] vm₂.mem vm₃.mem := hmem₃ ▸ tf_outside hq.aligned _ hbs
      have hout₁₂ : Word.Outside rest vm₁.mem vm₂.mem := hfl₁ ▸ hc.fresh.outside
      have hout₂ : Word.Outside (q :: rest) vm₀.mem vm₂.mem := hm₁'.trans hout₁₂ (List.subset_cons_self _ _)
      have hup : PGROUNDUP sz ≤ KERNBASE := by
        rw [UInt32.le_iff_toNat_le, toNat_PGROUNDUP_of_le hp.small]
        have := UInt32.le_iff_toNat_le.1 hp.small
        simp only [KERNBASE, UInt32.reduceToNat] at this ⊢
        omega
      obtain ⟨happ₃, hcopy⟩ := hc.apart h₁ hup hm₃ fun q' hq' => by
        rw [List.mem_singleton.1 hq', hfl₁]
        exact ⟨hq.aligned, fun hqr => (hrest q hqr).2 rfl⟩
      obtain ⟨hret, hctx, heip⟩ := kstack_words hq.aligned vm₀.mem trapret forkret
      obtain ⟨heax, htf⟩ := tf_bytes (q := q) vm₂.mem ptf
      refine ⟨_, vm₃, rfl, hout₂.trans hm₃ (List.cons_subset_cons _ (List.nil_subset _)),
        Or.inr ⟨q, d, rfl, hd0, ?_, ?_, fun i hi => ?_, ?_, ?_, fun j hj hj' => ?_, fun va hva => ?_,
          fun va hva => ?_⟩⟩
      · have hperm := hc.fresh.perm
        rw [List.nil_append, hfl₁, ← happ₃.owned] at hperm
        rw [← hvm₃] at hperm ⊢
        exact hperm.cons q
      · rw [e₀, e₁, hmem₃, load_kstack_after hq.aligned hout₁₂ hrest (by decide) (by decide) hbs, hmem₁]
        exact hret
      · have hi' : i.toNat < 4 := hi
        have hoff : (3996 + 4 * i).toNat = 3996 + 4 * i.toNat := by
          rw [UInt32.toNat_add, UInt32.toNat_mul]
          simp only [UInt32.reduceToNat]
          omega
        rw [e₀, e₁, e₂, UInt32.add_assoc, hmem₃,
          load_kstack_after hq.aligned hout₁₂ hrest (by omega) (by omega) hbs, hmem₁, ← UInt32.add_assoc]
        exact hctx i hi
      · rw [e₀, e₁, e₂, e₃, hmem₃, load_kstack_after hq.aligned hout₁₂ hrest (by decide) (by decide) hbs, hmem₁]
        exact heip
      · rw [e₀, e₄, hmem₃]
        exact heax
      · -- the parent's trap frame lies in a page that was not free
        rw [e₀, hmem₃, htf j hj hj']
        refine hout₂ _ fun r hr => ?_
        have hj₁ : j.toUInt32.toNat = j := by
          rw [Nat.toUInt32_eq, UInt32.toNat_ofNat_of_lt' (show j < 4294967296 by omega)]
        rw [page_add (by rw [hj₁]; omega)]
        exact hpf r (hfl ▸ hr)
      · -- the child's copy, seen from the parent as it was before `allocproc`
        obtain ⟨hmv, hflags, hbytes⟩ := hcopy va ((mem_pagesIn_PGROUNDUP hp.small).2 hva)
        obtain ⟨-, -, hload, -, hpb⟩ := hp.read h₀ (by rw [hfl]; exact hm₁') hva
        have hpd : vm₀.pdePresent pgdir (PDX va) = true := (Bool.and_eq_true_iff.1 (hp.present va hva)).1
        refine ⟨hmv, ?_, ?_⟩
        · rw [hflags, happ₁.pteAddr, hload]
        · rw [hbytes, happ₁.frame hpd, hpb]
      · rw [happ₃.mapped]
        exact hc.above va hva
    · -- `copyuvm` gave up: the stack goes back
      have hk₂ : vm₂.kend = vm₀.kend := by rw [hundo.kend, ← hvm₁]
      obtain ⟨vm₃, hk⟩ := PageOk.kfree (⟨hq.aligned, hk₂ ▸ hq.kend, hq.phys⟩ : PageOk vm₂ q)
      rw [if_pos rfl, hk, Except.ok_bind]
      refine ⟨none, vm₃, rfl, ?_, Or.inl ⟨rfl, ?_, ?_⟩⟩
      · exact (hm₁'.trans hundo.outside (by rw [hfl₁]; exact List.subset_cons_self _ _)).trans
          (kfree_outside hk List.mem_cons_self hq.aligned) (List.Subset.refl _)
      · -- the stack's page and what `copyuvm` ran out of
        rw [hfl₁] at hlen
        rw [List.length_cons, length_pagesIn_zero hp.small]
        omega
      · rw [(kfree_eq_ok hk).2.1]
        exact (hfl₁ ▸ hundo.perm).cons q

/-- `fork` of `forkVm`'s one-page process, whose trap frame sits at the top of a page of the
kernel's: the child gets a kernel stack, its trap frame with `eax` cleared, and a copy of the page. -/
theorem fork_mem_onePage : Parent forkVm 0x80300000 4096 ∧
    ∃ kstack d vm', forkVm.forkMem 0x80300000 4096 0x80200FB4 0x80105000 0x80104000 =
        .ok (some (kstack, d), vm') ∧ d ≠ 0 ∧
      Word.load vm'.mem (kstack + KSTACKSIZE - sizeofTrapframe + trapframeEax) = 0 ∧ vm'.mapped d 0 = true ∧
      Word.bytes vm'.mem (vm'.frame d 0) 4096 = Word.bytes forkVm.mem 0x80302000 4096 := by
  obtain ⟨r, vm', hrun, -, hr⟩ := @fork_mem forkVm 0x80300000 4096 0x80105000 0x80104000 0x80200FB4 forkVm_parent
    forkVm_freeOk (by decide) (by decide) (by decide) fun q hq => by
      have hb := page_of_mem_pageRange (show 0x80C00 ≤ 2 ^ 20 by decide) hq
      simp only [UInt32.reduceToNat]
      omega
  rcases hr with ⟨-, hlen, -⟩ | ⟨kstack, d, rfl, hd, -, -, -, -, heax, -, hcopy, -⟩
  · -- 2048 free pages are more than a stack and a copy of one page can run out of
    rw [forkVm_length] at hlen
    exact absurd hlen (by decide)
  · obtain ⟨hm, -, hbytes⟩ := hcopy 0 (by decide)
    have hframe : forkVm.frame 0x80300000 0 = 0x80302000 := by decide
    exact ⟨forkVm_parent, kstack, d, vm', hrun, hd, heax, hm, by rw [hbytes, hframe]⟩

end Fork

end Vm

end Xv6
