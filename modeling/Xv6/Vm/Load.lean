import Xv6.Vm.Uvm
import Xv6.Vm.Kinit
import Xv6.Fs.Inode

/-!
# Loading a program (`loaduvm`, `exec`'s loop over the program headers)

`exec` reads the ELF header and then each program header from the program's inode with `readi`,
and for each loadable segment grows the new address space with `allocuvm` and reads the segment's
bytes from the file into the pages with `loaduvm`. Any failure is `goto bad`.

The inode is its contents (`Fs.readi`), so the device branch of `readi` is left out. The structs
are laid over the bytes `readi` copied, field by field, little-endian; only the fields `exec`
reads are kept. Over a new address space (`Img`) each segment's load writes only inside the
directory's own user pages (`Img.write_frame`), so the loop never panics and keeps it
(`execLoadLoop_img`).
-/

namespace Xv6

/-- `ELF_MAGIC` (`elf.h`): `"\x7FELF"` in little endian. -/
def ELF_MAGIC : UInt32 := 0x464C457F

/-- `ELF_PROG_LOAD` (`elf.h`). -/
def ELF_PROG_LOAD : UInt32 := 1

/-- The little-endian `uint` at offset `i` of a struct that `readi` filled with `bs`. -/
def field32 (bs : List UInt8) (i : Nat) : UInt32 :=
  Word.load (fun a => bs.getD a.toNat 0) i.toUInt32

/-- The little-endian `ushort` at offset `i`. -/
def field16 (bs : List UInt8) (i : Nat) : UInt16 :=
  (bs.getD i 0).toUInt16 + (bs.getD (i + 1) 0).toUInt16 * 256

/-- The fields of `struct elfhdr` (`elf.h`) that `exec` reads. -/
structure Elfhdr where
  magic : UInt32
  entry : UInt32
  phoff : UInt32
  phnum : UInt16
  deriving Repr, DecidableEq

/-- `sizeof(struct elfhdr)`. -/
def sizeofElfhdr : Nat := 52

/-- A `struct elfhdr` over the bytes read: `magic` at 0, `entry` at 24, `phoff` at 28, `phnum` at 44. -/
def Elfhdr.ofBytes (bs : List UInt8) : Elfhdr where
  magic := field32 bs 0
  entry := field32 bs 24
  phoff := field32 bs 28
  phnum := field16 bs 44

/-- The fields of `struct proghdr` (`elf.h`) that `exec` reads. -/
structure Proghdr where
  type : UInt32
  off : UInt32
  vaddr : UInt32
  filesz : UInt32
  memsz : UInt32
  deriving Repr, DecidableEq

/-- `sizeof(struct proghdr)`. -/
def sizeofProghdr : Nat := 32

/-- A `struct proghdr` over the bytes read: `type`, `off`, `vaddr` at 0, 4, 8, `filesz` and `memsz`
at 16 and 20. -/
def Proghdr.ofBytes (bs : List UInt8) : Proghdr where
  type := field32 bs 0
  off := field32 bs 4
  vaddr := field32 bs 8
  filesz := field32 bs 16
  memsz := field32 bs 20

namespace Vm

/-- `loaduvm`'s loop from the offset `i` into the segment, `k` passes left. -/
def loaduvmLoop (pgdir addr : UInt32) (ip : Fs.Dinode) (offset sz : UInt32) :
    Nat → UInt32 → Vm → Except String (Int × Vm)
  | 0, _, vm => pure (0, vm)
  | k + 1, i, vm =>
    if i < sz then
      let pte := (vm.walkpgdir pgdir (addr + i) false).1
      if pte = 0 then throw "loaduvm: address should exist"
      else
        let pa := PTE_ADDR (Word.load vm.mem pte)
        let n := if sz - i < PGSIZE then sz - i else PGSIZE
        -- `readi(ip, P2V(pa), offset+i, n)` copies what it reads before its count is checked
        match Fs.readi ip (offset + i).toNat n.toNat with
        | none => pure (-1, vm)
        | some bs =>
          let vm := { vm with mem := Word.copy vm.mem (P2V pa) bs }
          if bs.length ≠ n.toNat then pure (-1, vm)
          else loaduvmLoop pgdir addr ip offset sz k (i + PGSIZE) vm
    else pure (0, vm)

/-- `loaduvm(pgdir, addr, ip, offset, sz)`: the loop runs on `2^20` passes, one per page of the
address space at most. -/
def loaduvm (vm : Vm) (pgdir addr : UInt32) (ip : Fs.Dinode) (offset sz : UInt32) : Except String (Int × Vm) :=
  if addr % PGSIZE ≠ 0 then throw "loaduvm: addr must be page aligned"
  else loaduvmLoop pgdir addr ip offset sz (NPDENTRIES * NPTENTRIES) 0 vm

/-- `exec`'s loop over the program headers: `k` headers left, the next at `off`, the image's size
`sz` so far; `none` for `goto bad`. -/
def execLoadLoop (ip : Fs.Dinode) (pgdir : UInt32) : Nat → UInt32 → UInt32 → Vm →
    Except String (Option UInt32 × Vm)
  | 0, _, sz, vm => pure (some sz, vm)
  | k + 1, off, sz, vm =>
    match Fs.readi ip off.toNat sizeofProghdr with
    | none => pure (none, vm)
    | some bs =>
      if bs.length ≠ sizeofProghdr then pure (none, vm)
      else
        let ph := Proghdr.ofBytes bs
        if ph.type ≠ ELF_PROG_LOAD then execLoadLoop ip pgdir k (off + sizeofProghdr.toUInt32) sz vm
        else if ph.memsz < ph.filesz then pure (none, vm)
        else if ph.vaddr + ph.memsz < ph.vaddr then pure (none, vm)
        else do
          let (sz, vm) ← vm.allocuvm pgdir sz (ph.vaddr + ph.memsz)
          if sz = 0 then pure (none, vm)
          else if ph.vaddr % PGSIZE ≠ 0 then pure (none, vm)
          else do
            let (r, vm) ← vm.loaduvm pgdir ph.vaddr ip ph.off ph.filesz
            if r < 0 then pure (none, vm)
            else execLoadLoop ip pgdir k (off + sizeofProghdr.toUInt32) sz vm

/-! ### Over a new address space -/

section Load

variable {vm₀ vm : Vm} {d : UInt32} {n : Nat}

theorem readi_length_le {ip : Fs.Dinode} {off m : Nat} {bs : List UInt8} (h : Fs.readi ip off m = some bs) :
    bs.length ≤ m := by
  unfold Fs.readi at h
  split_ifs at h
  rw [← Option.some.inj h]
  exact List.length_take_le _ _

theorem Img.write_frame (h₀ : FreeOk vm₀) (hi : Img vm₀ vm d n) {va : UInt32} (hva : va ∈ pagesIn 0 KERNBASE)
    (hm : vm.mapped d va = true) {vm' : Vm} (hout : Word.Outside [vm.frame d va] vm.mem vm'.mem)
    (hfl : vm'.freelist = vm.freelist) (hk : vm'.kend = vm.kend) (hkd : vm'.kdata = vm.kdata) :
    Img vm₀ vm' d n ∧ Apart vm vm' d [vm.frame d va] := by
  have hf : vm.frame d va ∈ vm.frames d := List.mem_map.2 ⟨va, List.mem_filter.2 ⟨hva, hm⟩, rfl⟩
  obtain ⟨hfd, hft, -, -⟩ := hi.fresh.frame_apart h₀ hf
  have happ : Apart vm vm' d [vm.frame d va] :=
    ⟨hout, ((hi.fresh.sound h₀).page d List.mem_cons_self).aligned, fun x hx => by
      rw [List.mem_singleton.1 hx]
      exact ⟨toNat_P2V_PTE_ADDR_mod _, hfd, hft⟩⟩
  have hsub : [vm.frame d va] ⊆ vm₀.freelist := fun x hx => by
    rw [List.mem_singleton.1 hx]
    exact hi.fresh.mem_of_owned (mem_owned_of_frame hf)
  refine ⟨⟨⟨?_, hi.fresh.outside_trans hsub hout, hk.trans hi.fresh.kend, hkd.trans hi.fresh.kdata⟩, hi.le,
    fun b hb => (happ.mapped b).trans (hi.mapped b hb)⟩, happ⟩
  rw [happ.owned, hfl]
  exact hi.fresh.perm

theorem Img.mapped_of_lt (hi : Img vm₀ vm d n) {va : UInt32} (hal : va.toNat % 4096 = 0) (hlt : va.toNat < 4096 * n) :
    va ∈ pagesIn 0 KERNBASE ∧ vm.mapped d va = true := by
  have hn := hi.le
  have hvu : va ∈ pagesIn 0 KERNBASE :=
    (mem_pagesIn (show KERNBASE ≤ KERNBASE by decide)).2 ⟨hal, Nat.zero_le _, by
      simp only [KERNBASE, UInt32.reduceToNat]
      omega⟩
  refine ⟨hvu, ?_⟩
  rw [hi.mapped va hvu]
  simp only [decide_eq_true_eq]
  omega

/-- `loaduvm`'s loop over pages the image maps never panics and keeps the image: each pass writes
what `readi` read at the start of the page that `addr + i` maps. The induction is on the passes
left. -/
theorem loaduvmLoop_img (h₀ : FreeOk vm₀) (ip : Fs.Dinode) {addr offset sz : UInt32} (hal : addr.toNat % 4096 = 0)
    (hfit : addr.toNat + sz.toNat ≤ 4096 * n) :
    ∀ (k : Nat) (i : UInt32) (vm : Vm), Img vm₀ vm d n → i.toNat % 4096 = 0 →
      (sz.toNat + 4095) / 4096 - i.toNat / 4096 < k →
      ∃ r vm', loaduvmLoop d addr ip offset sz k i vm = .ok (r, vm') ∧ Img vm₀ vm' d n
  | 0, _, _, _, _, hk => absurd hk (Nat.not_lt_zero _)
  | k + 1, i, vm, hi, hi4, hk => by
    by_cases hlt : i < sz
    · have hlt' := UInt32.lt_iff_toNat_lt.1 hlt
      have hn := hi.le
      have hva : (addr + i).toNat = addr.toNat + i.toNat := by
        rw [UInt32.toNat_add]
        omega
      -- the page `addr + i` is one the image maps, so the walk finds its PTE
      obtain ⟨hvu, hm⟩ : addr + i ∈ pagesIn 0 KERNBASE ∧ vm.mapped d (addr + i) = true :=
        hi.mapped_of_lt (by omega) (by omega)
      have hpd : vm.pdePresent d (PDX (addr + i)) = true := (Bool.and_eq_true_iff.1 hm).1
      have hne := pteAddr_ne_zero (hi.fresh.sound h₀).tables hpd
      rw [loaduvmLoop, if_pos hlt]
      simp only [walkpgdir_of_pdePresent hpd, if_neg hne]
      -- at most a page is read
      have hn4 : (if sz - i < PGSIZE then sz - i else PGSIZE).toNat ≤ 4096 := by
        split_ifs with hp
        · exact le_of_lt (UInt32.lt_iff_toNat_lt.1 hp)
        · exact le_refl _
      generalize (if sz - i < PGSIZE then sz - i else PGSIZE) = m at hn4 ⊢
      cases hr : Fs.readi ip (offset + i).toNat m.toNat with
      | none => exact ⟨-1, vm, rfl, hi⟩
      | some bs =>
        dsimp only
        have hbs : bs.length ≤ 4096 := le_trans (readi_length_le hr) hn4
        -- the bytes go to the start of the page `addr + i` maps
        obtain ⟨hi', -⟩ : Img vm₀ { vm with mem := Word.copy vm.mem (vm.frame d (addr + i)) bs } d n ∧
            Apart vm { vm with mem := Word.copy vm.mem (vm.frame d (addr + i)) bs } d [vm.frame d (addr + i)] :=
          hi.write_frame h₀ hvu hm (.copy_start List.mem_cons_self (toNat_P2V_PTE_ADDR_mod _) hbs) rfl rfl rfl
        split_ifs with hc
        · exact ⟨-1, _, rfl, hi'⟩
        · have hnext : (i + PGSIZE).toNat = i.toNat + 4096 := toNat_add_PGSIZE (by omega)
          exact loaduvmLoop_img h₀ ip hal hfit k (i + PGSIZE) _ hi' (by omega) (by omega)
    · exact ⟨0, vm, by rw [loaduvmLoop, if_neg hlt]; rfl, hi⟩

/-- `loaduvm(pgdir, addr, ip, offset, sz)` of a page-aligned segment inside the image never panics
and keeps the image. -/
theorem Img.loaduvm (h₀ : FreeOk vm₀) (hi : Img vm₀ vm d n) (ip : Fs.Dinode) {addr offset sz : UInt32}
    (hal : addr.toNat % 4096 = 0) (hfit : addr.toNat + sz.toNat ≤ 4096 * n) :
    ∃ r vm', vm.loaduvm d addr ip offset sz = .ok (r, vm') ∧ Img vm₀ vm' d n := by
  have hn := hi.le
  have hmod : ¬(addr % PGSIZE ≠ 0) := fun h => h (UInt32.toNat_inj.1 (by rw [UInt32.toNat_mod]; exact hal))
  rw [Vm.loaduvm, if_neg hmod]
  exact loaduvmLoop_img h₀ ip hal hfit _ 0 vm hi rfl (by simp only [NPDENTRIES, NPTENTRIES]; omega)

theorem toNat_add_of_not_lt {a b : UInt32} (h : ¬(a + b < a)) : (a + b).toNat = a.toNat + b.toNat := by
  rw [UInt32.lt_iff_toNat_lt, UInt32.toNat_add] at h
  rw [UInt32.toNat_add]
  have := a.toNat_lt
  have := b.toNat_lt
  omega

/-- `exec`'s loop over the program headers, over an image of the pages below `sz`, never panics:
it gives `none` with the directory still built of free pages, or the new size with an image of
the pages below it. The induction is on the headers left. -/
theorem execLoadLoop_img (h₀ : FreeOk vm₀) (ip : Fs.Dinode) :
    ∀ (k : Nat) (off sz : UInt32) (vm : Vm), Img vm₀ vm d ((sz.toNat + 4095) / 4096) →
      ∃ r vm', execLoadLoop ip d k off sz vm = .ok (r, vm') ∧
        (r = none ∧ Fresh vm₀ vm' d [] ∨ ∃ sz', r = some sz' ∧ Img vm₀ vm' d ((sz'.toNat + 4095) / 4096))
  | 0, _, sz, vm, hi => ⟨some sz, vm, rfl, Or.inr ⟨sz, rfl, hi⟩⟩
  | k + 1, off, sz, vm, hi => by
    rw [execLoadLoop]
    cases hr : Fs.readi ip off.toNat sizeofProghdr with
    | none => exact ⟨none, vm, rfl, Or.inl ⟨rfl, hi.fresh⟩⟩
    | some bs =>
      dsimp only
      by_cases hlen : bs.length ≠ sizeofProghdr
      · exact ⟨none, vm, by rw [if_pos hlen]; rfl, Or.inl ⟨rfl, hi.fresh⟩⟩
      rw [if_neg hlen]
      generalize Proghdr.ofBytes bs = ph
      by_cases ht : ph.type ≠ ELF_PROG_LOAD
      · rw [if_pos ht]
        exact execLoadLoop_img h₀ ip k _ sz vm hi
      rw [if_neg ht]
      by_cases hms : ph.memsz < ph.filesz
      · exact ⟨none, vm, by rw [if_pos hms]; rfl, Or.inl ⟨rfl, hi.fresh⟩⟩
      rw [if_neg hms]
      by_cases hov : ph.vaddr + ph.memsz < ph.vaddr
      · exact ⟨none, vm, by rw [if_pos hov]; rfl, Or.inl ⟨rfl, hi.fresh⟩⟩
      rw [if_neg hov]
      obtain ⟨sz', vm₁, hrun, hcase⟩ := hi.allocuvm h₀ (ph.vaddr + ph.memsz)
      rw [hrun, Except.ok_bind]
      dsimp only
      by_cases hz : sz' = 0
      · rw [if_pos hz]
        have hf : Fresh vm₀ vm₁ d [] := by
          rcases hcase with ⟨-, h⟩ | ⟨-, -, -, h, -⟩ | ⟨-, -, rfl⟩
          · exact h.fresh
          · exact h.fresh
          · exact hi.fresh
        exact ⟨none, vm₁, rfl, Or.inl ⟨rfl, hf⟩⟩
      rw [if_neg hz]
      -- the segment lies inside the image `allocuvm` leaves
      have hsum := toNat_add_of_not_lt hov
      have hfs := UInt32.le_iff_toNat_le.1 (UInt32.not_lt.1 hms)
      obtain ⟨hi₁, hcov⟩ : Img vm₀ vm₁ d ((sz'.toNat + 4095) / 4096) ∧
          (ph.vaddr + ph.memsz).toNat ≤ 4096 * ((sz'.toNat + 4095) / 4096) := by
        rcases hcase with ⟨h0, -⟩ | ⟨-, -, rfl, hi₁, -⟩ | ⟨hlt, rfl, rfl⟩
        · exact absurd h0 hz
        · exact ⟨hi₁, by omega⟩
        · exact ⟨hi, by have := UInt32.lt_iff_toNat_lt.1 hlt; omega⟩
      by_cases hal : ph.vaddr % PGSIZE ≠ 0
      · exact ⟨none, vm₁, by rw [if_pos hal]; rfl, Or.inl ⟨rfl, hi₁.fresh⟩⟩
      rw [if_neg hal]
      have hal' : ph.vaddr.toNat % 4096 = 0 := by
        have := congrArg UInt32.toNat (not_not.1 hal)
        rwa [UInt32.toNat_mod] at this
      obtain ⟨r, vm₂, hload, hi₂⟩ : ∃ r vm₂, vm₁.loaduvm d ph.vaddr ip ph.off ph.filesz = .ok (r, vm₂) ∧
          Img vm₀ vm₂ d ((sz'.toNat + 4095) / 4096) := hi₁.loaduvm h₀ ip hal' (by omega)
      rw [hload, Except.ok_bind]
      dsimp only
      split_ifs with hr0
      · exact ⟨none, vm₂, rfl, Or.inl ⟨rfl, hi₂.fresh⟩⟩
      · exact execLoadLoop_img h₀ ip k _ sz' vm₂ hi₂

end Load

/-- At boot, `kinit1(end, P2V(4MB))` leaves a sound free list of more than 512 pages. -/
theorem boot_kinit1 :
    ∃ vm₁, bootVm.freerange bootVm.kend (P2V 0x400000) = .ok vm₁ ∧ FreeOk vm₁ ∧
      512 < vm₁.freelist.length ∧ vm₁.kdata = bootVm.kdata := by
  have hse : bootVm.kend ≤ P2V 0x400000 := by decide
  obtain ⟨vm₁, hrun₁, hfl₁, -, hok₁⟩ := freerange_pages bootVm_freeOk (fun _ hq => (List.not_mem_nil hq).elim)
    (UInt32.le_iff_toNat_le.2 le_rfl) hse (by decide)
  have hlen : 512 < vm₁.freelist.length := by
    rw [hfl₁, List.length_append, List.length_reverse, length_pageRange]
    decide
  obtain ⟨vm', hrun', -, -, -, hkd⟩ := freerange_frees (show KERNBASE < bootVm.kend by decide)
    (UInt32.le_iff_toNat_le.2 le_rfl) hse (show P2V 0x400000 ≤ P2V PHYSTOP by decide)
  rw [hrun'] at hrun₁
  cases hrun₁
  exact ⟨_, hrun', hok₁, hlen, hkd⟩

/-- `setupkvm` on the boot allocator builds a directory. -/
theorem setupkvm_maps_kernel_boot :
    ∃ vm₁ d vm', bootVm.freerange bootVm.kend (P2V 0x400000) = .ok vm₁ ∧ FreeOk vm₁ ∧
      vm₁.setupkvm = .ok (d, vm') ∧ d ≠ 0 := by
  obtain ⟨vm₁, hrun₁, hok₁, hlen, hkd⟩ := boot_kinit1
  obtain ⟨d, vm', hrun, hr⟩ := setupkvm_maps_kernel hok₁ (by rw [hkd]; decide) (by rw [hkd]; decide)
  rcases hr with ⟨-, hshort, -⟩ | ⟨hd0, -⟩
  · omega
  · exact ⟨vm₁, d, vm', hrun₁, hok₁, hrun, hd0⟩

/-- On the boot allocator `setupkvm` gives a new directory built of free pages: an image of no
user page. -/
theorem boot_img :
    ∃ vm₁ d vm₂, bootVm.freerange bootVm.kend (P2V 0x400000) = .ok vm₁ ∧ vm₁.setupkvm = .ok (d, vm₂) ∧
      FreeOk vm₁ ∧ Img vm₁ vm₂ d 0 := by
  obtain ⟨vm₁, hrun₁, hok₁, hlen, hkd⟩ := boot_kinit1
  obtain ⟨d, vm₂, hrun₂, hr⟩ := setupkvm_fresh hok₁ (by rw [hkd]; decide) (by rw [hkd]; decide)
  rcases hr with ⟨-, hf, hu, -⟩ | ⟨-, -, hshort⟩
  · exact ⟨vm₁, d, vm₂, hrun₁, hrun₂, hok₁, Img.start hf hu⟩
  · omega

/-- A program file with one loadable segment: its program header at offset 0 asks for a page of
memory at virtual address 0 and the first 4 bytes of the file in it. -/
def oneSegment : Fs.Dinode :=
  ⟨2, 0, 0, 1, [1, 0, 0, 0, 0, 0, 0, 0, 0, 0, 0, 0, 0, 0, 0, 0, 4, 0, 0, 0, 0, 16, 0, 0, 0, 0, 0, 0, 0, 0, 0, 0]⟩

theorem execLoadLoop_img_boot :
    ∃ vm₁ d vm₂, bootVm.freerange bootVm.kend (P2V 0x400000) = .ok vm₁ ∧ vm₁.setupkvm = .ok (d, vm₂) ∧
      FreeOk vm₁ ∧ Img vm₁ vm₂ d 0 ∧ ∃ r vm', execLoadLoop oneSegment d 1 0 0 vm₂ = .ok (r, vm') :=
  have ⟨vm₁, d, vm₂, h₁, h₂, hok, hi⟩ := boot_img
  have ⟨r, vm', hrun, _⟩ := execLoadLoop_img hok oneSegment 1 0 0 vm₂ hi
  ⟨vm₁, d, vm₂, h₁, h₂, hok, hi, r, vm', hrun⟩

end Vm

end Xv6
