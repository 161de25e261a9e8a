import Mathlib.Logic.Function.Basic
import Xv6.Lib.Except
import Xv6.Memlayout
import Xv6.Syscall

/-!
# Swapping pages through disk 0 (`swapread`, `swapwrite`, `sys_swapread`, `sys_swapwrite`)

`swapread(ptr, blkno)` copies the eight 512-byte blocks `blkno + SWAPBASE + i` (`i < 8`) of
device 0, the boot disk `xv6.img`, into the page at `ptr`; `swapwrite` writes the page to the same
blocks. Both panic when `blkno` is outside `[0, SWAPMAX)`. The system calls fetch the page pointer
with `argptr(0, ..., PGSIZE)` and the block number with `argint(1)` and return -1 only when one of
these fails.

Every transfer goes through the IDE driver: `bread` of a block not in the cache, and every `bwrite`,
reach `idestart`, which panics for a block number at or above `FSSIZE` whatever the device. A swap
block is never valid in the cache without having passed `idestart`, so the driver's check decides
every transfer; it is the parameter `start` below, and `idestart` is the driver's own. Block
contents are left abstract (`β`): the swap code moves whole blocks and never looks inside them.
-/

namespace Xv6

/-- First block of device 0 used for swapping. -/
def SWAPBASE : Int := 500
/-- Upper bound (exclusive) on the `blkno` argument. -/
def SWAPMAX : Int := 100000 - SWAPBASE

/-- The block-number check of `idestart(b)`, made for every device. -/
def idestart (blockno : Nat) : Except String Unit :=
  if blockno ≥ FSSIZE then throw "incorrect blockno" else pure ()

/-- The blocks of device 0 that `swapread` and `swapwrite` transfer for `blkno`, in order. -/
def swapBlocks (blkno : Int) : List Nat :=
  (List.range 8).map fun (i : Nat) => (blkno + SWAPBASE + i).toNat

section

variable {β : Type}

/-- `bread(0, blockno)` through the driver check `start`. -/
def bread0 (start : Nat → Except String Unit) (disk : Nat → β) (blockno : Nat) :
    Except String β := do
  start blockno
  pure (disk blockno)

/-- `bread(0, blockno)`, overwrite the buffer with `v`, `bwrite`: both transfers pass `start`. -/
def bwrite0 (start : Nat → Except String Unit) (disk : Nat → β) (blockno : Nat) (v : β) :
    Except String (Nat → β) := do
  start blockno
  start blockno
  pure (Function.update disk blockno v)

/-- `swapread(ptr, blkno)`: the eight blocks copied into the page, in order. -/
def swapread (start : Nat → Except String Unit) (disk : Nat → β) (blkno : Int) :
    Except String (List β) :=
  if blkno < 0 ∨ blkno ≥ SWAPMAX then throw "swapread: blkno exceed range"
  else (swapBlocks blkno).mapM (bread0 start disk)

/-- The loop of `swapwrite`: block `bs[i]` receives the page's block `i`. -/
def swapwriteLoop (start : Nat → Except String Unit) :
    (Nat → β) → List Nat → List β → Except String (Nat → β)
  | disk, b :: bs, v :: vs => do
    let disk ← bwrite0 start disk b v
    swapwriteLoop start disk bs vs
  | disk, _, _ => pure disk

/-- `swapwrite(ptr, blkno)` of the page `page` (its eight blocks): the new disk. -/
def swapwrite (start : Nat → Except String Unit) (disk : Nat → β) (page : List β) (blkno : Int) :
    Except String (Nat → β) :=
  if blkno < 0 ∨ blkno ≥ SWAPMAX then throw "swapread: blkno exceed range"
  else swapwriteLoop start disk (swapBlocks blkno) page

/-- `sys_swapread()`: `none` when it returns -1; otherwise the user address and the page copied
there, the call returning 0. -/
def sysSwapread (u : UserCtx) (start : Nat → Except String Unit) (disk : Nat → β) :
    Except String (Option (UInt32 × List β)) :=
  match argptr u 0 PGSIZE.toNat, argint u 1 with
  | some ptr, some blkno => do
    let page ← swapread start disk blkno
    pure (some (ptr, page))
  | _, _ => pure none

/-- `sys_swapwrite()`: `none` when it returns -1; otherwise the new disk, the call returning 0.
`userPage ptr` is the page at user address `ptr`, as eight blocks. -/
def sysSwapwrite (u : UserCtx) (userPage : UInt32 → List β) (start : Nat → Except String Unit)
    (disk : Nat → β) : Except String (Option (Nat → β)) :=
  match argptr u 0 PGSIZE.toNat, argint u 1 with
  | some ptr, some blkno => do
    let disk ← swapwrite start disk (userPage ptr) blkno
    pure (some disk)
  | _, _ => pure none

/-! ### What the swap calls do -/

theorem mapM_bread0 (start : Nat → Except String Unit) (disk : Nat → β) :
    ∀ bs : List Nat, (∀ b ∈ bs, start b = .ok ()) → bs.mapM (bread0 start disk) = .ok (bs.map disk)
  | [], _ => rfl
  | b :: bs, h => by
    have hb : bread0 start disk b = .ok (disk b) := by simp [bread0, h b (by simp)]
    have ih := mapM_bread0 start disk bs fun b' hb' => h b' (by simp [hb'])
    simp only [List.mapM_cons, hb, ih, List.map_cons]
    rfl

/-- The disk after writing `vs[i]` to block `bs[i]` in order. -/
def writeBlocks (disk : Nat → β) (bs : List Nat) (vs : List β) : Nat → β :=
  (bs.zip vs).foldl (fun d bv => Function.update d bv.1 bv.2) disk

theorem swapwriteLoop_ok (start : Nat → Except String Unit) :
    ∀ (disk : Nat → β) (bs : List Nat) (vs : List β), (∀ b ∈ bs, start b = .ok ()) →
      swapwriteLoop start disk bs vs = .ok (writeBlocks disk bs vs)
  | disk, [], vs, _ => by cases vs <;> rfl
  | disk, _ :: _, [], _ => rfl
  | disk, b :: bs, v :: vs, h => by
    have hb : bwrite0 start disk b v = .ok (Function.update disk b v) := by
      simp [bwrite0, h b (by simp)]
    have ih := swapwriteLoop_ok start (Function.update disk b v) bs vs
      fun b' hb' => h b' (by simp [hb'])
    simp only [swapwriteLoop, hb]
    exact ih

theorem swapBlocks_bound {blkno : Int} (h0 : 0 ≤ blkno) (h1 : blkno < SWAPMAX) :
    ∀ b ∈ swapBlocks blkno, SWAPBASE ≤ b ∧ b < SWAPBASE + SWAPMAX + 7 := by
  intro b hb
  simp only [swapBlocks, List.mem_map, List.mem_range] at hb
  obtain ⟨i, hi, rfl⟩ := hb
  simp only [SWAPBASE, SWAPMAX] at h1 ⊢
  omega

/-- The driver's own check accepts the eight swap blocks of `blkno` exactly when the last of them
lies below `FSSIZE`: far below the `SWAPMAX` the range check allows. -/
theorem swapBlocks_idestart {blkno : Int} (h0 : 0 ≤ blkno) :
    (∀ b ∈ swapBlocks blkno, idestart b = .ok ()) ↔ blkno + SWAPBASE + 7 < FSSIZE := by
  have hok : ∀ b, idestart b = .ok () ↔ b < FSSIZE := by
    intro b; unfold idestart; split <;> simp_all
  simp only [hok, swapBlocks, List.mem_map, List.mem_range, forall_exists_index, and_imp,
    forall_apply_eq_imp_iff₂, FSSIZE, SWAPBASE]
  constructor
  · intro h; have := h 7 (by omega); omega
  · intro h i hi; omega

theorem sysSwapread_outcome (u : UserCtx) (start : Nat → Except String Unit) (disk : Nat → β) :
    (sysSwapread u start disk = .ok none ↔ argptr u 0 PGSIZE.toNat = none ∨ argint u 1 = none) ∧
    ∀ ptr blkno, argptr u 0 PGSIZE.toNat = some ptr → argint u 1 = some blkno →
      ((blkno < 0 ∨ blkno ≥ SWAPMAX) →
        sysSwapread u start disk = .error "swapread: blkno exceed range") ∧
      ((∀ b ∈ swapBlocks blkno, start b = .ok ()) → 0 ≤ blkno → blkno < SWAPMAX →
        sysSwapread u start disk = .ok (some (ptr, (swapBlocks blkno).map disk))) := by
  refine ⟨?_, fun ptr blkno hp hb => ⟨fun hr => ?_, fun hs h0 h1 => ?_⟩⟩
  · unfold sysSwapread
    cases argptr u 0 PGSIZE.toNat <;> cases argint u 1 <;> simp only [reduceCtorEq, or_true,
      true_or, or_self, iff_true, iff_false]
    · rfl
    · rfl
    · rfl
    · rename_i blkno
      unfold swapread
      split
      · simp
      · cases (swapBlocks blkno).mapM (bread0 start disk) <;> simp
  · simp [sysSwapread, hp, hb, swapread, hr]
  · have hn : ¬ (blkno < 0 ∨ blkno ≥ SWAPMAX) := by omega
    simp [sysSwapread, hp, hb, swapread, hn, mapM_bread0 start disk _ hs]

theorem sysSwapwrite_outcome (u : UserCtx) (userPage : UInt32 → List β)
    (start : Nat → Except String Unit) (disk : Nat → β) :
    (sysSwapwrite u userPage start disk = .ok none ↔
      argptr u 0 PGSIZE.toNat = none ∨ argint u 1 = none) ∧
    ∀ ptr blkno, argptr u 0 PGSIZE.toNat = some ptr → argint u 1 = some blkno →
      ((blkno < 0 ∨ blkno ≥ SWAPMAX) →
        sysSwapwrite u userPage start disk = .error "swapread: blkno exceed range") ∧
      ((∀ b ∈ swapBlocks blkno, start b = .ok ()) → 0 ≤ blkno → blkno < SWAPMAX →
        sysSwapwrite u userPage start disk =
          .ok (some (writeBlocks disk (swapBlocks blkno) (userPage ptr)))) := by
  refine ⟨?_, fun ptr blkno hp hb => ⟨fun hr => ?_, fun hs h0 h1 => ?_⟩⟩
  · unfold sysSwapwrite
    cases argptr u 0 PGSIZE.toNat <;> cases argint u 1 <;> simp only [reduceCtorEq, or_true,
      true_or, or_self, iff_true, iff_false]
    · rfl
    · rfl
    · rfl
    · rename_i ptr blkno
      unfold swapwrite
      split
      · simp
      · cases swapwriteLoop start disk (swapBlocks blkno) (userPage ptr) <;> simp
  · simp [sysSwapwrite, hp, hb, swapwrite, hr]
  · have hn : ¬ (blkno < 0 ∨ blkno ≥ SWAPMAX) := by omega
    simp [sysSwapwrite, hp, hb, swapwrite, hn, swapwriteLoop_ok start disk _ _ hs]

/-- Both swap system calls return -1 exactly when an argument fetch fails. Otherwise a `blkno`
outside `[0, SWAPMAX)` panics in the range check, and a `blkno` inside hands the driver the
eight blocks `blkno + SWAPBASE + i` of device 0 in order, and completes whenever the driver
accepts them: `swapread` yields their contents, `swapwrite` stores the page's blocks there. -/
theorem sys_swap_outcome (u : UserCtx) (userPage : UInt32 → List β)
    (start : Nat → Except String Unit) (disk : Nat → β) :
    ((sysSwapread u start disk = .ok none ↔ argptr u 0 PGSIZE.toNat = none ∨ argint u 1 = none) ∧
      ∀ ptr blkno, argptr u 0 PGSIZE.toNat = some ptr → argint u 1 = some blkno →
        ((blkno < 0 ∨ blkno ≥ SWAPMAX) →
          sysSwapread u start disk = .error "swapread: blkno exceed range") ∧
        ((∀ b ∈ swapBlocks blkno, start b = .ok ()) → 0 ≤ blkno → blkno < SWAPMAX →
          sysSwapread u start disk = .ok (some (ptr, (swapBlocks blkno).map disk)))) ∧
    ((sysSwapwrite u userPage start disk = .ok none ↔
        argptr u 0 PGSIZE.toNat = none ∨ argint u 1 = none) ∧
      ∀ ptr blkno, argptr u 0 PGSIZE.toNat = some ptr → argint u 1 = some blkno →
        ((blkno < 0 ∨ blkno ≥ SWAPMAX) →
          sysSwapwrite u userPage start disk = .error "swapread: blkno exceed range") ∧
        ((∀ b ∈ swapBlocks blkno, start b = .ok ()) → 0 ≤ blkno → blkno < SWAPMAX →
          sysSwapwrite u userPage start disk =
            .ok (some (writeBlocks disk (swapBlocks blkno) (userPage ptr))))) :=
  ⟨sysSwapread_outcome u start disk, sysSwapwrite_outcome u userPage start disk⟩

end

/-! ### The range check against the driver -/

/-- A caller with an 8192-byte image and its stack pointer at 4096, whose argument words are a
null page pointer and `w`. -/
def swapCaller (w : UInt32) : UserCtx where
  sz := 8192
  esp := 4096
  mem a :=
    if a = 4104 then w.toUInt8 else if a = 4105 then (w >>> 8).toUInt8
    else if a = 4106 then (w >>> 16).toUInt8 else if a = 4107 then (w >>> 24).toUInt8 else 0

/-- `blkno = 493` passes the range check, and its last block, 1000, is refused by `idestart`;
`blkno = -1` panics in the range check instead of returning -1. -/
theorem sys_swap_panics :
    sysSwapread (swapCaller 493) idestart (fun _ => ()) = .error "incorrect blockno" ∧
    sysSwapwrite (swapCaller 493) (fun _ => List.replicate 8 ()) idestart (fun _ => ()) =
      .error "incorrect blockno" ∧
    sysSwapread (swapCaller 0xFFFFFFFF) idestart (fun _ => ()) =
      .error "swapread: blkno exceed range" :=
  ⟨rfl, rfl, rfl⟩

/-- `blkno = 492`, the largest the driver accepts: its blocks 992 to 999 are read into the page and
written from it. -/
theorem sys_swap_outcome_492 :
    sysSwapread (swapCaller 492) idestart (fun b => b) = .ok (some (0, [992, 993, 994, 995, 996, 997, 998, 999])) ∧
    sysSwapwrite (swapCaller 492) (fun _ => [0, 1, 2, 3, 4, 5, 6, 7]) idestart (fun b => b) =
      .ok (some (writeBlocks (fun b => b) [992, 993, 994, 995, 996, 997, 998, 999] [0, 1, 2, 3, 4, 5, 6, 7])) := by
  have hblocks : swapBlocks 492 = [992, 993, 994, 995, 996, 997, 998, 999] := by decide
  have hs : ∀ b ∈ swapBlocks 492, idestart b = .ok () := (swapBlocks_idestart (by decide)).2 (by decide)
  obtain ⟨⟨-, hread⟩, -, hwrite⟩ :=
    sys_swap_outcome (swapCaller 492) (fun _ => [0, 1, 2, 3, 4, 5, 6, 7]) idestart (fun b => b)
  refine ⟨?_, ?_⟩
  · rw [(hread 0 492 rfl rfl).2 hs (by decide) (by decide), hblocks]
    rfl
  · rw [(hwrite 0 492 rfl rfl).2 hs (by decide) (by decide), hblocks]

end Xv6
