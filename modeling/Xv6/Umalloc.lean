import Mathlib
import Xv6.Lib.Except

/-!
# The user-space allocator (`umalloc.c`)

`malloc` and `free` of Kernighan and Ritchie over a circular list of free blocks, each led by a
`Header`: the next free block and the block's size in headers. Pointers are 32-bit addresses, a
`Header` is 8 bytes (`sizeof(Header)`, its pointer and `uint` size), and `p + n` for a `Header*`
is `p + 8 * n` modulo 2^32; `uint` arithmetic wraps as well. The memory is the header stored at
each address, since that is all the allocator reads; the bytes between headers are the user's.

`sbrk` is the system call of `sysproc.c`: it returns the old break and moves the break by its argument, or
returns `-1` when the break would leave `[0, top]`. The argument is `nu * sizeof(Header)` computed
in `uint` and passed as an `int`. The loops take fuel, since a list without a wrap point would make
`free`'s search spin.
-/

namespace Xv6.Umalloc

structure Header where
  ptr : UInt32
  size : UInt32
  deriving DecidableEq, Repr

structure Heap where
  mem : UInt32 → Header
  /-- The static `freep`; `0` until the first `malloc`. -/
  freep : UInt32
  /-- The address of the static `base`. -/
  base : UInt32
  brk : UInt32
  top : UInt32

/-- `p + n` for `Header *p`. -/
def hadd (p n : UInt32) : UInt32 := p + n * 8

namespace Heap

def set (h : Heap) (a : UInt32) (x : Header) : Heap := { h with mem := Function.update h.mem a x }

def sbrk (h : Heap) (n : Int) : Option (UInt32 × Heap) :=
  let b := (h.brk.toNat : Int) + n
  if 0 ≤ b ∧ b ≤ h.top.toNat then some (h.brk, { h with brk := UInt32.ofNat b.toNat }) else none

/-- The search of `free`: the block `p` after which `bp` goes, between `p` and its successor or at
the wrap point. -/
def freeLoop (h : Heap) (bp : UInt32) : Nat → UInt32 → Option UInt32
  | 0, _ => none
  | n + 1, p =>
    if bp > p ∧ bp < (h.mem p).ptr then some p
    else if p ≥ (h.mem p).ptr ∧ (bp > p ∨ bp < (h.mem p).ptr) then some p
    else freeLoop h bp n (h.mem p).ptr

def free (h : Heap) (fuel : Nat) (ap : UInt32) : Option Heap := do
  let bp := ap - 8
  let p ← h.freeLoop bp fuel h.freep
  -- joined to the block after it, or linked before it
  let h := if hadd bp (h.mem bp).size = (h.mem p).ptr then
      h.set bp ⟨(h.mem (h.mem p).ptr).ptr, (h.mem bp).size + (h.mem (h.mem p).ptr).size⟩
    else h.set bp ⟨(h.mem p).ptr, (h.mem bp).size⟩
  -- joined to the block before it, or linked after it
  let h := if hadd p (h.mem p).size = bp then
      h.set p ⟨(h.mem bp).ptr, (h.mem p).size + (h.mem bp).size⟩
    else h.set p ⟨bp, (h.mem p).size⟩
  pure { h with freep := p }

/-- `morecore(nu)`: `freep` after the new block has been freed into the list, or `0` when `sbrk`
fails. -/
def morecore (h : Heap) (fuel : Nat) (nu : UInt32) : Option (UInt32 × Heap) :=
  let nu := if nu < 4096 then 4096 else nu
  match h.sbrk (nu * 8).toInt32.toInt with
  | none => some (0, h)
  | some (p, h) =>
    let h := h.set p { h.mem p with size := nu }
    (h.free fuel (hadd p 1)).map fun h => (h.freep, h)

end Heap

def nunitsOf (nbytes : UInt32) : UInt32 := (nbytes + 8 - 1) / 8 + 1

/-- The loop of `malloc` from `p = prevp->s.ptr`: the first block big enough is taken whole or
split, its tail handed out; back at `freep`, `morecore` grows the heap. -/
def mallocLoop (nunits : UInt32) (fuel : Nat) : Nat → Heap → UInt32 → UInt32 → Option (UInt32 × Heap)
  | 0, _, _, _ => none
  | n + 1, h, prevp, p =>
    if (h.mem p).size ≥ nunits then
      if (h.mem p).size = nunits then
        some (hadd p 1, { h.set prevp { h.mem prevp with ptr := (h.mem p).ptr } with freep := prevp })
      else
        let h := h.set p { h.mem p with size := (h.mem p).size - nunits }
        let q := hadd p (h.mem p).size
        let h := h.set q { h.mem q with size := nunits }
        some (hadd q 1, { h with freep := prevp })
    else if p = h.freep then
      match h.morecore fuel nunits with
      | none => none
      | some (p, h) => if p = 0 then some (0, h) else mallocLoop nunits fuel n h p (h.mem p).ptr
    else mallocLoop nunits fuel n h p (h.mem p).ptr

def malloc (h : Heap) (fuel : Nat) (nbytes : UInt32) : Option (UInt32 × Heap) :=
  let nunits := nunitsOf nbytes
  let h := if h.freep = 0 then { h.set h.base ⟨h.base, 0⟩ with freep := h.base } else h
  mallocLoop nunits fuel fuel h h.freep (h.mem h.freep).ptr

/-- The bytes a block handed out at `a` gives its user: all of it but its header. -/
def usable (h : Heap) (a : UInt32) : Nat := ((h.mem (a - 8)).size.toNat - 1) * 8

/-! ### What `malloc` hands out

Whatever the free list holds, a block `malloc` hands out has exactly `nunits` headers: the loop
either takes a block of that size whole or cuts that many off the end of a bigger one. So the room
it gives is decided by `nunits` alone, and `nunits` is computed in `uint`. -/

theorem hadd_one_sub (p : UInt32) : hadd p 1 - 8 = p := by
  simp [hadd]

theorem toNat_nunitsOf (nbytes : UInt32) :
    (nunitsOf nbytes).toNat = ((nbytes.toNat + 7) % 2 ^ 32) / 8 + 1 := by
  unfold nunitsOf
  rw [UInt32.toNat_add, UInt32.toNat_div, UInt32.toNat_sub, UInt32.toNat_add]
  simp only [UInt32.reduceToNat]
  omega

theorem mallocLoop_size {nunits : UInt32} {fuel : Nat} :
    ∀ {n : Nat} {h : Heap} {prevp p a : UInt32} {h' : Heap}, mallocLoop nunits fuel n h prevp p = some (a, h') →
      a = 0 ∨ (h'.mem (a - 8)).size = nunits
  | 0, _, _, _, _, _, hm => by simp [mallocLoop] at hm
  | n + 1, h, prevp, p, a, h', hm => by
    unfold mallocLoop at hm
    split_ifs at hm with hbig hfit hfree
    · -- the block fits exactly; only `prevp`'s link changes, and not its size
      simp only [Option.some.injEq, Prod.mk.injEq] at hm
      obtain ⟨rfl, rfl⟩ := hm
      right
      simp only [Heap.set, hadd_one_sub, Function.update_apply]
      split_ifs with hp
      · rw [← hp, hfit]
      · exact hfit
    · -- the tail of a bigger block is cut off and given `nunits`
      simp only [Option.some.injEq, Prod.mk.injEq] at hm
      obtain ⟨rfl, rfl⟩ := hm
      right
      simp [Heap.set, hadd_one_sub]
    · -- back at `freep`: the heap grows, or `malloc` gives up
      split at hm
      · cases hm
      · split_ifs at hm
        · simp only [Option.some.injEq, Prod.mk.injEq] at hm
          exact .inl hm.1.symm
        · exact mallocLoop_size hm
    · exact mallocLoop_size hm

theorem malloc_size {h : Heap} {fuel : Nat} {nbytes a : UInt32} {h' : Heap}
    (hm : malloc h fuel nbytes = some (a, h')) : a = 0 ∨ (h'.mem (a - 8)).size = nunitsOf nbytes :=
  mallocLoop_size hm

theorem malloc_usable {h : Heap} {fuel : Nat} {nbytes a : UInt32} {h' : Heap}
    (hn : nbytes.toNat ≤ 0xFFFFFFF8) (hm : malloc h fuel nbytes = some (a, h')) :
    a = 0 ∨ nbytes.toNat ≤ usable h' a := by
  refine (malloc_size hm).imp_right fun hs => ?_
  rw [usable, hs, toNat_nunitsOf]
  omega

/-- A request of `0xFFFFFFF9` bytes or more wraps `nbytes + sizeof(Header) - 1`, so `nunits` is 1
and the block is its header alone. -/
theorem malloc_wraps {h : Heap} {fuel : Nat} {nbytes a : UInt32} {h' : Heap}
    (hn : 0xFFFFFFF9 ≤ nbytes.toNat) (hm : malloc h fuel nbytes = some (a, h')) :
    a = 0 ∨ usable h' a = 0 := by
  refine (malloc_size hm).imp_right fun hs => ?_
  rw [usable, hs, toNat_nunitsOf]
  have := nbytes.toNat_lt
  omega

/-- A fresh heap: `freep` null, `base` at `0x1000`, the break at `0x3000`, room up to `KERNBASE`. -/
def freshHeap : Heap := ⟨fun _ => ⟨0, 0⟩, 0, 0x1000, 0x3000, 0x80000000⟩

/-- `malloc(0xFFFFFFFF)` on a fresh heap: `morecore` grows the heap by 4096 headers and the last of
them is handed out, a pointer to the new break with no byte behind it. -/
theorem malloc_max_at_break :
    ∃ h', malloc freshHeap 8 0xFFFFFFFF = some (0xB000, h') ∧ h'.brk = 0xB000 ∧ usable h' 0xB000 = 0 := by
  obtain ⟨⟨a, h'⟩, hm, rfl, hb, hu⟩ := Option.exists_of_map_decide (o := malloc freshHeap 8 0xFFFFFFFF)
    (p := fun r => r.1 = 0xB000 ∧ r.2.brk = 0xB000 ∧ usable r.2 0xB000 = 0) (by decide +kernel)
  exact ⟨h', hm, hb, hu⟩

/-- `malloc(0xFFFFFFF8)` on a fresh heap: `nunits` is 2^29, `nu * sizeof(Header)` wraps to 0, and
`sbrk(0)` leaves the break at `0x3000`; the block handed out at `0x3008` claims `0xFFFFFFF8`
bytes, all of them past the break. -/
theorem malloc_past_break :
    ∃ h', malloc freshHeap 8 0xFFFFFFF8 = some (0x3008, h') ∧ h'.brk = 0x3000 ∧ usable h' 0x3008 = 0xFFFFFFF8 := by
  obtain ⟨⟨a, h'⟩, hm, rfl, hb, hu⟩ := Option.exists_of_map_decide (o := malloc freshHeap 8 0xFFFFFFF8)
    (p := fun r => r.1 = 0x3008 ∧ r.2.brk = 0x3000 ∧ usable r.2 0x3008 = 0xFFFFFFF8) (by decide +kernel)
  exact ⟨h', hm, hb, hu⟩

end Xv6.Umalloc
