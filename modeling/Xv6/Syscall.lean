import Xv6.Memlayout
import Xv6.Param

/-!
# System-call arguments (`syscall.c`)

The kernel reads a system call's arguments from the caller's user stack. `fetchint` and `fetchstr`
check an address against the process size `sz` in 32-bit unsigned arithmetic; `argint`, `argptr` and
`argstr` fetch the `n`-th argument word above the saved user stack pointer. The process is seen as
the fetchers see it: its size, its saved stack pointer, and the byte at every user address (the
fetchers only dereference addresses below `sz`).
-/

namespace Xv6

/-- What the argument fetchers read of the calling process. -/
structure UserCtx where
  /-- `curproc->sz`. -/
  sz : UInt32
  /-- `curproc->tf->esp`. -/
  esp : UInt32
  /-- The byte at each user address. -/
  mem : UInt32 → UInt8

namespace UserCtx

/-- The little-endian 32-bit word at `addr`, `*(int*)addr` before its sign is read. -/
def word (u : UserCtx) (addr : UInt32) : UInt32 :=
  (u.mem addr).toUInt32 + (u.mem (addr + 1)).toUInt32 * 256 +
    (u.mem (addr + 2)).toUInt32 * 65536 + (u.mem (addr + 3)).toUInt32 * 16777216

end UserCtx

/-- `fetchint(addr, ip)`: the int at `addr`, when `addr` and `addr + 4` lie within `sz`. -/
def fetchint (u : UserCtx) (addr : UInt32) : Option Int :=
  if addr ≥ u.sz ∨ addr + 4 > u.sz then none else some (u.word addr).toInt32.toInt

/-- `fetchstr(addr, pp)`: the length of the NUL-terminated string at `addr`, when its terminator
lies below `sz`. -/
def fetchstr (u : UserCtx) (addr : UInt32) : Option Nat :=
  if addr ≥ u.sz then none
  else (List.range (u.sz - addr).toNat).find? fun k => u.mem (addr + k.toUInt32) = 0

/-- `argint(n, ip)`: the `n`-th argument word, at `esp + 4 + 4*n`. -/
def argint (u : UserCtx) (n : Nat) : Option Int :=
  fetchint u (u.esp + 4 + 4 * n.toUInt32)

/-- `argptr(n, pp, size)`: the `n`-th argument as the address of `size` bytes of the process. -/
def argptr (u : UserCtx) (n : Nat) (size : Int) : Option UInt32 := do
  let i ← argint u n
  if size < 0 ∨ UInt32.ofInt i ≥ u.sz ∨ UInt32.ofInt i + UInt32.ofInt size > u.sz then none
  else some (UInt32.ofInt i)

/-- `argstr(n, pp)`: the `n`-th argument as a NUL-terminated string, its address and length. -/
def argstr (u : UserCtx) (n : Nat) : Option (UInt32 × Nat) := do
  let addr ← argint u n
  let len ← fetchstr u (UInt32.ofInt addr)
  pure (UInt32.ofInt addr, len)

/-! ### What the fetchers accept

A process is never larger than `KERNBASE` = 2^31, so an address below `sz` plus a count below 2^31
stays below 2^32: the 32-bit sums in the checks are the exact ones, and nothing accepted reaches
past `sz`. -/

section Checks

variable {u : UserCtx}

theorem toNat_ofInt (x : Int) : (UInt32.ofInt x).toNat = (x % 2 ^ 32).toNat := by
  simp only [UInt32.ofInt, UInt32.toNat_ofNat']
  omega

theorem toNat_add_of_lt_sz {a b : UInt32} (hsz : u.sz ≤ KERNBASE) (ha : a < u.sz) (hb : b.toNat < 2 ^ 31) :
    (a + b).toNat = a.toNat + b.toNat := by
  rw [UInt32.le_iff_toNat_le] at hsz
  rw [UInt32.lt_iff_toNat_lt] at ha
  have hk : KERNBASE.toNat = 2 ^ 31 := by decide
  rw [UInt32.toNat_add]
  omega

theorem fetchint_some {addr : UInt32} {v : Int} (hsz : u.sz ≤ KERNBASE) (h : fetchint u addr = some v) :
    addr.toNat + 4 ≤ u.sz.toNat ∧ v = (u.word addr).toInt32.toInt := by
  unfold fetchint at h
  split_ifs at h with hout
  rw [not_or, UInt32.not_le, UInt32.not_lt] at hout
  obtain ⟨hlt, hle⟩ := hout
  have hsum := toNat_add_of_lt_sz (b := 4) hsz hlt (by decide)
  rw [UInt32.le_iff_toNat_le, hsum] at hle
  exact ⟨hle, (Option.some.inj h).symm⟩

theorem argptr_some {n : Nat} {size : Int32} {p : UInt32} (hsz : u.sz ≤ KERNBASE)
    (h : argptr u n size.toInt = some p) :
    ∃ i, argint u n = some i ∧ p = UInt32.ofInt i ∧ 0 ≤ size.toInt ∧ (p.toNat : Int) + size.toInt ≤ u.sz.toNat := by
  unfold argptr at h
  rw [Option.bind_eq_bind, Option.bind_eq_some_iff] at h
  obtain ⟨i, hi, h⟩ := h
  split_ifs at h with hout
  obtain rfl := (Option.some.inj h).symm
  rw [not_or, not_or, Int.not_lt, UInt32.not_le, UInt32.not_lt] at hout
  obtain ⟨h0, hlt, hle⟩ := hout
  -- an `int` size is below 2^31, so `(uint)i + size` is the exact sum
  have hs := size.toInt_lt
  have hsize : (UInt32.ofInt size.toInt).toNat = size.toInt.toNat := by
    rw [toNat_ofInt]
    omega
  have hsum := toNat_add_of_lt_sz (b := UInt32.ofInt size.toInt) hsz hlt (by omega)
  rw [UInt32.le_iff_toNat_le, hsum, hsize] at hle
  exact ⟨i, hi, rfl, h0, by omega⟩

theorem fetchstr_some {addr : UInt32} {len : Nat} (h : fetchstr u addr = some len) :
    addr < u.sz ∧ addr.toNat + len < u.sz.toNat ∧ u.mem (addr + len.toUInt32) = 0 ∧
      ∀ k < len, u.mem (addr + k.toUInt32) ≠ 0 := by
  unfold fetchstr at h
  split_ifs at h with hge
  rw [UInt32.not_le] at hge
  rw [List.find?_range_eq_some] at h
  obtain ⟨hnul, hlen, hfirst⟩ := h
  have hsub : (u.sz - addr).toNat = u.sz.toNat - addr.toNat := UInt32.toNat_sub_of_le _ _ (UInt32.le_of_lt hge)
  rw [List.mem_range, hsub] at hlen
  refine ⟨hge, by omega, by simpa using hnul, fun k hk => ?_⟩
  simpa using hfirst k hk

end Checks

/-- For a process no larger than `KERNBASE`, whatever its stack and memory hold, the fetchers accept
nothing beyond `sz`, the sums taken as integers: `fetchint` needs `addr + 4 ≤ sz`, `argptr` a
nonnegative size with `(uint)i + size ≤ sz`, and `fetchstr` a NUL below `sz`, the first one, whose
distance it returns. -/
theorem arg_validators_within_sz (u : UserCtx) (hsz : u.sz ≤ KERNBASE) :
    (∀ addr v, fetchint u addr = some v → addr.toNat + 4 ≤ u.sz.toNat) ∧
    (∀ n (size : Int32) p, argptr u n size.toInt = some p →
      ∃ i, argint u n = some i ∧ p = UInt32.ofInt i ∧ 0 ≤ size.toInt ∧
        ((UInt32.ofInt i).toNat : Int) + size.toInt ≤ u.sz.toNat) ∧
    (∀ addr len, fetchstr u addr = some len →
      addr < u.sz ∧ addr.toNat + len < u.sz.toNat ∧ u.mem (addr + len.toUInt32) = 0 ∧
        ∀ k < len, u.mem (addr + k.toUInt32) ≠ 0) := by
  refine ⟨fun addr v h => (fetchint_some hsz h).1, fun n size p h => ?_, fun addr len h => fetchstr_some h⟩
  obtain ⟨i, hi, rfl, h0, hle⟩ := argptr_some hsz h
  exact ⟨i, hi, rfl, h0, hle⟩

/-- A process of one page, its stack pointer near the top. -/
def onePage : UserCtx := ⟨4096, 4000, fun _ => 0⟩

theorem arg_validators_within_sz_page :
    onePage.sz ≤ KERNBASE ∧
    (∀ addr v, fetchint onePage addr = some v → addr.toNat + 4 ≤ onePage.sz.toNat) ∧
    (∀ n (size : Int32) p, argptr onePage n size.toInt = some p →
      ∃ i, argint onePage n = some i ∧ p = UInt32.ofInt i ∧ 0 ≤ size.toInt ∧
        ((UInt32.ofInt i).toNat : Int) + size.toInt ≤ onePage.sz.toNat) ∧
    (∀ addr len, fetchstr onePage addr = some len →
      addr < onePage.sz ∧ addr.toNat + len < onePage.sz.toNat ∧ onePage.mem (addr + len.toUInt32) = 0 ∧
        ∀ k < len, onePage.mem (addr + k.toUInt32) ≠ 0) :=
  ⟨by decide, arg_validators_within_sz onePage (by decide)⟩

end Xv6
