import Xv6.Lib.Word

/-!
# Moving and filling memory (`string.c`, `ulib.c`)

The kernel's `memset` fills a region with `rep stosl` when the destination and the count are
multiples of four, its byte pattern replicated into a word, and with `rep stosb` otherwise. Its
`memmove` copies backwards exactly when the source lies below the destination and reaches into it,
and forwards otherwise. The user library's `memmove` always copies forwards.

Memory is the byte at each 32-bit address; `Word.fill` and `Word.copy` say what a fill and a copy
leave there. A loop of single-byte stores is one of them as long as no store lands where a later
pass reads (`copyUp_eq`, `copyDown_eq`): forwards that means no source byte above a written one
sits at a destination byte already written, backwards the mirror image. The kernel's choice of
direction meets that for every pair of ranges that do not wrap (`memmove_eq_copy`); the library's
forward copy does not when the destination starts inside the source (`ulib_memmove_overlap`).
-/

namespace Xv6

/-! ### The fill -/

/-- `rep stosb`: `cnt` bytes, each the low byte of `eax`, from `addr` up. -/
def stosb (m : UInt32 → UInt8) (addr data : UInt32) : Nat → UInt32 → UInt8
  | 0 => m
  | cnt + 1 => stosb (Function.update m addr data.toUInt8) (addr + 1) data cnt

/-- `rep stosl`: `cnt` little-endian words `data` from `addr` up. -/
def stosl (m : UInt32 → UInt8) (addr data : UInt32) : Nat → UInt32 → UInt8
  | 0 => m
  | cnt + 1 => stosl (Word.store m addr data) (addr + 4) data cnt

/-- `memset(dst, c, n)`: `(int)dst % 4` is the remainder of a signed division, as in C. -/
def memset (m : UInt32 → UInt8) (dst : UInt32) (c : Int32) (n : UInt32) : UInt32 → UInt8 :=
  if dst.toInt32 % 4 = 0 ∧ n % 4 = 0 then
    let c := c &&& 0xFF
    stosl m dst ((c <<< 24) ||| (c <<< 16) ||| (c <<< 8) ||| c).toUInt32 (n / 4).toNat
  else stosb m dst c.toUInt32 n.toNat

section Fill

variable {m : UInt32 → UInt8} {addr data : UInt32}

theorem stosb_eq_fill : ∀ {cnt : Nat} {m : UInt32 → UInt8} {addr : UInt32}, cnt ≤ 2 ^ 32 →
    stosb m addr data cnt = Word.fill m addr cnt data.toUInt8
  | 0, m, addr, _ => by
    funext x
    simp [stosb, Word.fill]
  | cnt + 1, m, addr, h => by
    rw [stosb, stosb_eq_fill (by omega), Word.update_eq_fill, show addr + 1 = addr + (1 : Nat).toUInt32 from rfl,
      Word.fill_fill (by omega), Nat.add_comm]

theorem stosl_eq_fill {v : UInt8} (h0 : data.toUInt8 = v) (h1 : (data >>> 8).toUInt8 = v)
    (h2 : (data >>> 16).toUInt8 = v) (h3 : (data >>> 24).toUInt8 = v) :
    ∀ {cnt : Nat} {m : UInt32 → UInt8} {addr : UInt32}, 4 * cnt ≤ 2 ^ 32 →
      stosl m addr data cnt = Word.fill m addr (4 * cnt) v
  | 0, m, addr, _ => by
    funext x
    simp [stosl, Word.fill]
  | cnt + 1, m, addr, h => by
    rw [stosl, stosl_eq_fill h0 h1 h2 h3 (by omega), Word.store_eq_fill h0 h1 h2 h3,
      show addr + 4 = addr + (4 : Nat).toUInt32 from rfl, Word.fill_fill (by omega)]
    congr 1
    omega

/-- The word `memset` stores, for each value of `c & 0xFF`: four copies of that byte. -/
theorem pattern_bytes : ∀ k < 256,
    let d : Int32 := Int32.ofNat k
    let w := ((d <<< 24) ||| (d <<< 16) ||| (d <<< 8) ||| d).toUInt32
    w.toUInt8 = k.toUInt8 ∧ (w >>> 8).toUInt8 = k.toUInt8 ∧ (w >>> 16).toUInt8 = k.toUInt8 ∧
      (w >>> 24).toUInt8 = k.toUInt8 := by
  decide +kernel

theorem and_0xFF (c : Int32) : c &&& 0xFF = Int32.ofNat (c.toUInt32.toNat % 256) := by
  suffices h : (c &&& 0xFF).toUInt32 = (Int32.ofNat (c.toUInt32.toNat % 256)).toUInt32 from
    Int32.toBitVec_inj.1 (congrArg UInt32.toBitVec h)
  rw [Int32.toUInt32_and, Int32.toUInt32_ofNat']
  apply UInt32.toNat_inj.1
  rw [UInt32.toNat_and, UInt32.toNat_ofNat', show (Int32.toUInt32 0xFF).toNat = 2 ^ 8 - 1 from rfl,
    Nat.and_two_pow_sub_one_eq_mod]
  have := Nat.mod_lt c.toUInt32.toNat (show 0 < 256 by decide)
  omega

theorem toUInt8_toUInt32 (c : Int32) : c.toUInt32.toUInt8 = (c.toUInt32.toNat % 256).toUInt8 := by
  apply UInt8.toNat_inj.1
  simp only [UInt32.toNat_toUInt8, Nat.toUInt8, UInt8.toNat_ofNat']
  omega

end Fill

/-- Both paths of `memset` set `dst[0..n)` to `(uchar)c` and leave every other byte: the word path
because its pattern is four copies of `c & 0xFF`, whatever the sign of `(int)dst`. -/
theorem memset_eq_fill (m : UInt32 → UInt8) (dst : UInt32) (c : Int32) (n : UInt32) :
    memset m dst c n = Word.fill m dst n.toNat c.toUInt32.toUInt8 := by
  have hn := n.toNat_lt
  unfold memset
  split_ifs with hw
  · -- `rep stosl` of `n / 4` words
    obtain ⟨h0, h1, h2, h3⟩ := pattern_bytes (c.toUInt32.toNat % 256) (Nat.mod_lt _ (by decide))
    rw [← and_0xFF, ← toUInt8_toUInt32] at h0 h1 h2 h3
    have h4 : n.toNat % 4 = 0 := by
      have := congrArg UInt32.toNat hw.2
      rwa [UInt32.toNat_mod] at this
    have hdiv : (n / 4).toNat = n.toNat / 4 := by
      rw [UInt32.toNat_div]
      rfl
    rw [stosl_eq_fill h0 h1 h2 h3 (by rw [hdiv]; omega), hdiv]
    congr 1
    omega
  · -- `rep stosb` of `n` bytes
    exact stosb_eq_fill (by omega)

/-! ### The copies -/

/-- `while(n-- > 0) *d++ = *s++;`, `k` passes left. -/
def copyUp (m : UInt32 → UInt8) : Nat → UInt32 → UInt32 → UInt32 → UInt8
  | 0, _, _ => m
  | k + 1, d, s => copyUp (Function.update m d (m s)) k (d + 1) (s + 1)

/-- `while(n-- > 0) *--d = *--s;`, `k` passes left, `d` and `s` past the ends. -/
def copyDown (m : UInt32 → UInt8) : Nat → UInt32 → UInt32 → UInt32 → UInt8
  | 0, _, _ => m
  | k + 1, d, s => copyDown (Function.update m (d - 1) (m (s - 1))) k (d - 1) (s - 1)

/-- `memmove(dst, src, n)` of string.c. -/
def memmove (m : UInt32 → UInt8) (dst src n : UInt32) : UInt32 → UInt8 :=
  if src < dst ∧ src + n > dst then copyDown m n.toNat (dst + n) (src + n)
  else copyUp m n.toNat dst src

namespace Ulib

/-- `memmove(vdst, vsrc, n)` of ulib.c, for an `int` count. -/
def memmove (m : UInt32 → UInt8) (vdst vsrc : UInt32) (n : Int32) : UInt32 → UInt8 :=
  copyUp m n.toInt.toNat vdst vsrc

end Ulib

section Copy

/-- A forward copy in which no byte is written where a later pass reads copies the source as it
was. -/
theorem copyUp_eq : ∀ {k : Nat} {m : UInt32 → UInt8} {d s : UInt32}, k < 2 ^ 32 →
    (∀ i j, i < j → j < k → d + i.toUInt32 ≠ s + j.toUInt32) →
    copyUp m k d s = Word.copy m d (Word.bytes m s k)
  | 0, m, d, s, _, _ => by
    funext x
    simp [copyUp, Word.copy, Word.bytes]
  | k + 1, m, d, s, hk, hw => by
    -- the first pass writes `d`, which no later pass reads
    have hread : Word.bytes (Function.update m d (m s)) (s + 1) k = Word.bytes m (s + 1) k := by
      refine Word.bytes_congr fun j hj => Function.update_of_ne (fun e => ?_) _ _
      have h0 := hw 0 (j + 1) (by omega) (by omega)
      rw [show (0 : Nat).toUInt32 = 0 from rfl, UInt32.add_zero, ← Word.add_one_add] at h0
      exact h0 e.symm
    have hw' : ∀ i j, i < j → j < k → d + 1 + i.toUInt32 ≠ s + 1 + j.toUInt32 := by
      intro i j hij hj
      rw [Word.add_one_add, Word.add_one_add]
      exact hw (i + 1) (j + 1) (by omega) (by omega)
    rw [copyUp, copyUp_eq (by omega) hw', hread, Word.copy_cons (by simp; omega), ← Word.bytes_succ]

/-- A backward copy in which no byte is written where a later pass reads copies the source as it
was. -/
theorem copyDown_eq : ∀ {k : Nat} {m : UInt32 → UInt8} {d s : UInt32}, k < 2 ^ 32 →
    (∀ i j, j < i → i < k → d + i.toUInt32 ≠ s + j.toUInt32) →
    copyDown m k (d + k.toUInt32) (s + k.toUInt32) = Word.copy m d (Word.bytes m s k)
  | 0, m, d, s, _, _ => by
    funext x
    simp [copyDown, Word.copy, Word.bytes]
  | k + 1, m, d, s, hk, hw => by
    have hsub : ∀ a : UInt32, a + (k + 1).toUInt32 - 1 = a + k.toUInt32 := fun a => by
      simp only [Nat.toUInt32, UInt32.ofNat_add, UInt32.ofNat_one]
      rw [← UInt32.add_assoc, UInt32.add_sub_cancel]
    -- the first pass writes `d + k`, which no later pass reads
    have hread : Word.bytes (Function.update m (d + k.toUInt32) (m (s + k.toUInt32))) s k = Word.bytes m s k :=
      Word.bytes_congr fun j hj => Function.update_of_ne (fun e => hw k j hj (by omega) e.symm) _ _
    have hc := @Word.copy_concat m d (m (s + k.toUInt32)) (Word.bytes m s k) (by simp; omega)
    rw [Word.length_bytes] at hc
    rw [copyDown, hsub, hsub, copyDown_eq (by omega) fun i j hij hi => hw i j hij (by omega), hread, hc,
      ← Word.bytes_concat]

end Copy

/-- For ranges that do not wrap the address space, the kernel's `memmove` leaves `dst[0..n)` equal
to the old `src[0..n)` and every other byte as it was, overlapping or not. -/
theorem memmove_eq_copy (m : UInt32 → UInt8) (dst src n : UInt32) (hs : src.toNat + n.toNat ≤ 2 ^ 32)
    (hd : dst.toNat + n.toNat ≤ 2 ^ 32) : memmove m dst src n = Word.copy m dst (Word.bytes m src n.toNat) := by
  have hn := n.toNat_lt
  have hadd : ∀ (a : UInt32) (i : Nat), a.toNat + i < 2 ^ 32 → (a + i.toUInt32).toNat = a.toNat + i := by
    intro a i h
    simp only [UInt32.toNat_add, Nat.toUInt32, UInt32.toNat_ofNat']
    omega
  unfold memmove
  split_ifs with hb
  · -- backwards: the source starts below the destination, so a pass reads below every byte written
    obtain ⟨hlt, hgt⟩ := hb
    rw [gt_iff_lt] at hgt
    rw [UInt32.lt_iff_toNat_lt] at hlt hgt
    have hend : src.toNat + n.toNat < 2 ^ 32 := by
      rw [UInt32.toNat_add] at hgt
      by_contra hc
      have : (src.toNat + n.toNat) % 2 ^ 32 = 0 := by rw [show src.toNat + n.toNat = 2 ^ 32 by omega]; rfl
      omega
    have e : ∀ a : UInt32, a + n = a + n.toNat.toUInt32 := fun a => by rw [Nat.toUInt32, UInt32.ofNat_toNat]
    rw [e, e]
    refine copyDown_eq hn fun i j hji hi he => ?_
    have := congrArg UInt32.toNat he
    rw [hadd dst i (by omega), hadd src j (by omega)] at this
    omega
  · -- forwards: the destination starts at or below the source, or past its end
    rw [not_and_or, gt_iff_lt, UInt32.not_lt, UInt32.not_lt, UInt32.le_iff_toNat_le, UInt32.le_iff_toNat_le,
      UInt32.toNat_add] at hb
    refine copyUp_eq hn fun i j hij hj he => ?_
    have := congrArg UInt32.toNat he
    rw [hadd dst i (by omega), hadd src j (by omega)] at this
    rcases hb with hb | hb
    · omega
    · by_cases hwrap : src.toNat + n.toNat = 2 ^ 32
      · omega
      · rw [Nat.mod_eq_of_lt (by omega)] at hb
        omega

/-- Bytes `0, 1, 2` at addresses `0, 1, 2`. -/
def ramp : UInt32 → UInt8 := fun a => a.toUInt8

/-- The library's `memmove(1, 0, 2)`, whose destination starts inside its source: the first pass
overwrites `src[1]` before the second reads it, so `dst[1]` gets `0`, not the old `src[1] = 1`. -/
theorem ulib_memmove_overlap :
    Ulib.memmove ramp 1 0 2 2 = 0 ∧ Word.copy ramp 1 (Word.bytes ramp 0 2) 2 = 1 := by
  decide

end Xv6
