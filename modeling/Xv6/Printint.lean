import Mathlib

/-!
# Printing integers (`printint` of console.c and printf.c)

The kernel's `printint(xx, base, sign)` and the user library's `printint(fd, xx, base, sgn)` are
one loop: the magnitude as a `uint` (for a negative `xx` printed signed, `-xx`, which for
`INT_MIN` wraps to itself and reads as 2^31 once converted), its digits stored into `buf`
least significant first by `buf[i++] = digits[x % base]` until `x /= base` reaches 0, then a
`-`, and `buf` printed backwards. The two copies differ in their table of digits only: lower-case
in the kernel, upper-case in the library. Both are given as the characters they print.

`printintWith` is that loop over a table; the loop runs on fuel, 32 passes being enough for a
`uint` in any base from 2 on. The digits of `Nat.toDigits` are the specification:
`printint_repr` says both copies print the decimal representation of `xx` and the hexadecimal one
of `(uint)xx`, and that `buf` never holds more than its 16 bytes.
-/

namespace Xv6

/-- The `do`-`while` loop of `printint`: what it stores in `buf`, `buf[0]` first, with `k` passes
left. -/
def digitLoop (digits : List Char) (base : UInt32) : Nat → UInt32 → List Char
  | 0, _ => []
  | k + 1, x =>
    let c := digits.getD (x % base).toNat '\x00'
    if x / base ≠ 0 then c :: digitLoop digits base k (x / base) else [c]

/-- The contents of `buf` when `printint` prints it: the digits of the magnitude, then the sign. -/
def printintBuf (digits : List Char) (xx : Int32) (base : UInt32) (sign : Bool) : List Char :=
  let neg := sign && decide (xx < 0)
  let x := if neg then (-xx).toUInt32 else xx.toUInt32
  digitLoop digits base 32 x ++ if neg then ['-'] else []

/-- The characters `printint` prints with the table `digits`: `buf` from its last entry down. -/
def printintWith (digits : List Char) (xx : Int32) (base : UInt32) (sign : Bool) : List Char :=
  (printintBuf digits xx base sign).reverse

namespace Console

/-- `printint(xx, base, sign)` of console.c, printing through `consputc`. -/
def printint (xx : Int32) (base : UInt32) (sign : Bool) : List Char :=
  printintWith "0123456789abcdef".toList xx base sign

end Console

namespace Printf

/-- `printint(fd, xx, base, sgn)` of printf.c, printing through `putc(fd, ...)`. -/
def printint (xx : Int32) (base : UInt32) (sgn : Bool) : List Char :=
  printintWith "0123456789ABCDEF".toList xx base sgn

end Printf

/-! ### The digits -/

section Digits

variable {digits : List Char} {base : UInt32} {g : Char → Char}

/-- With a table that reads `g` of the digit character at each index below the base, the loop
stores the digits of `x` least significant first, as long as the fuel covers them. -/
theorem digitLoop_eq (hb : 2 ≤ base.toNat) (hd : ∀ d < base.toNat, digits.getD d '\x00' = g (Nat.digitChar d)) :
    ∀ (k : Nat) (x : UInt32), x.toNat < base.toNat ^ (k + 1) →
      digitLoop digits base (k + 1) x = ((Nat.toDigits base.toNat x.toNat).map g).reverse := by
  intro k
  -- one digit per pass: induction on the passes left
  induction k with
  | zero =>
    intro x hx
    have hlt : x.toNat < base.toNat := by simpa using hx
    have hq : x / base = 0 := UInt32.toNat_inj.1 (by rw [UInt32.toNat_div, Nat.div_eq_of_lt hlt]; rfl)
    rw [digitLoop, if_neg (not_not.2 hq), UInt32.toNat_mod, hd _ (Nat.mod_lt _ (by omega)),
      Nat.toDigits_of_lt_base hlt, Nat.mod_eq_of_lt hlt]
    rfl
  | succ k ih =>
    intro x hx
    have hdiv : (x / base).toNat = x.toNat / base.toNat := UInt32.toNat_div x base
    rw [digitLoop, UInt32.toNat_mod, hd _ (Nat.mod_lt _ (by omega))]
    by_cases hq : x / base = 0
    · -- one digit left
      have hlt : x.toNat < base.toNat := by
        have : (x / base).toNat = 0 := by rw [hq]; rfl
        rw [hdiv, Nat.div_eq_zero_iff] at this
        omega
      rw [if_neg (not_not.2 hq), Nat.toDigits_of_lt_base hlt, Nat.mod_eq_of_lt hlt]
      rfl
    · -- the last digit, then the digits of `x / base`
      have hge : base.toNat ≤ x.toNat := by
        by_contra hlt
        exact hq (UInt32.toNat_inj.1 (by rw [hdiv, Nat.div_eq_of_lt (by omega)]; rfl))
      have hrest : (x / base).toNat < base.toNat ^ (k + 1) := by
        rw [hdiv, Nat.div_lt_iff_lt_mul (by omega), ← Nat.pow_succ]
        exact hx
      rw [if_pos hq, ih (x / base) hrest, hdiv, Nat.toDigits_of_base_le (by omega) hge]
      simp

theorem toNat_lt_pow_32 (hb : 2 ≤ base.toNat) (x : UInt32) : x.toNat < base.toNat ^ 32 :=
  calc x.toNat < 2 ^ 32 := x.toNat_lt
    _ ≤ base.toNat ^ 32 := Nat.pow_le_pow_left hb 32

theorem digitLoop_eq_toDigits (hb : 2 ≤ base.toNat)
    (hd : ∀ d < base.toNat, digits.getD d '\x00' = g (Nat.digitChar d)) (x : UInt32) :
    digitLoop digits base 32 x = ((Nat.toDigits base.toNat x.toNat).map g).reverse :=
  digitLoop_eq hb hd 31 x (toNat_lt_pow_32 hb x)

end Digits

/-! ### The sign -/

/-- The magnitude of a negative `int`: `-xx` wraps for `INT_MIN`, and converted to `uint` it is
the absolute value all the same. -/
theorem toNat_neg_toUInt32 {xx : Int32} (h : xx < 0) : (-xx).toUInt32.toNat = xx.toInt.natAbs := by
  rw [Int32.lt_iff_toInt_lt] at h
  have h1 : xx.toInt = xx.toBitVec.toInt := rfl
  rw [BitVec.toInt_eq_toNat_cond, Int32.toNat_toBitVec] at h1
  rw [Int32.toUInt32_neg, UInt32.toNat_neg, show UInt32.size = 2 ^ 32 from rfl]
  have := xx.toUInt32.toNat_lt
  simp only [Int32.toInt_zero] at h
  split_ifs at h1 <;> omega

theorem toNat_toUInt32_of_not_neg {xx : Int32} (h : ¬xx < 0) : xx.toUInt32.toNat = xx.toInt.natAbs := by
  rw [Int32.lt_iff_toInt_lt] at h
  have h1 : xx.toInt = xx.toBitVec.toInt := rfl
  rw [BitVec.toInt_eq_toNat_cond, Int32.toNat_toBitVec] at h1
  have := xx.toUInt32.toNat_lt
  simp only [Int32.toInt_zero] at h
  split_ifs at h1 <;> omega

section Print

variable {digits : List Char} {g : Char → Char}

/-- Printed signed in base 10, `xx` comes out as its sign and the decimal digits of its absolute
value; the buffer holds at most 11 of its 16 bytes. -/
theorem printintWith_decimal (hd : ∀ d < 10, digits.getD d '\x00' = g (Nat.digitChar d)) (xx : Int32) :
    printintWith digits xx 10 true =
      (if xx < 0 then ['-'] else []) ++ (Nat.toDigits 10 xx.toInt.natAbs).map g ∧
    (printintBuf digits xx 10 true).length ≤ 16 := by
  have hd10 : ∀ d < (10 : UInt32).toNat, digits.getD d '\x00' = g (Nat.digitChar d) := hd
  have hlen : (Nat.toDigits 10 xx.toInt.natAbs).length ≤ 10 := by
    rw [Nat.length_toDigits_le_iff (by decide) (by decide)]
    have := xx.toInt_lt
    have := xx.le_toInt
    omega
  by_cases hn : xx < 0
  · have hbuf : printintBuf digits xx 10 true =
        ((Nat.toDigits 10 xx.toInt.natAbs).map g).reverse ++ ['-'] := by
      simp only [printintBuf, Bool.true_and, decide_eq_true hn, if_true]
      rw [digitLoop_eq_toDigits (by decide) hd10, toNat_neg_toUInt32 hn]
      rfl
    refine ⟨?_, ?_⟩
    · rw [printintWith, hbuf, if_pos hn]
      simp
    · rw [hbuf]
      simp only [List.length_append, List.length_reverse, List.length_map, List.length_singleton]
      omega
  · have hbuf : printintBuf digits xx 10 true = ((Nat.toDigits 10 xx.toInt.natAbs).map g).reverse := by
      simp only [printintBuf, Bool.true_and, decide_eq_false hn, Bool.false_eq_true, if_false, List.append_nil]
      rw [digitLoop_eq_toDigits (by decide) hd10, toNat_toUInt32_of_not_neg hn]
      rfl
    refine ⟨?_, ?_⟩
    · rw [printintWith, hbuf, if_neg hn]
      simp
    · rw [hbuf]
      simp only [List.length_reverse, List.length_map]
      omega

/-- Printed unsigned in base 16, `xx` comes out as the hexadecimal digits of `(uint)xx`; the
buffer holds at most 8 of its 16 bytes. -/
theorem printintWith_hex (hd : ∀ d < 16, digits.getD d '\x00' = g (Nat.digitChar d)) (xx : Int32) :
    printintWith digits xx 16 false = (Nat.toDigits 16 xx.toUInt32.toNat).map g ∧
    (printintBuf digits xx 16 false).length ≤ 16 := by
  have hd16 : ∀ d < (16 : UInt32).toNat, digits.getD d '\x00' = g (Nat.digitChar d) := hd
  have hbuf : printintBuf digits xx 16 false = ((Nat.toDigits 16 xx.toUInt32.toNat).map g).reverse := by
    simp only [printintBuf, Bool.false_and, Bool.false_eq_true, if_false, List.append_nil]
    exact digitLoop_eq_toDigits (by decide) hd16 _
  have hlen : (Nat.toDigits 16 xx.toUInt32.toNat).length ≤ 8 := by
    rw [Nat.length_toDigits_le_iff (by decide) (by decide)]
    exact xx.toUInt32.toNat_lt
  refine ⟨by rw [printintWith, hbuf, List.reverse_reverse], ?_⟩
  rw [hbuf]
  simp only [List.length_reverse, List.length_map]
  omega

end Print

theorem lower_table : ∀ d < 16, "0123456789abcdef".toList.getD d '\x00' = id (Nat.digitChar d) := by
  decide

theorem upper_table : ∀ d < 16, "0123456789ABCDEF".toList.getD d '\x00' = (Nat.digitChar d).toUpper := by
  decide

theorem upper_table_decimal : ∀ d < 10, "0123456789ABCDEF".toList.getD d '\x00' = id (Nat.digitChar d) := by
  decide

/-- Both copies of `printint` print every `int`, `INT_MIN` included, in decimal with a `-` exactly
when it is negative, and print `(uint)xx` in hexadecimal without leading zeros (upper-case in the
library); neither stores more than the 16 bytes of `buf`. -/
theorem printint_repr (xx : Int32) :
    Console.printint xx 10 true = (if xx < 0 then ['-'] else []) ++ Nat.toDigits 10 xx.toInt.natAbs ∧
    Printf.printint xx 10 true = (if xx < 0 then ['-'] else []) ++ Nat.toDigits 10 xx.toInt.natAbs ∧
    Console.printint xx 16 false = Nat.toDigits 16 xx.toUInt32.toNat ∧
    Printf.printint xx 16 false = (Nat.toDigits 16 xx.toUInt32.toNat).map Char.toUpper ∧
    ∀ (base : UInt32) (sign : Bool), (base = 10 ∧ sign = true) ∨ (base = 16 ∧ sign = false) →
      (printintBuf "0123456789abcdef".toList xx base sign).length ≤ 16 ∧
      (printintBuf "0123456789ABCDEF".toList xx base sign).length ≤ 16 := by
  obtain ⟨hl10, hbl10⟩ := printintWith_decimal (fun d hd => lower_table d (by omega)) xx
  obtain ⟨hu10, hbu10⟩ := printintWith_decimal upper_table_decimal xx
  obtain ⟨hl16, hbl16⟩ := printintWith_hex lower_table xx
  obtain ⟨hu16, hbu16⟩ := printintWith_hex upper_table xx
  rw [List.map_id] at hl10 hu10 hl16
  refine ⟨hl10, hu10, hl16, hu16, ?_⟩
  rintro base sign (⟨rfl, rfl⟩ | ⟨rfl, rfl⟩)
  exacts [⟨hbl10, hbu10⟩, ⟨hbl16, hbu16⟩]

example : Console.printint (-2147483648) 10 true = "-2147483648".toList := by decide

end Xv6
