import Mathlib.Data.Nat.Bitwise

/-!
# 32-bit words and byte-addressed memory

Kernel code takes words apart with masks and shifts and puts them together with `|`; these lemmas
say what that does to the value (`toNat`): a mask of high bits rounds down, a shifted mask
extracts a field, `|` of fields in disjoint bits adds them, and an `&` with one bit tests it. A
byte's bits are tested, set and cleared with the mask `1 << i`, as a bitmap does.

Memory is a function from 32-bit addresses to bytes. `load` and `store` read and write a
little-endian word at four consecutive (wrapping) addresses, `fill` is `memset` and `copy` is
`memmove` of a list of bytes. Each is evaluated by one lemma for the addresses it writes and one
for those it leaves alone; `load_congr` turns the second kind into a statement about words.
`Outside` says that writes stayed inside a list of pages.
-/

namespace Word

/-! ### Bit fields -/

theorem nat_and_mask_high (x c n m : Nat) (hc : c % 2 ^ n = 0) (hc' : c / 2 ^ n = 2 ^ m - 1)
    (hx : x < 2 ^ (n + m)) : x &&& c = x / 2 ^ n * 2 ^ n := by
  have hmod : (x &&& c) % 2 ^ n = 0 := by
    rw [Nat.and_mod_two_pow, hc, Nat.and_zero]
  have hdiv : (x &&& c) / 2 ^ n = x / 2 ^ n := by
    rw [Nat.and_div_two_pow, hc', Nat.and_two_pow_sub_one_eq_mod]
    apply Nat.mod_eq_of_lt
    rw [Nat.div_lt_iff_lt_mul (Nat.two_pow_pos n), ← Nat.pow_add, Nat.add_comm]
    exact hx
  rw [← Nat.div_add_mod (x &&& c) (2 ^ n), hmod, hdiv, Nat.add_zero, Nat.mul_comm]

theorem toNat_and_not (x c : UInt32) (n : Nat) (hc : (~~~c).toNat % 2 ^ n = 0)
    (hc' : (~~~c).toNat / 2 ^ n = 2 ^ (32 - n) - 1) (hn : n ≤ 32) :
    (x &&& ~~~c).toNat = x.toNat / 2 ^ n * 2 ^ n := by
  rw [UInt32.toNat_and]
  exact nat_and_mask_high _ _ n (32 - n) hc hc' (by rw [Nat.add_sub_cancel' hn]; exact x.toNat_lt)

theorem toNat_shiftRight_and (x s c : UInt32) (m : Nat) (hs : s.toNat < 32) (hc : c.toNat = 2 ^ m - 1) :
    (x >>> s &&& c).toNat = x.toNat / 2 ^ s.toNat % 2 ^ m := by
  rw [UInt32.toNat_and, UInt32.toNat_shiftRight, Nat.mod_eq_of_lt hs, Nat.shiftRight_eq_div_pow, hc,
    Nat.and_two_pow_sub_one_eq_mod]

theorem toNat_or_of_lt (x y : UInt32) (n : Nat) (hx : x.toNat % 2 ^ n = 0) (hy : y.toNat < 2 ^ n) :
    (x ||| y).toNat = x.toNat + y.toNat := by
  rw [UInt32.toNat_or]
  have hx' : x.toNat = 2 ^ n * (x.toNat / 2 ^ n) := by
    have := Nat.div_add_mod x.toNat (2 ^ n)
    omega
  rw [hx', ← Nat.two_pow_add_eq_or_of_lt hy]

theorem and_two_pow_ne_zero (x : UInt32) (c : UInt32) (i : Nat) (hc : c.toNat = 2 ^ i) :
    x &&& c ≠ 0 ↔ x.toNat / 2 ^ i % 2 = 1 := by
  rw [Ne, ← UInt32.toNat_inj, UInt32.toNat_and, hc, Nat.and_two_pow, Nat.testBit_eq_decide_div_mod_eq]
  by_cases h : x.toNat / 2 ^ i % 2 = 1 <;> simp [h]

theorem or_and_self (x y : UInt32) : (x ||| y) &&& y = y := by
  apply UInt32.toNat_inj.1
  rw [UInt32.toNat_and, UInt32.toNat_or]
  apply Nat.eq_of_testBit_eq
  intro i
  rw [Nat.testBit_and, Nat.testBit_or]
  cases x.toNat.testBit i <;> cases y.toNat.testBit i <;> rfl

/-! ### Bits of a byte -/

theorem toNat_bit {i : Nat} (hi : i < 8) : ((1 : UInt8) <<< i.toUInt8).toNat = 2 ^ i := by
  have hi' : i.toUInt8.toNat = i := by
    rw [Nat.toUInt8, UInt8.toNat_ofNat']
    omega
  rw [UInt8.toNat_shiftLeft, hi', UInt8.toNat_one, Nat.mod_eq_of_lt hi, Nat.one_shiftLeft]
  exact Nat.mod_eq_of_lt (Nat.pow_lt_pow_right (by decide) hi)

theorem and_bit_ne_zero (x : UInt8) {i : Nat} (hi : i < 8) :
    x &&& (1 <<< i.toUInt8) ≠ 0 ↔ x.toNat.testBit i := by
  rw [Ne, ← UInt8.toNat_inj, UInt8.toNat_and, toNat_bit hi, Nat.and_two_pow]
  by_cases h : x.toNat.testBit i <;> simp [h]

theorem testBit_or_bit (x : UInt8) {i : Nat} (hi : i < 8) (j : Nat) :
    (x ||| (1 <<< i.toUInt8)).toNat.testBit j = (x.toNat.testBit j || decide (i = j)) := by
  rw [UInt8.toNat_or, toNat_bit hi, Nat.testBit_or, Nat.testBit_two_pow]

theorem testBit_and_not_bit (x : UInt8) {i j : Nat} (hi : i < 8) (hj : j < 8) :
    (x &&& ~~~(1 <<< i.toUInt8)).toNat.testBit j = (x.toNat.testBit j && !decide (i = j)) := by
  have hm : ((1 : UInt8) <<< i.toUInt8).toNat.testBit j = decide (i = j) := by
    rw [toNat_bit hi, Nat.testBit_two_pow]
  rw [← UInt8.toNat_toBitVec, BitVec.testBit_toNat, UInt8.toBitVec_and, UInt8.toBitVec_not,
    BitVec.getLsbD_and, BitVec.getLsbD_not, ← BitVec.testBit_toNat, ← BitVec.testBit_toNat,
    UInt8.toNat_toBitVec, UInt8.toNat_toBitVec, hm]
  simp [hj]

/-! ### Memory -/

variable {m : UInt32 → UInt8}

/-- The little-endian word at `a`. -/
def load (m : UInt32 → UInt8) (a : UInt32) : UInt32 :=
  (m a).toUInt32 + (m (a + 1)).toUInt32 * 256 + (m (a + 2)).toUInt32 * 65536 +
    (m (a + 3)).toUInt32 * 16777216

/-- Write the word `w` at `a`, little-endian. -/
def store (m : UInt32 → UInt8) (a w : UInt32) : UInt32 → UInt8 := fun x =>
  if x = a then w.toUInt8
  else if x = a + 1 then (w >>> 8).toUInt8
  else if x = a + 2 then (w >>> 16).toUInt8
  else if x = a + 3 then (w >>> 24).toUInt8
  else m x

/-- `memset(a, v, n)`. -/
def fill (m : UInt32 → UInt8) (a : UInt32) (n : Nat) (v : UInt8) : UInt32 → UInt8 := fun x =>
  if (x - a).toNat < n then v else m x

/-- `memmove(a, bs, bs.length)`. -/
def copy (m : UInt32 → UInt8) (a : UInt32) (bs : List UInt8) : UInt32 → UInt8 := fun x =>
  if h : (x - a).toNat < bs.length then bs[(x - a).toNat] else m x

theorem load_congr {m' : UInt32 → UInt8} {a : UInt32}
    (h : ∀ j : UInt32, j < 4 → m (a + j) = m' (a + j)) : load m a = load m' a := by
  have h0 := h 0 (by decide)
  rw [UInt32.add_zero] at h0
  unfold load
  rw [h0, h 1 (by decide), h 2 (by decide), h 3 (by decide)]

theorem store_apply_of_le {a w x : UInt32} (hx : 4 ≤ (x - a).toNat) : store m a w x = m x := by
  have ne : ∀ j : UInt32, j.toNat < 4 → x ≠ a + j := by
    rintro j hj rfl
    simp only [UInt32.toNat_sub, UInt32.toNat_add] at hx
    have := a.toNat_lt
    omega
  unfold store
  have ne0 : x ≠ a := by simpa using ne 0 (by decide)
  rw [if_neg ne0, if_neg (ne 1 (by decide)), if_neg (ne 2 (by decide)), if_neg (ne 3 (by decide))]

theorem load_store_self (a w : UInt32) : load (store m a w) a = w := by
  have ne : ∀ i j : UInt32, i ≠ j → a + i ≠ a + j := fun i j hij e => hij (by simpa using e)
  have ne0 : ∀ i : UInt32, i ≠ 0 → a + i ≠ a := fun i hi e => hi (by simpa using e)
  have e0 : store m a w a = w.toUInt8 := if_pos rfl
  have e1 : store m a w (a + 1) = (w >>> 8).toUInt8 := by
    rw [store, if_neg (ne0 1 (by decide)), if_pos rfl]
  have e2 : store m a w (a + 2) = (w >>> 16).toUInt8 := by
    rw [store, if_neg (ne0 2 (by decide)), if_neg (ne 2 1 (by decide)), if_pos rfl]
  have e3 : store m a w (a + 3) = (w >>> 24).toUInt8 := by
    rw [store, if_neg (ne0 3 (by decide)), if_neg (ne 3 1 (by decide)), if_neg (ne 3 2 (by decide)),
      if_pos rfl]
  rw [load, e0, e1, e2, e3]
  apply UInt32.toNat_inj.1
  simp only [UInt32.toNat_add, UInt32.toNat_mul, UInt8.toNat_toUInt32, UInt32.toNat_toUInt8,
    UInt32.toNat_shiftRight, Nat.shiftRight_eq_div_pow, UInt32.reduceToNat, Nat.reduceMod, Nat.reducePow]
  have := w.toNat_lt
  omega

theorem load_store_of_apart {a b w : UInt32} (h : ∀ j : UInt32, j < 4 → 4 ≤ (b + j - a).toNat) :
    load (store m a w) b = load m b :=
  load_congr fun j hj => store_apply_of_le (h j hj)

theorem fill_apply_of_lt {a x : UInt32} {n : Nat} {v : UInt8} (hx : (x - a).toNat < n) : fill m a n v x = v :=
  if_pos hx

theorem fill_apply_of_le {a x : UInt32} {n : Nat} {v : UInt8} (hx : n ≤ (x - a).toNat) : fill m a n v x = m x :=
  if_neg (by omega)

theorem load_fill_of_apart {a b : UInt32} {n : Nat} {v : UInt8}
    (h : ∀ j : UInt32, j < 4 → n ≤ (b + j - a).toNat) :
    load (fill m a n v) b = load m b :=
  load_congr fun j hj => fill_apply_of_le (h j hj)

theorem load_fill_zero {a b : UInt32} {n : Nat} (h : ∀ j : UInt32, j < 4 → (b + j - a).toNat < n) :
    load (fill m a n 0) b = 0 := by
  have h0 := h 0 (by decide)
  rw [UInt32.add_zero] at h0
  simp only [load, fill_apply_of_lt h0, fill_apply_of_lt (h 1 (by decide)),
    fill_apply_of_lt (h 2 (by decide)), fill_apply_of_lt (h 3 (by decide))]
  rfl

theorem copy_apply_of_le {a x : UInt32} {bs : List UInt8} (hx : bs.length ≤ (x - a).toNat) :
    copy m a bs x = m x :=
  dif_neg (by omega)

theorem copy_apply_of_lt {a x : UInt32} {bs : List UInt8} (hx : (x - a).toNat < bs.length) :
    copy m a bs x = bs[(x - a).toNat] :=
  dif_pos hx

/-- `memmove` to a small address, read at another: the bytes copied over `[a, a + bs.length)`, the
old ones elsewhere. -/
theorem copy_toUInt32 {a x : Nat} {bs : List UInt8} (hx : x < 2 ^ 32) (ha : a + bs.length ≤ 2 ^ 32) :
    copy m a.toUInt32 bs x.toUInt32 = if h : a ≤ x ∧ x - a < bs.length then bs[x - a] else m x.toUInt32 := by
  have hsub : (x.toUInt32 - a.toUInt32).toNat = (2 ^ 32 - a % 2 ^ 32 + x) % 2 ^ 32 := by
    rw [UInt32.toNat_sub]
    simp only [Nat.toUInt32, UInt32.toNat_ofNat', Nat.mod_eq_of_lt hx]
  unfold copy
  rw [hsub]
  by_cases h : a ≤ x ∧ x - a < bs.length
  · have e : (2 ^ 32 - a % 2 ^ 32 + x) % 2 ^ 32 = x - a := by omega
    rw [dif_pos (by rw [e]; exact h.2), dif_pos h]
    simp only [e]
  · rw [dif_neg h, dif_neg]
    omega

/-! ### Byte loops

`memset` and `memmove` write a byte at a time. A run of them is one `fill` or `copy`: the lemmas
below add one byte at either end, and `bytes` is what a loop reads from the source. -/

/-- The `n` bytes from `a` up. -/
def bytes (m : UInt32 → UInt8) (a : UInt32) (n : Nat) : List UInt8 :=
  (List.range n).map fun i => m (a + i.toUInt32)

@[simp] theorem length_bytes (a : UInt32) (n : Nat) : (bytes m a n).length = n := by
  simp [bytes]

theorem add_one_add (a : UInt32) (i : Nat) : a + 1 + i.toUInt32 = a + (i + 1).toUInt32 := by
  simp only [Nat.toUInt32, UInt32.ofNat_add, UInt32.ofNat_one]
  rw [UInt32.add_assoc, UInt32.add_comm 1]

theorem bytes_succ (a : UInt32) (n : Nat) : bytes m a (n + 1) = m a :: bytes m (a + 1) n := by
  simp only [bytes, List.range_succ_eq_map, List.map_cons, List.map_map]
  congr 1
  · simp
  · apply List.map_congr_left
    intro i _
    rw [Function.comp_apply, add_one_add]

theorem bytes_concat (a : UInt32) (n : Nat) : bytes m a (n + 1) = bytes m a n ++ [m (a + n.toUInt32)] := by
  simp [bytes, List.range_succ]

theorem bytes_congr {m' : UInt32 → UInt8} {a : UInt32} {n : Nat}
    (h : ∀ i < n, m' (a + i.toUInt32) = m (a + i.toUInt32)) : bytes m' a n = bytes m a n :=
  List.map_congr_left fun i hi => h i (List.mem_range.1 hi)

theorem bytes_fill_self {a : UInt32} {n : Nat} {v : UInt8} (h : n ≤ 2 ^ 32) :
    bytes (fill m a n v) a n = List.replicate n v := by
  refine List.ext_getElem (by rw [length_bytes, List.length_replicate]) fun j hj _ => ?_
  rw [length_bytes] at hj
  have hsub : (a + j.toUInt32 - a).toNat = j := by
    have := a.toNat_lt
    simp only [UInt32.toNat_sub, UInt32.toNat_add, Nat.toUInt32, UInt32.toNat_ofNat']
    omega
  simp only [bytes, List.getElem_map, List.getElem_range, List.getElem_replicate]
  exact fill_apply_of_lt (by rw [hsub]; exact hj)

theorem toNat_sub_add (x a : UInt32) (j : Nat) :
    (x - (a + j.toUInt32)).toNat = ((x - a).toNat + 4294967296 - j % 4294967296) % 4294967296 := by
  simp only [UInt32.toNat_sub, UInt32.toNat_add, Nat.toUInt32, UInt32.toNat_ofNat']
  have := x.toNat_lt
  have := a.toNat_lt
  omega

theorem toNat_sub_ne_zero {x a : UInt32} (hx : x ≠ a) : (x - a).toNat ≠ 0 := by
  intro e
  rw [UInt32.toNat_sub] at e
  have := x.toNat_lt
  have := a.toNat_lt
  exact hx (UInt32.toNat_inj.1 (by omega))

theorem toNat_sub_eq_iff {x a : UInt32} {n : Nat} (hn : n < 2 ^ 32) : (x - a).toNat = n ↔ x = a + n.toUInt32 := by
  have := a.toNat_lt
  constructor
  · intro e
    apply UInt32.toNat_inj.1
    rw [UInt32.toNat_sub] at e
    simp only [UInt32.toNat_add, Nat.toUInt32, UInt32.toNat_ofNat']
    have := x.toNat_lt
    omega
  · rintro rfl
    simp only [UInt32.toNat_sub, UInt32.toNat_add, Nat.toUInt32, UInt32.toNat_ofNat']
    omega

theorem fill_fill {a : UInt32} {j k : Nat} {v : UInt8} (h : j + k ≤ 2 ^ 32) :
    fill (fill m a j v) (a + j.toUInt32) k v = fill m a (j + k) v := by
  funext x
  have hs := toNat_sub_add x a j
  have := (x - a).toNat_lt
  have h' : j + k ≤ 4294967296 := h
  simp only [fill]
  split_ifs <;> first | rfl | omega

theorem update_eq_fill (a : UInt32) (v : UInt8) : Function.update m a v = fill m a 1 v := by
  funext x
  by_cases hx : x = a
  · subst hx
    simp [fill]
  · rw [Function.update_of_ne hx, fill_apply_of_le]
    exact Nat.one_le_iff_ne_zero.2 (toNat_sub_ne_zero hx)

theorem store_eq_fill {a w : UInt32} {v : UInt8} (h0 : w.toUInt8 = v) (h1 : (w >>> 8).toUInt8 = v)
    (h2 : (w >>> 16).toUInt8 = v) (h3 : (w >>> 24).toUInt8 = v) : store m a w = fill m a 4 v := by
  funext x
  -- the four bytes of the word are the offsets 0 to 3 from `a`
  have e : ∀ n < 4, (x - a).toNat = n ↔ x = a + n.toUInt32 := fun n hn => toNat_sub_eq_iff (by omega)
  have e0 : (x - a).toNat = 0 ↔ x = a := by simpa using e 0 (by omega)
  unfold store fill
  by_cases hx0 : x = a
  · rw [if_pos hx0, if_pos (by rw [e0.2 hx0]; omega), h0]
  by_cases hx1 : x = a + 1
  · rw [if_neg hx0, if_pos hx1, if_pos (by rw [(e 1 (by omega)).2 (hx1.trans rfl)]; omega), h1]
  by_cases hx2 : x = a + 2
  · rw [if_neg hx0, if_neg hx1, if_pos hx2, if_pos (by rw [(e 2 (by omega)).2 (hx2.trans rfl)]; omega), h2]
  by_cases hx3 : x = a + 3
  · rw [if_neg hx0, if_neg hx1, if_neg hx2, if_pos hx3,
      if_pos (by rw [(e 3 (by omega)).2 (hx3.trans rfl)]; omega), h3]
  rw [if_neg hx0, if_neg hx1, if_neg hx2, if_neg hx3, if_neg]
  intro hlt
  have h0' := mt e0.1 hx0
  have h1' := mt (e 1 (by omega)).1 fun h => hx1 (h.trans rfl)
  have h2' := mt (e 2 (by omega)).1 fun h => hx2 (h.trans rfl)
  have h3' := mt (e 3 (by omega)).1 fun h => hx3 (h.trans rfl)
  omega

theorem copy_cons {a : UInt32} {b : UInt8} {bs : List UInt8} (h : bs.length < 2 ^ 32) :
    copy (Function.update m a b) (a + 1) bs = copy m a (b :: bs) := by
  funext x
  by_cases hx : x = a
  · subst hx
    have hs := toNat_sub_add x x 1
    simp only [Nat.toUInt32, UInt32.ofNat_one, UInt32.sub_self] at hs
    rw [copy_apply_of_le (by rw [hs]; simp only [UInt32.reduceToNat]; omega), copy_apply_of_lt (by simp),
      Function.update_self]
    simp
  · have hs := toNat_sub_add x a 1
    have ht := toNat_sub_ne_zero hx
    have := (x - a).toNat_lt
    have e : (x - (a + 1)).toNat = (x - a).toNat - 1 := by
      simp only [Nat.toUInt32, UInt32.ofNat_one] at hs
      omega
    unfold copy
    rw [Function.update_of_ne hx]
    simp only [e, List.length_cons, List.getElem_cons]
    split_ifs <;> first | rfl | omega

theorem copy_concat {a : UInt32} {b : UInt8} {bs : List UInt8} (h : bs.length < 2 ^ 32) :
    copy (Function.update m (a + bs.length.toUInt32) b) a bs = copy m a (bs ++ [b]) := by
  funext x
  unfold copy
  by_cases hx : x = a + bs.length.toUInt32
  · have ht := (toNat_sub_eq_iff h).2 hx
    subst hx
    -- the new byte sits just past the old list and is the last one of the new
    have hlen : (a + bs.length.toUInt32 - a).toNat < (bs ++ [b]).length := by
      rw [List.length_append, List.length_singleton]
      omega
    rw [dif_neg (by omega), dif_pos hlen, Function.update_self, List.getElem_append_right (by omega)]
    simp only [ht, Nat.sub_self, List.getElem_cons_zero]
  · have ht : (x - a).toNat ≠ bs.length := fun e => hx ((toNat_sub_eq_iff h).1 e)
    rw [Function.update_of_ne hx]
    simp only [List.length_append, List.length_singleton, List.getElem_append]
    split_ifs <;> first | rfl | omega

/-! ### Pages -/

theorem page_apart {a x : UInt32} (ha : a.toNat % 4096 = 0) (hx : x.toNat / 4096 ≠ a.toNat / 4096) :
    4096 ≤ (x - a).toNat := by
  simp only [UInt32.toNat_sub]
  have := a.toNat_lt
  have := x.toNat_lt
  omega

theorem word_page {b j : UInt32} (hb : b.toNat % 4 = 0) (hj : j < 4) :
    (b + j).toNat = b.toNat + j.toNat ∧ (b + j).toNat / 4096 = b.toNat / 4096 := by
  have hj' : j.toNat < 4 := hj
  have hbj : (b + j).toNat = b.toNat + j.toNat := by
    rw [UInt32.toNat_add]
    have := b.toNat_lt
    omega
  refine ⟨hbj, ?_⟩
  rw [hbj]
  omega

theorem load_store_of_ne {a b w : UInt32} (ha : a.toNat % 4 = 0) (hb : b.toNat % 4 = 0) (hab : a ≠ b) :
    load (store m a w) b = load m b := by
  have hab' : a.toNat ≠ b.toNat := fun e => hab (UInt32.toNat_inj.1 e)
  apply load_store_of_apart
  intro j hj
  have hj' : j.toNat < 4 := hj
  rw [UInt32.toNat_sub, UInt32.toNat_add]
  have := a.toNat_lt
  have := b.toNat_lt
  omega

theorem load_fill_of_page_ne {a b : UInt32} {n : Nat} {v : UInt8} (ha : a.toNat % 4096 = 0)
    (hb : b.toNat % 4 = 0) (hn : n ≤ 4096) (hab : b.toNat / 4096 ≠ a.toNat / 4096) :
    load (fill m a n v) b = load m b := by
  apply load_fill_of_apart
  intro j hj
  obtain ⟨-, hpage⟩ := word_page hb hj
  exact le_trans hn (page_apart ha (by rw [hpage]; exact hab))

theorem load_copy_of_page_ne {a b off : UInt32} {bs : List UInt8} (ha : a.toNat % 4096 = 0)
    (hbs : off.toNat + bs.length ≤ 4096) (hb : b.toNat % 4 = 0) (hab : b.toNat / 4096 ≠ a.toNat / 4096) :
    load (copy m (a + off) bs) b = load m b := by
  apply load_congr
  intro j hj
  obtain ⟨-, hpage⟩ := word_page hb hj
  have hfar := page_apart ha (by rw [hpage]; exact hab)
  apply copy_apply_of_le
  -- the byte lies at least a page past `a`, so past the copied bytes
  simp only [UInt32.toNat_sub, UInt32.toNat_add] at hfar ⊢
  have := a.toNat_lt
  have := (b + j).toNat_lt
  omega

/-- Every byte outside the pages that start at the addresses `qs` holds in `m'` what it holds in
`m`: what writes inside those pages leave. -/
def Outside (qs : List UInt32) (m m' : UInt32 → UInt8) : Prop :=
  ∀ x, (∀ q ∈ qs, x.toNat / 4096 ≠ q.toNat / 4096) → m' x = m x

namespace Outside

variable {qs qs' : List UInt32} {m' m'' : UInt32 → UInt8}

theorem refl (qs : List UInt32) (m : UInt32 → UInt8) : Outside qs m m := fun _ _ => rfl

theorem mono (h : Outside qs m m') (hsub : qs ⊆ qs') : Outside qs' m m' :=
  fun x hx => h x fun q hq => hx q (hsub hq)

theorem trans (h₁ : Outside qs m m') (h₂ : Outside qs' m' m'') (hsub : qs' ⊆ qs) : Outside qs m m'' :=
  fun x hx => (h₂ x fun q hq => hx q (hsub hq)).trans (h₁ x hx)

theorem load {a : UInt32} (h : Outside qs m m') (ha : a.toNat % 4 = 0)
    (hq : ∀ q ∈ qs, a.toNat / 4096 ≠ q.toNat / 4096) : load m' a = load m a :=
  load_congr fun j hj => h _ fun q hq' => by rw [(word_page ha hj).2]; exact hq q hq'

theorem store {q a w : UInt32} (hq : q ∈ qs) (ha : a.toNat % 4 = 0) (hp : a.toNat / 4096 = q.toNat / 4096) :
    Outside qs m (store m a w) := by
  intro x hx
  apply store_apply_of_le
  have hxa : x.toNat / 4096 ≠ a.toNat / 4096 := by rw [hp]; exact hx q hq
  -- the word does not reach the end of its page, and `x` lies in another page
  simp only [UInt32.toNat_sub]
  have := a.toNat_lt
  have := x.toNat_lt
  omega

theorem fill {q : UInt32} {n : Nat} {v : UInt8} (hq : q ∈ qs) (hal : q.toNat % 4096 = 0) (hn : n ≤ 4096) :
    Outside qs m (fill m q n v) :=
  fun _ hx => fill_apply_of_le (le_trans hn (page_apart hal (hx q hq)))

theorem fill_off {q off : UInt32} {n : Nat} {v : UInt8} (hq : q ∈ qs) (hal : q.toNat % 4096 = 0)
    (hn : off.toNat + n ≤ 4096) : Outside qs m (Word.fill m (q + off) n v) := by
  intro x hx
  have hfar := page_apart hal (hx q hq)
  apply fill_apply_of_le
  simp only [UInt32.toNat_sub, UInt32.toNat_add] at hfar ⊢
  have := q.toNat_lt
  have := x.toNat_lt
  omega

theorem copy {q off : UInt32} {bs : List UInt8} (hq : q ∈ qs) (hal : q.toNat % 4096 = 0)
    (hbs : off.toNat + bs.length ≤ 4096) : Outside qs m (copy m (q + off) bs) := by
  intro x hx
  have hfar := page_apart hal (hx q hq)
  apply copy_apply_of_le
  simp only [UInt32.toNat_sub, UInt32.toNat_add] at hfar ⊢
  have := q.toNat_lt
  have := x.toNat_lt
  omega

theorem copy_start {q : UInt32} {bs : List UInt8} (hq : q ∈ qs) (hal : q.toNat % 4096 = 0)
    (hbs : bs.length ≤ 4096) : Outside qs m (Word.copy m q bs) := by
  have h : Outside qs m (Word.copy m (q + 0) bs) := copy hq hal (by simpa using hbs)
  rwa [UInt32.add_zero] at h

end Outside

end Word
