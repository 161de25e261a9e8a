import Xv6.Fs.Block
import Xv6.Lib.Alloc

/-!
# What the bitmap accounts for

The blocks an inode refers to (`Disk.refs`): the blocks its direct addresses name, its indirect
block, and the blocks the words of the indirect block name. The blocks held are those of the
allocated inodes (`Disk.held`), listed inode after inode in `Disk.owned`.

`BlockInv` is the block layer's invariant: the bitmap is exact (`Alloc.Accounts`: the meta blocks
are in use, and a data block is in use exactly when one inode refers to it, once), no inode past
`sb.ninodes` is allocated, and each allocated inode's size is at most `MAXFILE * BSIZE` with a block
for every block below it (`Disk.addrOf`). This module proves that `bmap` keeps it;
`Xv6.Fs.Ownership` does the rest of the calls.
-/

namespace Xv6

namespace Fs

namespace Disk

theorem sb_size : sb.size = 1000 := rfl
theorem sb_bmapstart : sb.bmapstart = 58 := rfl
theorem sb_ninodes : sb.ninodes = NINODES := rfl
theorem nmeta_eq : nmeta = 59 := rfl
theorem BPB_eq : BPB = 4096 := rfl

theorem toUInt32_inj {x y : Nat} (hx : x < 2 ^ 32) (hy : y < 2 ^ 32) : x.toUInt32 = y.toUInt32 ↔ x = y := by
  constructor
  · intro h
    have h' := congrArg UInt32.toNat h
    simp only [Nat.toUInt32, UInt32.toNat_ofNat'] at h'
    rwa [Nat.mod_eq_of_lt hx, Nat.mod_eq_of_lt hy] at h'
  · rintro rfl
    rfl

theorem BBLOCK_of_lt {b : Nat} (hb : b < BPB) : BBLOCK b = sb.bmapstart := by
  rw [BBLOCK, Nat.div_eq_of_lt hb, Nat.zero_add]

/-! ### The bitmap -/

variable (d : Disk)

/-- Block `b`'s bit set, as `balloc` sets it. -/
def setBit (b : Nat) : Disk :=
  d.setBlock (BBLOCK b) (Function.update (d.blk (BBLOCK b)) (b % BPB / 8).toUInt32
    (d.blk (BBLOCK b) (b % BPB / 8).toUInt32 ||| bit (b % BPB)))

/-- Block `b`'s bit cleared, as `bfree` clears it. -/
def clearBit (b : Nat) : Disk :=
  d.setBlock (BBLOCK b) (Function.update (d.blk (BBLOCK b)) (b % BPB / 8).toUInt32
    (d.blk (BBLOCK b) (b % BPB / 8).toUInt32 &&& ~~~(bit (b % BPB))))

variable {d} {a b n i : Nat}

@[simp] theorem setBit_dinode : (d.setBit a).dinode = d.dinode := rfl
@[simp] theorem clearBit_dinode : (d.clearBit a).dinode = d.dinode := rfl

theorem setBit_blk_of_ne (hn : n ≠ BBLOCK a) : (d.setBit a).blk n = d.blk n :=
  Function.update_of_ne hn _ _

theorem clearBit_blk_of_ne (hn : n ≠ BBLOCK a) : (d.clearBit a).blk n = d.blk n :=
  Function.update_of_ne hn _ _

theorem inUse_iff (d : Disk) (b : Nat) :
    d.inUse b ↔ (d.blk (BBLOCK b) (b % BPB / 8).toUInt32).toNat.testBit (b % 8) := by
  have h8 : b % BPB % 8 = b % 8 := Nat.mod_mod_of_dvd b (by decide)
  rw [inUse, bit, Word.and_bit_ne_zero _ (Nat.mod_lt _ (by decide)), h8]

theorem inUse_congr {d' : Disk} (h : d'.blk (BBLOCK b) = d.blk (BBLOCK b)) : d'.inUse b ↔ d.inUse b := by
  rw [inUse_iff, inUse_iff, h]

@[simp] theorem inUse_setDinode {di : Dinode} : (d.setDinode i di).inUse b ↔ d.inUse b := Iff.rfl

theorem inUse_setBlock {m : UInt32 → UInt8} (hn : n ≠ BBLOCK b) : (d.setBlock n m).inUse b ↔ d.inUse b :=
  inUse_congr (Function.update_of_ne (Ne.symm hn) _ _)

theorem byte_eq_iff (ha : a < BPB) (hb : b < BPB) :
    (b % BPB / 8).toUInt32 = (a % BPB / 8).toUInt32 ↔ b / 8 = a / 8 := by
  rw [Nat.mod_eq_of_lt ha, Nat.mod_eq_of_lt hb, BPB_eq] at *
  exact toUInt32_inj (by omega) (by omega)

theorem inUse_setBit (ha : a < BPB) (hb : b < BPB) : (d.setBit a).inUse b ↔ d.inUse b ∨ b = a := by
  rw [inUse_iff, inUse_iff]
  simp only [setBit, setBlock_blk, BBLOCK_of_lt ha, BBLOCK_of_lt hb, Function.update_self]
  by_cases hk : b / 8 = a / 8
  · -- the same byte: bit `a % 8` is set in it
    rw [(byte_eq_iff ha hb).2 hk, Function.update_self, bit, Nat.mod_mod_of_dvd a (by decide),
      Word.testBit_or_bit _ (Nat.mod_lt _ (by decide)), Bool.or_eq_true, decide_eq_true_iff]
    constructor
    · rintro (h | h)
      · exact Or.inl h
      · exact Or.inr (by omega)
    · rintro (h | rfl)
      · exact Or.inl h
      · exact Or.inr rfl
  · rw [Function.update_of_ne (fun e => hk ((byte_eq_iff ha hb).1 e))]
    constructor
    · exact Or.inl
    · rintro (h | rfl)
      · exact h
      · exact absurd rfl hk

theorem inUse_clearBit (ha : a < BPB) (hb : b < BPB) : (d.clearBit a).inUse b ↔ d.inUse b ∧ b ≠ a := by
  rw [inUse_iff, inUse_iff]
  simp only [clearBit, setBlock_blk, BBLOCK_of_lt ha, BBLOCK_of_lt hb, Function.update_self]
  by_cases hk : b / 8 = a / 8
  · -- the same byte: bit `a % 8` is cleared in it
    rw [(byte_eq_iff ha hb).2 hk, Function.update_self, bit, Nat.mod_mod_of_dvd a (by decide),
      Word.testBit_and_not_bit _ (Nat.mod_lt _ (by decide)) (Nat.mod_lt _ (by decide)), Bool.and_eq_true,
      Bool.not_eq_true', decide_eq_false_iff_not]
    constructor
    · rintro ⟨h, hne⟩
      exact ⟨h, fun e => hne (e ▸ rfl)⟩
    · rintro ⟨h, hne⟩
      exact ⟨h, fun e => hne (by omega)⟩
  · rw [Function.update_of_ne (fun e => hk ((byte_eq_iff ha hb).1 e))]
    exact ⟨fun h => ⟨h, fun e => hk (e ▸ rfl)⟩, And.left⟩

/-! ### `balloc` and `bfree` -/

theorem scan_bit {bi : Nat} (hb : b % BPB = 0) (hbi : bi < BPB) :
    BBLOCK (b + bi) = BBLOCK b ∧ (b + bi) % BPB = bi := by
  simp only [BBLOCK, BPB_eq] at *
  constructor <;> omega

theorem ballocScan_eq_some (hb : b % BPB = 0) :
    ∀ {k bi : Nat} {d' : Disk}, d.ballocScan b k bi = some (a, d') →
      a < sb.size ∧ ¬ d.inUse a ∧ d' = (d.setBit a).bzero a
  | 0, _, _, h => by simp [ballocScan] at h
  | k + 1, bi, d', h => by
    rw [ballocScan] at h
    by_cases hc : bi < BPB ∧ b + bi < sb.size
    · rw [if_pos hc] at h
      dsimp only at h
      by_cases hz : d.blk (BBLOCK b) (bi / 8).toUInt32 &&& bit bi = 0
      · -- the first free bit: block `b + bi`
        rw [if_pos hz, Option.some.injEq, Prod.mk.injEq] at h
        obtain ⟨rfl, rfl⟩ := h
        obtain ⟨hB, hm⟩ := scan_bit hb hc.1
        refine ⟨hc.2, ?_, ?_⟩
        · rw [inUse, hB, hm, not_not]
          exact hz
        · rw [setBit, hB, hm]
      · rw [if_neg hz] at h
        exact ballocScan_eq_some hb h
    · rw [if_neg hc] at h
      cases h

theorem ballocLoop_eq_some :
    ∀ {k b : Nat} {d' : Disk}, b % BPB = 0 → d.ballocLoop k b = some (a, d') →
      a < sb.size ∧ ¬ d.inUse a ∧ d' = (d.setBit a).bzero a
  | 0, _, _, _, h => by simp [ballocLoop] at h
  | k + 1, b, d', hb, h => by
    rw [ballocLoop] at h
    by_cases hc : b < sb.size
    · rw [if_pos hc] at h
      cases hs : d.ballocScan b BPB 0 with
      | some r =>
        rw [hs, Option.some.injEq] at h
        subst h
        exact ballocScan_eq_some hb hs
      | none =>
        rw [hs] at h
        exact ballocLoop_eq_some (by rw [BPB_eq] at *; omega) h
    · rw [if_neg hc] at h
      cases h

/-- `balloc` hands out a free block below `sb.size`, marked in use and zeroed. -/
theorem balloc_eq_ok {d' : Disk} (h : d.balloc = .ok (a, d')) :
    a < sb.size ∧ ¬ d.inUse a ∧ d' = (d.setBit a).bzero a := by
  unfold balloc at h
  cases hl : d.ballocLoop sb.size 0 with
  | none =>
    rw [hl] at h
    cases h
  | some r =>
    simp only [hl, Except.pure_eq_ok, Except.ok.injEq] at h
    subst h
    exact ballocLoop_eq_some rfl hl

theorem ballocScan_first (hb : b % BPB = 0) (ha : a < BPB) (hs : b + a < sb.size) (hfree : ¬ d.inUse (b + a))
    (hused : ∀ j, j < a → d.inUse (b + j)) :
    ∀ {k bi : Nat}, bi ≤ a → a - bi < k → d.ballocScan b k bi = some (b + a, (d.setBit (b + a)).bzero (b + a))
  | 0, _, _, hk => absurd hk (Nat.not_lt_zero _)
  | k + 1, bi, hbi, hk => by
    have hc : bi < BPB ∧ b + bi < sb.size := ⟨by omega, by omega⟩
    obtain ⟨hB, hm⟩ := scan_bit hb hc.1
    rw [ballocScan, if_pos hc]
    dsimp only
    rcases Nat.lt_or_ge bi a with hlt | hge
    · -- a bit in use: the scan goes on
      have hu := hused bi hlt
      rw [inUse, hB, hm] at hu
      rw [if_neg hu]
      exact ballocScan_first hb ha hs hfree hused hlt (by omega)
    · obtain rfl : bi = a := by omega
      have hz := hfree
      rw [inUse, hB, hm, not_not] at hz
      rw [if_pos hz, setBit, hB, hm]

/-- On the first bitmap block, `balloc` hands out the lowest free block. -/
theorem balloc_first (ha : a < BPB) (hs : a < sb.size) (hfree : ¬ d.inUse a) (hused : ∀ j, j < a → d.inUse j) :
    d.balloc = .ok (a, (d.setBit a).bzero a) := by
  have hscan : d.ballocScan 0 BPB 0 = some (0 + a, (d.setBit (0 + a)).bzero (0 + a)) :=
    ballocScan_first rfl ha (by omega) (by rwa [Nat.zero_add])
      (fun j hj => by rw [Nat.zero_add]; exact hused j hj) (Nat.zero_le _) (by omega)
  rw [Nat.zero_add] at hscan
  unfold balloc
  rw [sb_size, ballocLoop, if_pos (by rw [sb_size]; decide), hscan]
  rfl

theorem bfree_eq (hb : d.inUse b) : d.bfree b = .ok (d.clearBit b) := by
  unfold bfree
  dsimp only
  rw [if_neg hb]
  rfl

/-! ### What an inode refers to -/

/-- The block an address names: none for 0. -/
def slot (a : Nat) : List Nat := if a = 0 then [] else [a]

section Refs

variable (d : Disk)

/-- The blocks inode `i`'s direct addresses name. -/
def direct (i : Nat) : List Nat := (List.range NDIRECT).flatMap fun k => slot ((d.dinode i).addrs k)

/-- The blocks the words of block `ind` name, as an indirect block. -/
def entryBlocks (ind : Nat) : List Nat := (List.range NINDIRECT).flatMap fun j => slot (word (d.blk ind) j)

/-- Inode `i`'s indirect block and the blocks its words name. -/
def indirect (i : Nat) : List Nat :=
  if (d.dinode i).addrs NDIRECT = 0 then []
  else (d.dinode i).addrs NDIRECT :: d.entryBlocks ((d.dinode i).addrs NDIRECT)

/-- Every block inode `i` refers to. -/
def refs (i : Nat) : List Nat := d.direct i ++ d.indirect i

/-- The blocks inode `i` holds: its references, if it is allocated. -/
def held (i : Nat) : List Nat := if (d.dinode i).type = 0 then [] else d.refs i

/-- The blocks the inodes hold, inode after inode. -/
def owned : List Nat := (List.range NINODES).flatMap d.held

/-- The block `bmap` finds for block `bn` of inode `i` without allocating; 0 for none. -/
def addrOf (i bn : Nat) : Nat :=
  if bn < NDIRECT then (d.dinode i).addrs bn
  else if (d.dinode i).addrs NDIRECT = 0 then 0
  else word (d.blk ((d.dinode i).addrs NDIRECT)) (bn - NDIRECT)

end Refs

theorem mem_slot {x : Nat} : b ∈ slot x ↔ x ≠ 0 ∧ b = x := by
  unfold slot
  split <;> simp_all

theorem held_of_type (hi : (d.dinode i).type ≠ 0) : d.held i = d.refs i := if_neg hi

theorem held_congr {d' : Disk} (ht : (d'.dinode i).type = (d.dinode i).type)
    (ha : (d'.dinode i).addrs = (d.dinode i).addrs)
    (hb : d'.blk ((d.dinode i).addrs NDIRECT) = d.blk ((d.dinode i).addrs NDIRECT)) :
    d'.held i = d.held i := by
  simp only [held, refs, direct, indirect, entryBlocks, ht, ha, hb]

theorem addrOf_congr {d' : Disk} {bn : Nat} (ha : (d'.dinode i).addrs = (d.dinode i).addrs)
    (hb : d'.blk ((d.dinode i).addrs NDIRECT) = d.blk ((d.dinode i).addrs NDIRECT)) :
    d'.addrOf i bn = d.addrOf i bn := by
  simp only [addrOf, ha, hb]

/-- A block `bmap` finds is one the inode refers to: a direct block or a word of its indirect
block, never the indirect block itself. -/
theorem addrOf_mem {bn : Nat} (hbn : bn < MAXFILE) (ha : d.addrOf i bn ≠ 0) :
    d.addrOf i bn ∈ d.direct i ∨
      ((d.dinode i).addrs NDIRECT ≠ 0 ∧ d.addrOf i bn ∈ d.entryBlocks ((d.dinode i).addrs NDIRECT)) := by
  unfold addrOf at ha ⊢
  by_cases hd : bn < NDIRECT
  · rw [if_pos hd] at ha ⊢
    exact Or.inl (List.mem_flatMap.2 ⟨bn, List.mem_range.2 hd, mem_slot.2 ⟨ha, rfl⟩⟩)
  · rw [if_neg hd] at ha ⊢
    by_cases h0 : (d.dinode i).addrs NDIRECT = 0
    · rw [if_pos h0] at ha
      exact absurd rfl ha
    · rw [if_neg h0] at ha ⊢
      refine Or.inr ⟨h0, List.mem_flatMap.2 ⟨bn - NDIRECT, List.mem_range.2 ?_, mem_slot.2 ⟨ha, rfl⟩⟩⟩
      simp only [MAXFILE, NDIRECT, NINDIRECT, BSIZE] at hbn hd ⊢
      omega

theorem ind_mem_refs {j : Nat} (hj0 : (d.dinode j).addrs NDIRECT ≠ 0) :
    (d.dinode j).addrs NDIRECT ∈ d.refs j :=
  List.mem_append_right _ (by rw [indirect, if_neg hj0]; exact List.mem_cons_self)

theorem addrOf_mem_refs {bn : Nat} (hbn : bn < MAXFILE) (ha : d.addrOf i bn ≠ 0) : d.addrOf i bn ∈ d.refs i := by
  rcases addrOf_mem hbn ha with hd | ⟨h0, he⟩
  · exact List.mem_append_left _ hd
  · exact List.mem_append_right _ (by rw [indirect, if_neg h0]; exact List.mem_cons_of_mem _ he)

/-! ### The invariant -/

/-- The block layer's invariant (see the module doc). -/
structure BlockInv (d : Disk) : Prop where
  /-- The bitmap marks in use exactly the meta blocks and the blocks held, none held twice. -/
  accounts : Alloc.Accounts (· < sb.size) d.inUse (· < nmeta) d.owned
  /-- `ialloc` allocates no inode past `sb.ninodes`. -/
  ninodes : ∀ i, sb.ninodes ≤ i → (d.dinode i).type = 0
  size : ∀ i, (d.dinode i).type ≠ 0 → (d.dinode i).size ≤ MAXFILE * BSIZE
  /-- No holes: an allocated inode has a block for every block below its size. -/
  full : ∀ i, (d.dinode i).type ≠ 0 → ∀ bn, bn * BSIZE < (d.dinode i).size → d.addrOf i bn ≠ 0

namespace BlockInv

variable (h : BlockInv d)
include h

theorem lt_ninodes (hi : (d.dinode i).type ≠ 0) : i < NINODES := by
  by_contra hn
  exact hi (h.ninodes i (by rw [sb_ninodes]; omega))

theorem mem_owned (hi : (d.dinode i).type ≠ 0) (hb : b ∈ d.refs i) : b ∈ d.owned :=
  List.mem_flatMap.2 ⟨i, List.mem_range.2 (h.lt_ninodes hi), by rwa [held_of_type hi]⟩

theorem mem_refs (hi : (d.dinode i).type ≠ 0) (hb : b ∈ d.refs i) :
    nmeta ≤ b ∧ b < sb.size ∧ d.inUse b := by
  have ho := h.mem_owned hi hb
  obtain ⟨hlt, hr⟩ := h.accounts.mem b ho
  exact ⟨Nat.le_of_not_lt hr, hlt, h.accounts.used_of_mem ho⟩

theorem refs_nodup (hi : (d.dinode i).type ≠ 0) : (d.refs i).Nodup := by
  have hn := (List.nodup_flatMap.1 h.accounts.nodup).1 i (List.mem_range.2 (h.lt_ninodes hi))
  rwa [held_of_type hi] at hn

theorem refs_disjoint {j : Nat} (hi : (d.dinode i).type ≠ 0) (hj : (d.dinode j).type ≠ 0) (hij : i ≠ j) :
    (d.refs i).Disjoint (d.refs j) := by
  have hd := Alloc.disjoint_of_nodup_flatMap h.accounts.nodup (List.mem_range.2 (h.lt_ninodes hi))
    (List.mem_range.2 (h.lt_ninodes hj)) hij
  rwa [held_of_type hi, held_of_type hj] at hd

theorem ne_ind_of_not_mem {j : Nat} (hb : b ∉ d.owned) (hj : (d.dinode j).type ≠ 0)
    (hj0 : (d.dinode j).addrs NDIRECT ≠ 0) : (d.dinode j).addrs NDIRECT ≠ b :=
  fun e => hb (e ▸ h.mem_owned hj (ind_mem_refs hj0))

theorem addrOf_ne_ind {j bn : Nat} (hi : (d.dinode i).type ≠ 0) (hj : (d.dinode j).type ≠ 0)
    (hbn : bn < MAXFILE) (ha : d.addrOf i bn ≠ 0) (hj0 : (d.dinode j).addrs NDIRECT ≠ 0) :
    (d.dinode j).addrs NDIRECT ≠ d.addrOf i bn := by
  have hmem := addrOf_mem_refs hbn ha
  by_cases hij : i = j
  · -- within one inode: the indirect block is listed once, apart from the direct blocks and words
    subst hij
    intro e
    have hnd := h.refs_nodup hi
    rw [refs, indirect, if_neg hj0, List.nodup_append] at hnd
    rcases addrOf_mem hbn ha with hd | ⟨-, he⟩
    · exact hnd.2.2 _ hd _ List.mem_cons_self e.symm
    · exact (List.nodup_cons.1 hnd.2.1).1 (e ▸ he)
  · exact fun e => h.refs_disjoint hi hj hij hmem (e ▸ ind_mem_refs hj0)

end BlockInv

/-! ### Words of an indirect block -/

theorem toNat_word_offset {j : Nat} (hj : j < NINDIRECT) : ((4 * j).toUInt32).toNat = 4 * j := by
  simp only [Nat.toUInt32, UInt32.toNat_ofNat']
  simp only [NINDIRECT, BSIZE] at hj
  omega

theorem word_store_self {bp : UInt32 → UInt8} {j : Nat} (ha : a < 2 ^ 32) :
    word (Word.store bp (4 * j).toUInt32 a.toUInt32) j = a := by
  rw [word, Word.load_store_self]
  simp only [Nat.toUInt32, UInt32.toNat_ofNat']
  exact Nat.mod_eq_of_lt ha

theorem word_store_of_ne {bp : UInt32 → UInt8} {j j' : Nat} {w : UInt32} (hj : j < NINDIRECT)
    (hj' : j' < NINDIRECT) (hne : j' ≠ j) : word (Word.store bp (4 * j).toUInt32 w) j' = word bp j' := by
  rw [word, word, Word.load_store_of_ne]
  · rw [toNat_word_offset hj]
    omega
  · rw [toNat_word_offset hj']
    omega
  · intro e
    have := congrArg UInt32.toNat e
    rw [toNat_word_offset hj, toNat_word_offset hj'] at this
    omega

/-- A zeroed block read as an indirect block names nothing. -/
theorem word_fill_zero {m : UInt32 → UInt8} {j : Nat} (hj : j < NINDIRECT) :
    word (Word.fill m 0 BSIZE 0) j = 0 := by
  rw [word, Word.load_fill_zero]
  · rfl
  · intro k hk
    have hk' : k.toNat < 4 := hk
    rw [UInt32.sub_zero, UInt32.toNat_add, toNat_word_offset hj]
    simp only [NINDIRECT, BSIZE] at hj ⊢
    omega

theorem flatMap_slot_update {m : Nat} {f : Nat → Nat} {k : Nat} (hk : k < m) (h0 : f k = 0) (ha : a ≠ 0) :
    ((List.range m).flatMap fun k' => slot (Function.update f k a k')).Perm
      (a :: (List.range m).flatMap fun k' => slot (f k')) := by
  have e : (fun k' => slot (Function.update f k a k')) = Function.update (fun k' => slot (f k')) k [a] := by
    funext k'
    by_cases hk' : k' = k
    · subst hk'
      rw [Function.update_self, Function.update_self, slot, if_neg ha]
    · rw [Function.update_of_ne hk', Function.update_of_ne hk']
  have e0 : Function.update (fun k' => slot (f k')) k [] = fun k' => slot (f k') := by
    rw [← Function.update_eq_self k (fun k' => slot (f k')), Function.update_idem]
    simp only [h0, slot, if_true]
  rw [e]
  have hp := Alloc.perm_flatMap_update List.nodup_range (List.mem_range.2 hk) (fun k' => slot (f k')) [a]
  rwa [e0] at hp

/-! ### Updates of one inode -/

section Update

variable {k j bn : Nat}

@[simp] theorem setAddr_type : ((d.setAddr i k a).dinode j).type = (d.dinode j).type := by
  by_cases hj : j = i
  · subst hj
    simp [setAddr_dinode]
  · simp [setAddr_dinode, Function.update_of_ne hj]

@[simp] theorem setAddr_size : ((d.setAddr i k a).dinode j).size = (d.dinode j).size := by
  by_cases hj : j = i
  · subst hj
    simp [setAddr_dinode]
  · simp [setAddr_dinode, Function.update_of_ne hj]

theorem setAddr_addrs_of_ne (hj : j ≠ i) : ((d.setAddr i k a).dinode j).addrs = (d.dinode j).addrs := by
  simp [setAddr_dinode, Function.update_of_ne hj]

@[simp] theorem setAddr_addrs_self : ((d.setAddr i k a).dinode i).addrs = Function.update (d.dinode i).addrs k a := by
  simp [setAddr_dinode]

@[simp] theorem setSize_type : ((d.setSize i n).dinode j).type = (d.dinode j).type := by
  by_cases hj : j = i
  · subst hj
    simp [setSize_dinode]
  · simp [setSize_dinode, Function.update_of_ne hj]

@[simp] theorem setSize_addrs : ((d.setSize i n).dinode j).addrs = (d.dinode j).addrs := by
  by_cases hj : j = i
  · subst hj
    simp [setSize_dinode]
  · simp [setSize_dinode, Function.update_of_ne hj]

theorem setSize_size : ((d.setSize i n).dinode j).size = if j = i then n else (d.dinode j).size := by
  by_cases hj : j = i
  · subst hj
    simp [setSize_dinode]
  · simp [setSize_dinode, hj]

theorem held_setSize : (d.setSize i n).held j = d.held j :=
  held_congr setSize_type setSize_addrs (by rw [setSize_blk])

theorem addrOf_setSize : (d.setSize i n).addrOf j bn = d.addrOf j bn :=
  addrOf_congr setSize_addrs (by rw [setSize_blk])

theorem held_setAddr_of_ne (hj : j ≠ i) : (d.setAddr i k a).held j = d.held j :=
  held_congr setAddr_type (setAddr_addrs_of_ne hj) (by rw [setAddr_blk])

theorem addrOf_setAddr_of_ne (hj : j ≠ i) : (d.setAddr i k a).addrOf j bn = d.addrOf j bn :=
  addrOf_congr (setAddr_addrs_of_ne hj) (by rw [setAddr_blk])

end Update

/-! ### How `owned` changes -/

theorem held_update {d' : Disk} (hj : ∀ j, j ≠ i → d'.held j = d.held j) :
    d'.held = Function.update d.held i (d'.held i) := by
  funext j
  by_cases hji : j = i
  · subst hji
    rw [Function.update_self]
  · rw [Function.update_of_ne hji, hj j hji]

/-- One inode taking a new block. -/
theorem owned_perm_cons {d' : Disk} (hi : i < NINODES) (hj : ∀ j, j ≠ i → d'.held j = d.held j)
    (hp : (d'.held i).Perm (a :: d.held i)) : d'.owned.Perm (a :: d.owned) := by
  have hmem : i ∈ List.range NINODES := List.mem_range.2 hi
  have h1 := Alloc.perm_flatMap_update List.nodup_range hmem d.held (d'.held i)
  have h2 := Alloc.perm_flatMap_self List.nodup_range hmem d.held
  rw [← held_update hj] at h1
  exact h1.trans ((hp.append_right _).trans (h2.symm.cons a))

/-- One inode giving back every block it held. -/
theorem owned_perm_free {d' : Disk} (hi : i < NINODES) (hj : ∀ j, j ≠ i → d'.held j = d.held j)
    (h0 : d'.held i = []) : d.owned.Perm (d.held i ++ d'.owned) := by
  have e : d'.held = Function.update d.held i [] := by rw [held_update hj, h0]
  rw [owned, owned, e]
  exact Alloc.perm_flatMap_self List.nodup_range (List.mem_range.2 hi) d.held

theorem owned_congr {d' : Disk} (hj : ∀ j, d'.held j = d.held j) : d'.owned = d.owned := by
  rw [owned, owned, funext hj]

/-! ### Extending a disk -/

/-- `d'` keeps the invariant and extends `d`: the same inodes with the same sizes, and the block
found for every block of an allocated inode still found. -/
structure Extends (d d' : Disk) : Prop where
  inv : BlockInv d'
  type : ∀ j, (d'.dinode j).type = (d.dinode j).type
  size : ∀ j, (d'.dinode j).size = (d.dinode j).size
  addrOf : ∀ j bn, (d.dinode j).type ≠ 0 → bn < MAXFILE → d.addrOf j bn ≠ 0 → d'.addrOf j bn = d.addrOf j bn

theorem Extends.refl (h : BlockInv d) : Extends d d :=
  ⟨h, fun _ => rfl, fun _ => rfl, fun _ _ _ _ _ => rfl⟩

theorem Extends.trans {d' d'' : Disk} (h₁ : Extends d d') (h₂ : Extends d' d'') : Extends d d'' where
  inv := h₂.inv
  type j := (h₂.type j).trans (h₁.type j)
  size j := (h₂.size j).trans (h₁.size j)
  addrOf j bn hj hbn ha := by
    rw [h₂.addrOf j bn (by rw [h₁.type j]; exact hj) hbn (by rw [h₁.addrOf j bn hj hbn ha]; exact ha),
      h₁.addrOf j bn hj hbn ha]

/-! ### `balloc` on a disk that keeps the invariant -/

section Balloc

variable {d₁ : Disk} (h : BlockInv d) (hb : d.balloc = .ok (a, d₁))
include h hb

theorem balloc_fresh : a ∉ d.owned ∧ nmeta ≤ a ∧ a < sb.size := by
  obtain ⟨hlt, hu, -⟩ := balloc_eq_ok hb
  obtain ⟨hr, ho⟩ := h.accounts.free_of_not_used hlt hu
  exact ⟨ho, Nat.le_of_not_lt hr, hlt⟩

omit h in
theorem balloc_dinode : d₁.dinode = d.dinode := by
  obtain ⟨-, -, rfl⟩ := balloc_eq_ok hb
  rfl

omit h in
theorem balloc_blk {n : Nat} (hn : n ≠ a) (hn' : n ≠ sb.bmapstart) : d₁.blk n = d.blk n := by
  obtain ⟨hlt, -, rfl⟩ := balloc_eq_ok hb
  have hB : BBLOCK a = sb.bmapstart := BBLOCK_of_lt (by rw [sb_size] at hlt; rw [BPB_eq]; omega)
  rw [bzero, setBlock_blk, Function.update_of_ne hn, setBit_blk_of_ne (by rw [hB]; exact hn')]

theorem balloc_blk_self : d₁.blk a = Word.fill (d.blk a) 0 BSIZE 0 := by
  have ha := (balloc_fresh h hb).2.1
  obtain ⟨hlt, -, rfl⟩ := balloc_eq_ok hb
  have hB : BBLOCK a = sb.bmapstart := BBLOCK_of_lt (by rw [sb_size] at hlt; rw [BPB_eq]; omega)
  rw [bzero, setBlock_blk, Function.update_self, setBit_blk_of_ne]
  rw [hB, sb_bmapstart]
  rw [nmeta_eq] at ha
  omega

theorem balloc_inUse {c : Nat} (hc : c < sb.size) : d₁.inUse c ↔ d.inUse c ∨ c = a := by
  have ha := (balloc_fresh h hb)
  obtain ⟨hlt, -, rfl⟩ := balloc_eq_ok hb
  rw [sb_size] at hlt hc
  have hcB : BBLOCK c = sb.bmapstart := BBLOCK_of_lt (by rw [BPB_eq]; omega)
  rw [bzero, inUse_setBlock (by rw [hcB, sb_bmapstart]; rw [nmeta_eq] at ha; omega),
    inUse_setBit (by rw [BPB_eq]; omega) (by rw [BPB_eq]; omega)]

theorem ind_ne {j : Nat} (hj : (d.dinode j).type ≠ 0) :
    (d.dinode j).addrs NDIRECT ≠ a ∧ (d.dinode j).addrs NDIRECT ≠ sb.bmapstart := by
  obtain ⟨ho, ha, -⟩ := balloc_fresh h hb
  by_cases h0 : (d.dinode j).addrs NDIRECT = 0
  · rw [h0, sb_bmapstart]
    rw [nmeta_eq] at ha
    omega
  · have hm := (h.mem_refs hj (ind_mem_refs h0)).1
    rw [nmeta_eq] at hm
    exact ⟨h.ne_ind_of_not_mem ho hj h0, by rw [sb_bmapstart]; omega⟩

theorem balloc_held (j : Nat) : d₁.held j = d.held j := by
  by_cases hj : (d.dinode j).type = 0
  · simp only [held, balloc_dinode hb, hj, if_true]
  · obtain ⟨h1, h2⟩ := ind_ne h hb hj
    exact held_congr (by rw [balloc_dinode hb]) (by rw [balloc_dinode hb]) (balloc_blk hb h1 h2)

theorem balloc_addrOf {j bn : Nat} (hj : (d.dinode j).type ≠ 0) : d₁.addrOf j bn = d.addrOf j bn := by
  obtain ⟨h1, h2⟩ := ind_ne h hb hj
  exact addrOf_congr (by rw [balloc_dinode hb]) (balloc_blk hb h1 h2)

/-- `balloc`, then the new block attached to inode `i`: the invariant holds again when `i` holds
the new block besides what it held and nothing else changes. -/
theorem attach {d₂ : Disk} (hi : (d.dinode i).type ≠ 0) (hheld : (d₂.held i).Perm (a :: d₁.held i))
    (hother : ∀ j, j ≠ i → d₂.held j = d₁.held j) (hu : ∀ c, c < sb.size → (d₂.inUse c ↔ d₁.inUse c))
    (ht : ∀ j, (d₂.dinode j).type = (d.dinode j).type) (hs : ∀ j, (d₂.dinode j).size = (d.dinode j).size)
    (hf : ∀ j bn, (d.dinode j).type ≠ 0 → bn < MAXFILE → d.addrOf j bn ≠ 0 → d₂.addrOf j bn = d.addrOf j bn) :
    Extends d d₂ := by
  obtain ⟨hlt, hfree, -⟩ := balloc_eq_ok hb
  have hp : d₂.owned.Perm (a :: d.owned) := by
    refine owned_perm_cons (h.lt_ninodes hi) (fun j hj => ?_) ?_
    · rw [hother j hj, balloc_held h hb]
    · rw [← balloc_held h hb]
      exact hheld
  refine ⟨⟨h.accounts.alloc hlt hfree hp fun c hc => ?_, fun j hj => ?_, fun j hj => ?_, fun j hj bn hbn => ?_⟩,
    ht, hs, hf⟩
  · rw [hu c hc, balloc_inUse h hb hc]
  · rw [ht]
    exact h.ninodes j hj
  · rw [hs]
    exact h.size j (by rwa [← ht])
  · rw [ht] at hj
    rw [hs] at hbn
    have hbn' : bn < MAXFILE := by
      have := h.size j hj
      simp only [MAXFILE, NDIRECT, NINDIRECT, BSIZE] at this hbn ⊢
      exact Nat.lt_of_mul_lt_mul_right (Nat.lt_of_lt_of_le hbn this)
    have ha := h.full j hj bn hbn
    rw [hf j bn hj hbn' ha]
    exact ha

end Balloc

/-! ### `bmap` -/

theorem entryBlocks_fill {n : Nat} {m : UInt32 → UInt8} (h : d.blk n = Word.fill m 0 BSIZE 0) :
    d.entryBlocks n = [] := by
  rw [entryBlocks, List.flatMap_eq_nil_iff]
  intro j hj
  rw [h, word_fill_zero (List.mem_range.1 hj), slot, if_pos rfl]

theorem addrOf_setAddr {k bn : Nat} (hk : k < NDIRECT) (hne : bn ≠ k) :
    (d.setAddr i k a).addrOf i bn = d.addrOf i bn := by
  have hN : NDIRECT ≠ k := by omega
  simp only [addrOf, setAddr_addrs_self, setAddr_blk, Function.update_of_ne hN]
  by_cases hd : bn < NDIRECT
  · rw [if_pos hd, if_pos hd, Function.update_of_ne hne]
  · rw [if_neg hd, if_neg hd]

theorem addrOf_setAddr_ind {bn : Nat} (hbn : bn < NDIRECT) :
    (d.setAddr i NDIRECT a).addrOf i bn = d.addrOf i bn := by
  simp only [addrOf, if_pos hbn, setAddr_addrs_self, Function.update_of_ne (Nat.ne_of_lt hbn)]

theorem direct_congr {d' : Disk} (ha : ∀ k, k < NDIRECT → (d'.dinode i).addrs k = (d.dinode i).addrs k) :
    d'.direct i = d.direct i :=
  List.flatMap_congr fun k hk => by rw [ha k (List.mem_range.1 hk)]

section Cases

variable {d₁ : Disk} (h : BlockInv d) (hi : (d.dinode i).type ≠ 0) (hb : d.balloc = .ok (a, d₁))
include h hi hb

/-- `bmap` allocating direct block `k`. -/
theorem bmap_direct {k : Nat} (hk : k < NDIRECT) (h0 : (d.dinode i).addrs k = 0) :
    Extends d (d₁.setAddr i k a) ∧ (d₁.setAddr i k a).addrOf i k = a := by
  have hd₁ := balloc_dinode hb
  have ha : a ≠ 0 := by
    have := (balloc_fresh h hb).2.1
    rw [nmeta_eq] at this
    omega
  refine ⟨attach h hb hi ?_ (fun j hj => held_setAddr_of_ne hj) (fun c _ => inUse_congr (by rw [setAddr_blk]))
    (fun j => by rw [setAddr_type, hd₁]) (fun j => by rw [setAddr_size, hd₁]) ?_, ?_⟩
  · -- the inode holds `a` as direct block `k` besides what it held
    have hN : NDIRECT ≠ k := by omega
    have hdir : (d₁.setAddr i k a).direct i = (List.range NDIRECT).flatMap
        fun k' => slot (Function.update (d₁.dinode i).addrs k a k') := by
      simp only [direct, setAddr_addrs_self]
    have hind : (d₁.setAddr i k a).indirect i = d₁.indirect i := by
      simp only [indirect, entryBlocks, setAddr_addrs_self, setAddr_blk, Function.update_of_ne hN]
    rw [held_of_type (by rw [setAddr_type, hd₁]; exact hi), held_of_type (by rw [hd₁]; exact hi), refs, refs,
      hind, hdir]
    exact (flatMap_slot_update hk (by rw [hd₁]; exact h0) ha).append_right _
  · intro j bn hj _ hne
    by_cases hji : j = i
    · subst hji
      have hbk : bn ≠ k := by
        rintro rfl
        rw [addrOf, if_pos hk, h0] at hne
        exact hne rfl
      rw [addrOf_setAddr hk hbk, balloc_addrOf h hb hj]
    · rw [addrOf_setAddr_of_ne hji, balloc_addrOf h hb hj]
  · simp only [addrOf, if_pos hk, setAddr_addrs_self, Function.update_self]

/-- `bmap` allocating the indirect block: it holds no word yet. -/
theorem bmap_ind (h0 : (d.dinode i).addrs NDIRECT = 0) : Extends d (d₁.setAddr i NDIRECT a) := by
  have hd₁ := balloc_dinode hb
  have ha : a ≠ 0 := by
    have := (balloc_fresh h hb).2.1
    rw [nmeta_eq] at this
    omega
  refine attach h hb hi ?_ (fun j hj => held_setAddr_of_ne hj) (fun c _ => inUse_congr (by rw [setAddr_blk]))
    (fun j => by rw [setAddr_type, hd₁]) (fun j => by rw [setAddr_size, hd₁]) ?_
  · -- the new indirect block, zeroed, names no block
    have hdir : (d₁.setAddr i NDIRECT a).direct i = d₁.direct i :=
      direct_congr fun k hk => by rw [setAddr_addrs_self, Function.update_of_ne (by omega)]
    have hind : (d₁.setAddr i NDIRECT a).indirect i = [a] := by
      rw [indirect, setAddr_addrs_self, Function.update_self, if_neg ha,
        entryBlocks_fill (by rw [setAddr_blk]; exact balloc_blk_self h hb)]
    have hind₁ : d₁.indirect i = [] := by rw [indirect, hd₁, if_pos h0]
    rw [held_of_type (by rw [setAddr_type, hd₁]; exact hi), held_of_type (by rw [hd₁]; exact hi), refs, refs,
      hdir, hind, hind₁, List.append_nil]
    exact List.perm_append_singleton a _
  · intro j bn hj _ hne
    by_cases hji : j = i
    · subst hji
      by_cases hd : bn < NDIRECT
      · rw [addrOf_setAddr_ind hd, balloc_addrOf h hb hj]
      · rw [addrOf, if_neg hd, if_pos h0] at hne
        exact absurd rfl hne
    · rw [addrOf_setAddr_of_ne hji, balloc_addrOf h hb hj]

/-- `bmap` allocating word `j` of the indirect block `ind`, which it stores into the buffer `bp` it
read before `balloc`. -/
theorem bmap_entry {j : Nat} (hind : (d.dinode i).addrs NDIRECT ≠ 0) (hj : j < NINDIRECT)
    (h0 : word (d.blk ((d.dinode i).addrs NDIRECT)) j = 0) :
    Extends d (d₁.setBlock ((d.dinode i).addrs NDIRECT)
        (Word.store (d.blk ((d.dinode i).addrs NDIRECT)) (4 * j).toUInt32 a.toUInt32)) ∧
      (d₁.setBlock ((d.dinode i).addrs NDIRECT)
        (Word.store (d.blk ((d.dinode i).addrs NDIRECT)) (4 * j).toUInt32 a.toUInt32)).addrOf i (NDIRECT + j) = a := by
  set ind := (d.dinode i).addrs NDIRECT with hind_def
  set bp := d.blk ind
  set d₂ := d₁.setBlock ind (Word.store bp (4 * j).toUInt32 a.toUInt32) with hd₂
  have hd₁ := balloc_dinode hb
  obtain ⟨hfresh, hmeta, hlt⟩ := balloc_fresh h hb
  obtain ⟨hia, hiB⟩ := ind_ne h hb hi
  have hbp : d₁.blk ind = bp := balloc_blk hb hia hiB
  have hdin : d₂.dinode = d.dinode := by rw [hd₂, setBlock_dinode, hd₁]
  have ha : a ≠ 0 := by
    rw [nmeta_eq] at hmeta
    omega
  have ha32 : a < 2 ^ 32 := by
    rw [sb_size] at hlt
    omega
  -- the words of the new indirect block: word `j` is `a`, the others are kept
  have hword : ∀ j', j' < NINDIRECT → word (d₂.blk ind) j' = Function.update (word bp) j a j' := by
    intro j' hj'
    rw [setBlock_blk, Function.update_self]
    by_cases hjj : j' = j
    · subst hjj
      rw [Function.update_self, word_store_self ha32]
    · rw [Function.update_of_ne hjj, word_store_of_ne hj hj' hjj]
  have hentries : (d₂.entryBlocks ind).Perm (a :: d₁.entryBlocks ind) := by
    have e : d₂.entryBlocks ind = (List.range NINDIRECT).flatMap fun j' => slot (Function.update (word bp) j a j') :=
      List.flatMap_congr fun j' hj' => by rw [hword j' (List.mem_range.1 hj')]
    rw [e, entryBlocks, hbp]
    exact flatMap_slot_update hj h0 ha
  -- another allocated inode has another indirect block
  have hother_ind : ∀ j', j' ≠ i → (d.dinode j').type ≠ 0 → (d.dinode j').addrs NDIRECT ≠ ind := by
    intro j' hji hj' e
    by_cases h0' : (d.dinode j').addrs NDIRECT = 0
    · exact hind (by rw [← e]; exact h0')
    · have h1 : ind ∈ d.refs j' := by rw [← e]; exact ind_mem_refs h0'
      exact h.refs_disjoint hi hj' (Ne.symm hji) (ind_mem_refs hind) h1
  refine ⟨attach h hb hi ?_ (fun j' hji => ?_) (fun c hc => inUse_setBlock ?_)
    (fun j' => by rw [setBlock_dinode, hd₁]) (fun j' => by rw [setBlock_dinode, hd₁]) ?_, ?_⟩
  · -- the inode holds `a` as a word of its indirect block besides what it held
    have hi₁ : (d₁.dinode i).type ≠ 0 := by rw [hd₁]; exact hi
    rw [held_of_type (by rw [setBlock_dinode]; exact hi₁), held_of_type hi₁, refs, refs, indirect, indirect,
      setBlock_dinode, hd₁, ← hind_def, if_neg hind, if_neg hind]
    exact ((hentries.cons ind).trans (List.Perm.swap a ind _)).append_left _ |>.trans List.perm_middle
  · by_cases hj' : (d.dinode j').type = 0
    · simp only [hd₂, held, setBlock_dinode, hd₁, hj', if_true]
    · exact held_congr rfl rfl (by rw [setBlock_blk, Function.update_of_ne (by rw [hd₁]; exact hother_ind j' hji hj')])
  · have hc' : BBLOCK c = sb.bmapstart := BBLOCK_of_lt (by rw [sb_size] at hc; rw [BPB_eq]; omega)
    rw [hc']
    exact hiB
  · intro j' bn hj' hbn hne
    rw [← balloc_addrOf h hb hj']
    by_cases hji : j' = i
    · subst hji
      by_cases hd : bn < NDIRECT
      · simp only [addrOf, if_pos hd, hd₂, setBlock_dinode]
      · -- a word of the indirect block other than `j`
        have hbn' : bn - NDIRECT < NINDIRECT := by
          simp only [MAXFILE, NDIRECT, NINDIRECT, BSIZE] at hbn hd ⊢
          omega
        have hne' : bn - NDIRECT ≠ j := by
          rintro e
          rw [addrOf, if_neg hd, if_neg hind, e] at hne
          exact hne h0
        simp only [addrOf, if_neg hd, hdin, hd₁, ← hind_def, if_neg hind]
        rw [hword _ hbn', Function.update_of_ne hne', hbp]
    · exact addrOf_congr rfl (by rw [setBlock_blk, Function.update_of_ne (by rw [hd₁]; exact hother_ind j' hji hj')])
  · have hd : ¬ NDIRECT + j < NDIRECT := by omega
    simp only [addrOf, if_neg hd, hdin, ← hind_def, if_neg hind, Nat.add_sub_cancel_left]
    rw [hword j hj, Function.update_self]

end Cases

/-- The indirect half of `bmap` for an allocated inode with an indirect block. -/
theorem BlockInv.bmapWord (h : BlockInv d) (hi : (d.dinode i).type ≠ 0) {ind j : Nat} {d' : Disk}
    (he : (d.dinode i).addrs NDIRECT = ind) (hind : ind ≠ 0) (hj : j < NINDIRECT)
    (hm : d.bmapWord ind j = .ok (a, d')) : Extends d d' ∧ a ≠ 0 ∧ d'.addrOf i (NDIRECT + j) = a := by
  subst he
  unfold Disk.bmapWord at hm
  dsimp only at hm
  by_cases hw : word (d.blk ((d.dinode i).addrs NDIRECT)) j = 0
  · rw [if_pos hw, Except.bind_eq_ok] at hm
    obtain ⟨⟨a', d₁⟩, hb, hm⟩ := hm
    simp only [Except.pure_eq_ok, Except.ok.injEq, Prod.mk.injEq] at hm
    obtain ⟨rfl, rfl⟩ := hm
    obtain ⟨hx, hval⟩ := bmap_entry h hi hb hind hj hw
    have := (balloc_fresh h hb).2.1
    rw [nmeta_eq] at this
    exact ⟨hx, by omega, hval⟩
  · rw [if_neg hw, Except.pure_eq_ok, Except.ok.injEq, Prod.mk.injEq] at hm
    obtain ⟨rfl, rfl⟩ := hm
    refine ⟨Extends.refl h, hw, ?_⟩
    rw [addrOf, if_neg (by omega), if_neg hind, Nat.add_sub_cancel_left]

/-- `bmap` of an allocated inode keeps the invariant and finds a block, the one `addrOf` finds
afterwards. -/
theorem BlockInv.bmap (h : BlockInv d) (hi : (d.dinode i).type ≠ 0) {bn : Nat} (hbn : bn < MAXFILE)
    {d' : Disk} (hm : d.bmap i bn = .ok (a, d')) : Extends d d' ∧ a ≠ 0 ∧ d'.addrOf i bn = a := by
  unfold Disk.bmap at hm
  dsimp only at hm
  by_cases hd : bn < NDIRECT
  · rw [if_pos hd] at hm
    by_cases h0 : (d.dinode i).addrs bn = 0
    · -- a new direct block
      rw [if_pos h0, Except.bind_eq_ok] at hm
      obtain ⟨⟨a', d₁⟩, hb, hm⟩ := hm
      simp only [Except.pure_eq_ok, Except.ok.injEq, Prod.mk.injEq] at hm
      obtain ⟨rfl, rfl⟩ := hm
      obtain ⟨hx, hval⟩ := bmap_direct h hi hb hd h0
      have := (balloc_fresh h hb).2.1
      rw [nmeta_eq] at this
      exact ⟨hx, by omega, hval⟩
    · rw [if_neg h0, Except.pure_eq_ok, Except.ok.injEq, Prod.mk.injEq] at hm
      obtain ⟨rfl, rfl⟩ := hm
      exact ⟨Extends.refl h, h0, by rw [addrOf, if_pos hd]⟩
  · have hbn' : bn - NDIRECT < NINDIRECT := by
      simp only [MAXFILE, NDIRECT, NINDIRECT, BSIZE] at hbn hd ⊢
      omega
    have hbn'' : NDIRECT + (bn - NDIRECT) = bn := Nat.add_sub_cancel' (Nat.le_of_not_lt hd)
    rw [if_neg hd, if_pos hbn'] at hm
    by_cases h0 : (d.dinode i).addrs NDIRECT = 0
    · -- a new indirect block first
      rw [if_pos h0, Except.bind_eq_ok] at hm
      obtain ⟨⟨a₁, d₁⟩, hb, hm⟩ := hm
      have hx := bmap_ind h hi hb h0
      have ha₁ : a₁ ≠ 0 := by
        have := (balloc_fresh h hb).2.1
        rw [nmeta_eq] at this
        omega
      have hind : ((d₁.setAddr i NDIRECT a₁).dinode i).addrs NDIRECT = a₁ := by
        rw [setAddr_addrs_self, Function.update_self]
      obtain ⟨hx', ha, hval⟩ := hx.inv.bmapWord (by rw [hx.type]; exact hi) hind ha₁ hbn' hm
      exact ⟨hx.trans hx', ha, by rwa [hbn''] at hval⟩
    · rw [if_neg h0] at hm
      obtain ⟨hx, ha, hval⟩ := h.bmapWord hi rfl h0 hbn' hm
      exact ⟨hx, ha, by rwa [hbn''] at hval⟩

theorem bmap_of_addrOf {bn : Nat} (hbn : bn < MAXFILE) (ha : d.addrOf i bn ≠ 0) :
    d.bmap i bn = .ok (d.addrOf i bn, d) := by
  unfold Disk.bmap
  dsimp only
  by_cases hd : bn < NDIRECT
  · have ha' : (d.dinode i).addrs bn ≠ 0 := by rwa [addrOf, if_pos hd] at ha
    simp only [if_pos hd, if_neg ha', addrOf, Except.pure_eq_ok]
  · have hbn' : bn - NDIRECT < NINDIRECT := by
      simp only [MAXFILE, NDIRECT, NINDIRECT, BSIZE] at hbn hd ⊢
      omega
    have h0 : (d.dinode i).addrs NDIRECT ≠ 0 := by
      intro h0
      rw [addrOf, if_neg hd, if_pos h0] at ha
      exact ha rfl
    have hw : word (d.blk ((d.dinode i).addrs NDIRECT)) (bn - NDIRECT) ≠ 0 := by
      rwa [addrOf, if_neg hd, if_neg h0] at ha
    simp only [if_neg hd, if_pos hbn', if_neg h0, Disk.bmapWord, if_neg hw, addrOf, Except.pure_eq_ok]

end Disk

end Fs

end Xv6
