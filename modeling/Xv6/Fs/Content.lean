import Mathlib.Data.Finset.Card
import Xv6.Fs.Ownership

/-!
# What `readi` and `writei` do to the bytes of a file

An allocated inode's contents are its first `size` bytes, byte `p` read from the block `bmap` finds
for block `p / BSIZE` (`content`). On a disk that keeps `BlockInv`, `readi` returns a slice of the
contents, and `writei` splices its source into them, or panics in `balloc` when no block is free
(`fullDisk`, a disk that keeps the invariant with every block in use).

`writei`'s loop writes each block through the address `bmap` finds. That block belongs to the inode
written, at that block number only (`BlockInv.addrOf_inj`), and nothing else `bmap` writes (the
bitmap, a fresh block, an indirect block) holds any inode's data (`DataKept`), so every other byte
of every file stays as it was.
-/

namespace Xv6

theorem getElem_splice {α : Type} {c src : List α} {off p : Nat} (hoff : off ≤ c.length)
    (hp : p < (c.take off ++ src ++ c.drop (off + src.length)).length) :
    (c.take off ++ src ++ c.drop (off + src.length))[p] =
      if h : off ≤ p ∧ p - off < src.length then src[p - off] else c.get ⟨p, by simp at hp; omega⟩ := by
  have hlen : (c.take off).length = off := by simp [Nat.min_eq_left hoff]
  by_cases h1 : p < off
  · rw [List.getElem_append_left (by simp; omega), List.getElem_append_left (by omega), List.getElem_take,
      dif_neg (by omega), List.get_eq_getElem]
  · by_cases h2 : p < off + src.length
    · rw [List.getElem_append_left (by simp; omega), List.getElem_append_right (by omega),
        dif_pos ⟨by omega, by omega⟩]
      simp only [hlen]
    · rw [List.getElem_append_right (by simp; omega), List.getElem_drop, dif_neg (by omega), List.get_eq_getElem]
      simp only [List.length_append, hlen]
      congr 1
      omega

namespace Fs

namespace Disk

section Bytes

variable (d : Disk)

/-- Byte `p` of inode `i`: byte `p % BSIZE` of the block holding block `p / BSIZE`. -/
def byteAt (i p : Nat) : UInt8 := d.blk (d.addrOf i (p / BSIZE)) (p % BSIZE).toUInt32

/-- The contents of inode `i`: the bytes below its size. -/
def content (i : Nat) : List UInt8 := (List.range (d.dinode i).size).map (d.byteAt i)

end Bytes

variable {d d₁ d₂ : Disk} {i : Nat}

@[simp] theorem length_content : (d.content i).length = (d.dinode i).size := by
  simp [content]

theorem getElem_content {p : Nat} (hp : p < (d.content i).length) : (d.content i)[p] = d.byteAt i p := by
  simp [content]

/-! ### Each data block has one place -/

theorem slot_inj {f : Nat → Nat} {n k k' : Nat} (h : ((List.range n).flatMap fun j => slot (f j)).Nodup)
    (hk : k < n) (hk' : k' < n) (h0 : f k ≠ 0) (he : f k = f k') : k = k' := by
  by_contra hne
  exact Alloc.disjoint_of_nodup_flatMap h (List.mem_range.2 hk) (List.mem_range.2 hk') hne
    (mem_slot.2 ⟨h0, rfl⟩) (mem_slot.2 ⟨he ▸ h0, he⟩)

theorem mem_direct {k : Nat} (hk : k < NDIRECT) (h0 : (d.dinode i).addrs k ≠ 0) :
    (d.dinode i).addrs k ∈ d.direct i :=
  List.mem_flatMap.2 ⟨k, List.mem_range.2 hk, mem_slot.2 ⟨h0, rfl⟩⟩

theorem mem_entryBlocks {ind j : Nat} (hj : j < NINDIRECT) (h0 : word (d.blk ind) j ≠ 0) :
    word (d.blk ind) j ∈ d.entryBlocks ind :=
  List.mem_flatMap.2 ⟨j, List.mem_range.2 hj, mem_slot.2 ⟨h0, rfl⟩⟩

namespace BlockInv

variable (h : BlockInv d)
include h

theorem addrOf_inj_self (hi : (d.dinode i).type ≠ 0) {bn bn' : Nat} (hbn : bn < MAXFILE) (hbn' : bn' < MAXFILE)
    (ha : d.addrOf i bn ≠ 0) (he : d.addrOf i bn = d.addrOf i bn') : bn = bn' := by
  have hnd := h.refs_nodup hi
  rw [refs, List.nodup_append] at hnd
  obtain ⟨hdir, hind, hdisj⟩ := hnd
  have hw : ∀ {c}, NDIRECT ≤ c → c < MAXFILE → c - NDIRECT < NINDIRECT := fun h1 h2 => by
    simp only [MAXFILE, NDIRECT, NINDIRECT, BSIZE] at h1 h2 ⊢
    omega
  unfold addrOf at ha he
  by_cases hd : bn < NDIRECT <;> by_cases hd' : bn' < NDIRECT
  · rw [if_pos hd] at ha
    rw [if_pos hd, if_pos hd'] at he
    exact slot_inj hdir hd hd' ha he
  · -- a direct block is not a word of the indirect block
    rw [if_pos hd] at ha
    rw [if_pos hd, if_neg hd'] at he
    split at he
    · exact absurd he ha
    · next h0 =>
      refine absurd (hdisj _ (mem_direct hd ha) _ ?_ rfl) id
      rw [indirect, if_neg h0, he]
      exact List.mem_cons_of_mem _ (mem_entryBlocks (hw (Nat.le_of_not_lt hd') hbn') (he ▸ ha))
  · rw [if_neg hd] at ha
    rw [if_neg hd, if_pos hd'] at he
    split at he
    · exact absurd rfl (by rwa [if_pos ‹_›] at ha)
    · next h0 =>
      rw [if_neg h0] at ha
      refine absurd (hdisj _ (mem_direct hd' (he ▸ ha)) _ ?_ he.symm) id
      rw [indirect, if_neg h0]
      exact List.mem_cons_of_mem _ (mem_entryBlocks (hw (Nat.le_of_not_lt hd) hbn) ha)
  · -- two words of the indirect block
    rw [if_neg hd] at ha
    rw [if_neg hd, if_neg hd'] at he
    split at ha
    · exact absurd rfl ha
    · next h0 =>
      rw [if_neg h0, if_neg h0] at he
      rw [indirect, if_neg h0] at hind
      have := slot_inj (List.nodup_cons.1 hind).2 (hw (Nat.le_of_not_lt hd) hbn) (hw (Nat.le_of_not_lt hd') hbn')
        ha he
      omega

theorem addrOf_inj {j j' bn bn' : Nat} (hj : (d.dinode j).type ≠ 0) (hj' : (d.dinode j').type ≠ 0)
    (hbn : bn < MAXFILE) (hbn' : bn' < MAXFILE) (ha : d.addrOf j bn ≠ 0) (he : d.addrOf j bn = d.addrOf j' bn') :
    j = j' ∧ bn = bn' := by
  by_cases hjj : j = j'
  · subst hjj
    exact ⟨rfl, h.addrOf_inj_self hj hbn hbn' ha he⟩
  · exact absurd (h.refs_disjoint hj hj' hjj (addrOf_mem_refs hbn ha) (he ▸ addrOf_mem_refs hbn' (he ▸ ha))) id

end BlockInv

/-! ### Blocks that hold no data -/

/-- Every block an allocated inode reads as data has the same bytes in `d'` as in `d`. -/
def DataKept (d d' : Disk) : Prop :=
  ∀ j bn, (d.dinode j).type ≠ 0 → bn < MAXFILE → d.addrOf j bn ≠ 0 → d'.blk (d.addrOf j bn) = d.blk (d.addrOf j bn)

theorem DataKept.refl (d : Disk) : DataKept d d := fun _ _ _ _ _ => rfl

theorem DataKept.trans (hx : Extends d d₁) (h₁ : DataKept d d₁) (h₂ : DataKept d₁ d₂) : DataKept d d₂ := by
  intro j bn hj hbn ha
  have e := hx.addrOf j bn hj hbn ha
  rw [← e, h₂ j bn (by rw [hx.type]; exact hj) hbn (by rw [e]; exact ha), e, h₁ j bn hj hbn ha]

theorem dataKept_setAddr {k a : Nat} (h : DataKept d d₁) : DataKept d (d₁.setAddr i k a) := by
  intro j bn hj hbn ha
  rw [setAddr_blk]
  exact h j bn hj hbn ha

section Keeps

variable (h : BlockInv d)
include h

theorem balloc_keeps {a : Nat} (hb : d.balloc = .ok (a, d₁)) : DataKept d d₁ := by
  intro j bn hj hbn ha
  have hmem := addrOf_mem_refs hbn ha
  apply balloc_blk hb
  · exact fun e => (balloc_fresh h hb).1 (e ▸ h.mem_owned hj hmem)
  · have hm := (h.mem_refs hj hmem).1
    rw [nmeta_eq] at hm
    rw [sb_bmapstart]
    omega

theorem bmapWord_keeps (hi : (d.dinode i).type ≠ 0) {ind j a : Nat} {d' : Disk}
    (he : (d.dinode i).addrs NDIRECT = ind) (hind : ind ≠ 0) (hm : d.bmapWord ind j = .ok (a, d')) :
    DataKept d d' := by
  subst he
  unfold Disk.bmapWord at hm
  dsimp only at hm
  split at hm
  · rw [Except.bind_eq_ok] at hm
    obtain ⟨⟨a', d₁⟩, hb, hm⟩ := hm
    simp only [Except.pure_eq_ok, Except.ok.injEq, Prod.mk.injEq] at hm
    obtain ⟨-, rfl⟩ := hm
    -- the new word goes into the indirect block, which holds no data
    intro j' bn hj' hbn ha
    rw [setBlock_blk, Function.update_of_ne (h.addrOf_ne_ind hj' hi hbn ha hind).symm]
    exact balloc_keeps h hb j' bn hj' hbn ha
  · rw [Except.pure_eq_ok, Except.ok.injEq, Prod.mk.injEq] at hm
    obtain ⟨-, rfl⟩ := hm
    exact DataKept.refl d

theorem bmap_keeps (hi : (d.dinode i).type ≠ 0) {bn a : Nat} {d' : Disk} (hm : d.bmap i bn = .ok (a, d')) :
    DataKept d d' := by
  unfold Disk.bmap at hm
  dsimp only at hm
  split at hm
  · split at hm
    · -- a new direct block
      rw [Except.bind_eq_ok] at hm
      obtain ⟨⟨a', d₁⟩, hb, hm⟩ := hm
      simp only [Except.pure_eq_ok, Except.ok.injEq, Prod.mk.injEq] at hm
      obtain ⟨-, rfl⟩ := hm
      exact dataKept_setAddr (balloc_keeps h hb)
    · rw [Except.pure_eq_ok, Except.ok.injEq, Prod.mk.injEq] at hm
      obtain ⟨-, rfl⟩ := hm
      exact DataKept.refl d
  · split at hm
    · split at hm
      · -- a new indirect block, then its word
        next h0 =>
        rw [Except.bind_eq_ok] at hm
        obtain ⟨⟨a', d₁⟩, hb, hm⟩ := hm
        have hx := bmap_ind h hi hb h0
        have ha' : a' ≠ 0 := by
          have := (balloc_fresh h hb).2.1
          rw [nmeta_eq] at this
          omega
        refine DataKept.trans hx (dataKept_setAddr (balloc_keeps h hb)) ?_
        exact bmapWord_keeps hx.inv (by rw [hx.type]; exact hi)
          (by rw [setAddr_addrs_self, Function.update_self]) ha' hm
      · next h0 => exact bmapWord_keeps h hi rfl h0 hm
    · cases hm

end Keeps

/-! ### Bytes through a write -/

theorem byteAt_of_kept (hx : Extends d d₁) (hk : DataKept d d₁) {j p : Nat} (hj : (d.dinode j).type ≠ 0)
    (hp : p / BSIZE < MAXFILE) (ha : d.addrOf j (p / BSIZE) ≠ 0) : d₁.byteAt j p = d.byteAt j p := by
  unfold byteAt
  rw [hx.addrOf j _ hj hp ha, hk j _ hj hp ha]

section Copy

/-! A pass of `writei`'s loop copies `bs` into the block holding `off`, from `off % BSIZE` on. -/

variable (h : BlockInv d) (hi : (d.dinode i).type ≠ 0) {off : Nat} (hbn : off / BSIZE < MAXFILE)
  (ha : d.addrOf i (off / BSIZE) ≠ 0) {bs : List UInt8} (hlen : off % BSIZE + bs.length ≤ BSIZE)
include h hi hbn ha hlen

theorem byteAt_copy_in {q : Nat} (hq : q < bs.length) :
    (d.setBlock (d.addrOf i (off / BSIZE))
      (Word.copy (d.blk (d.addrOf i (off / BSIZE))) (off % BSIZE).toUInt32 bs)).byteAt i (off + q) = bs[q] := by
  have hx := h.setBlock_data hi hbn ha (Word.copy (d.blk (d.addrOf i (off / BSIZE))) (off % BSIZE).toUInt32 bs)
  have hdiv : (off + q) / BSIZE = off / BSIZE := by simp only [BSIZE] at hlen ⊢; omega
  have hmod : (off + q) % BSIZE = off % BSIZE + q := by simp only [BSIZE] at hlen ⊢; omega
  unfold byteAt
  rw [hdiv, hx.addrOf i _ hi hbn ha, setBlock_blk, Function.update_self, hmod,
    Word.copy_toUInt32 (by simp only [BSIZE] at hlen ⊢; omega) (by simp only [BSIZE] at hlen ⊢; omega),
    dif_pos ⟨Nat.le_add_right _ _, by omega⟩]
  simp only [Nat.add_sub_cancel_left]

theorem byteAt_copy_out {j p : Nat} (hj : (d.dinode j).type ≠ 0) (hp : p / BSIZE < MAXFILE)
    (hpa : d.addrOf j (p / BSIZE) ≠ 0) (hout : j = i → p < off ∨ off + bs.length ≤ p) :
    (d.setBlock (d.addrOf i (off / BSIZE))
      (Word.copy (d.blk (d.addrOf i (off / BSIZE))) (off % BSIZE).toUInt32 bs)).byteAt j p = d.byteAt j p := by
  have hx := h.setBlock_data hi hbn ha (Word.copy (d.blk (d.addrOf i (off / BSIZE))) (off % BSIZE).toUInt32 bs)
  unfold byteAt
  rw [hx.addrOf j _ hj hp hpa, setBlock_blk]
  by_cases e : d.addrOf j (p / BSIZE) = d.addrOf i (off / BSIZE)
  · -- the block written: `p` is in it, before or after the bytes copied
    obtain ⟨rfl, hb⟩ := h.addrOf_inj hj hi hp hbn hpa e
    have hout' := hout rfl
    rw [e, Function.update_self, Word.copy_toUInt32 (by simp only [BSIZE]; omega) (by simp only [BSIZE] at hlen ⊢; omega),
      dif_neg (by simp only [BSIZE] at hb hout' ⊢; omega)]
  · rw [Function.update_of_ne e]

end Copy

/-- `writei`'s loop, with the fuel of a pass per byte, puts `src` at `off` in inode `i` and keeps
every other byte an allocated inode has a block for. -/
theorem BlockInv.writeiLoop_bytes :
    ∀ {k off : Nat} {src : List UInt8} {d d' : Disk}, BlockInv d → (d.dinode i).type ≠ 0 →
      off + src.length ≤ MAXFILE * BSIZE → src.length ≤ k → d.writeiLoop i k off src = .ok d' →
      (∀ q (hq : q < src.length), d'.byteAt i (off + q) = src[q]) ∧
      ∀ j p, (d.dinode j).type ≠ 0 → p < MAXFILE * BSIZE → d.addrOf j (p / BSIZE) ≠ 0 →
        (j = i → p < off ∨ off + src.length ≤ p) → d'.byteAt j p = d.byteAt j p
  | 0, _, src, d, d', _, _, _, hk, hw => by
    rw [Disk.writeiLoop, Except.pure_eq_ok, Except.ok.injEq] at hw
    subst hw
    exact ⟨fun q hq => absurd hq (by omega), fun _ _ _ _ _ _ => rfl⟩
  | k + 1, off, src, d, d', h, hi, hlen, hk, hw => by
    rw [Disk.writeiLoop] at hw
    by_cases hs : src = []
    · rw [if_pos hs, Except.pure_eq_ok, Except.ok.injEq] at hw
      subst hw hs
      exact ⟨fun q hq => absurd hq (Nat.not_lt_zero _), fun _ _ _ _ _ _ => rfl⟩
    rw [if_neg hs, Except.bind_eq_ok] at hw
    obtain ⟨⟨a, d₁⟩, hm, hw⟩ := hw
    dsimp only at hw
    have hpos : 0 < src.length := List.length_pos_iff.2 hs
    have hbn : off / BSIZE < MAXFILE := by
      simp only [MAXFILE, NDIRECT, NINDIRECT, BSIZE] at hlen ⊢
      omega
    -- `bmap` finds the block and keeps every data block; the pass copies into the block found
    obtain ⟨hx₁, ha, rfl⟩ := h.bmap hi hbn hm
    have hk₁ := bmap_keeps h hi hm
    have hi₁ : (d₁.dinode i).type ≠ 0 := by rw [hx₁.type]; exact hi
    set m := min src.length (BSIZE - off % BSIZE) with hm_def
    have hm1 : 0 < m ∧ m ≤ src.length ∧ off % BSIZE + m ≤ BSIZE := by
      simp only [BSIZE] at hm_def ⊢
      omega
    have hlenm : off % BSIZE + (src.take m).length ≤ BSIZE := by
      rw [List.length_take]
      omega
    have hx₂ := hx₁.inv.setBlock_data hi₁ hbn ha
      (Word.copy (d₁.blk (d₁.addrOf i (off / BSIZE))) (off % BSIZE).toUInt32 (src.take m))
    have hi₂ := hx₂.type i ▸ hi₁
    have hlen' : off + m + (src.drop m).length ≤ MAXFILE * BSIZE := by
      rw [List.length_drop]
      omega
    obtain ⟨hin, hout⟩ := BlockInv.writeiLoop_bytes hx₂.inv hi₂ hlen' (by rw [List.length_drop]; omega) hw
    refine ⟨fun q hq => ?_, fun j p hj hp hpa hji => ?_⟩
    · by_cases hqm : q < m
      · -- a byte this pass wrote
        have hdiv : (off + q) / BSIZE = off / BSIZE := by simp only [BSIZE] at hm1 ⊢; omega
        have ha₂ : (d₁.setBlock (d₁.addrOf i (off / BSIZE)) (Word.copy (d₁.blk (d₁.addrOf i (off / BSIZE)))
            (off % BSIZE).toUInt32 (src.take m))).addrOf i ((off + q) / BSIZE) ≠ 0 := by
          rw [hdiv, hx₂.addrOf i _ hi₁ hbn ha]
          exact ha
        rw [hout i (off + q) hi₂ (by omega) ha₂ (fun _ => Or.inl (by omega)),
          byteAt_copy_in hx₁.inv hi₁ hbn ha hlenm (by rw [List.length_take]; omega), List.getElem_take]
      · -- a byte a later pass wrote
        have e := hin (q - m) (by rw [List.length_drop]; omega)
        rw [show off + m + (q - m) = off + q by omega] at e
        simp only [e, List.getElem_drop, Nat.add_sub_cancel' (Nat.le_of_not_lt hqm)]
    · have hbn' : p / BSIZE < MAXFILE := by
        simp only [MAXFILE, NDIRECT, NINDIRECT, BSIZE] at hp ⊢
        omega
      have hj₁ := hx₁.type j ▸ hj
      have hpa₁ : d₁.addrOf j (p / BSIZE) ≠ 0 := by rw [hx₁.addrOf j _ hj hbn' hpa]; exact hpa
      rw [hout j p (hx₂.type j ▸ hj₁) hp (by rw [hx₂.addrOf j _ hj₁ hbn' hpa₁]; exact hpa₁)
          (fun e => (hji e).imp (by omega) (by rw [List.length_drop]; omega)),
        byteAt_copy_out hx₁.inv hi₁ hbn ha hlenm hj₁ hbn' hpa₁ (fun e => (hji e).imp id (by rw [List.length_take]; omega)),
        byteAt_of_kept hx₁ hk₁ hj hbn' hpa]

/-- `readi`'s loop below the size reads the bytes of the inode, with the fuel of a pass per byte. -/
theorem BlockInv.readiLoop_bytes (h : BlockInv d) (hi : (d.dinode i).type ≠ 0) :
    ∀ k off n, off + n ≤ (d.dinode i).size → n ≤ k →
      d.readiLoop i k off n = .ok ((List.range n).map fun q => d.byteAt i (off + q), d)
  | 0, off, n, _, hk => by
    rw [Nat.le_zero.1 hk]
    rfl
  | k + 1, off, n, hn, hk => by
    rw [Disk.readiLoop]
    by_cases h0 : n = 0
    · subst h0
      rfl
    rw [if_neg h0]
    have hsize := h.size i hi
    have hbn : off / BSIZE < MAXFILE := by
      simp only [MAXFILE, NDIRECT, NINDIRECT, BSIZE] at hsize ⊢
      omega
    have ha : d.addrOf i (off / BSIZE) ≠ 0 := h.full i hi _ (by simp only [BSIZE]; omega)
    rw [bmap_of_addrOf hbn ha, Except.ok_bind]
    dsimp only
    set m := min n (BSIZE - off % BSIZE) with hm_def
    have hm1 : 0 < m ∧ m ≤ n ∧ off % BSIZE + m ≤ BSIZE := by
      simp only [BSIZE] at hm_def ⊢
      omega
    rw [BlockInv.readiLoop_bytes h hi k (off + m) (n - m) (by omega) (by omega), Except.ok_bind]
    -- the bytes of this block, then those of the rest
    have hhead : (List.range m).map (fun q => d.blk (d.addrOf i (off / BSIZE)) (off % BSIZE + q).toUInt32) =
        (List.range m).map fun q => d.byteAt i (off + q) := by
      refine List.map_congr_left fun q hq => ?_
      have hq' := List.mem_range.1 hq
      have hdiv : (off + q) / BSIZE = off / BSIZE := by simp only [BSIZE] at hm1 ⊢; omega
      have hmod : (off + q) % BSIZE = off % BSIZE + q := by simp only [BSIZE] at hm1 ⊢; omega
      rw [byteAt, hdiv, hmod]
    have htail : (List.range (n - m)).map (fun q => d.byteAt i (off + m + q)) =
        ((List.range (n - m)).map (m + ·)).map fun q => d.byteAt i (off + q) := by
      rw [List.map_map]
      simp only [Function.comp_def, Nat.add_assoc]
    rw [hhead, htail, ← List.map_append, ← List.range_add, Nat.add_sub_cancel' hm1.2.1]
    rfl

/-! ### What the calls return -/

theorem byteAt_setSize {j n p : Nat} : (d.setSize j n).byteAt i p = d.byteAt i p := by
  rw [byteAt, byteAt, addrOf_setSize, setSize_blk]

theorem content_congr {d' : Disk} (hs : (d'.dinode i).size = (d.dinode i).size)
    (hb : ∀ p, p < (d.dinode i).size → d'.byteAt i p = d.byteAt i p) : d'.content i = d.content i := by
  rw [content, content, hs]
  exact List.map_congr_left fun p hp => hb p (List.mem_range.1 hp)

/-- On a disk that keeps the invariant, `readi` returns the contents from `off` on, at most `n` of
them, or -1 past the end or when `off + n` wraps. -/
theorem BlockInv.readi_content (h : BlockInv d) (hi : (d.dinode i).type ≠ 0) (off n : Nat) :
    d.readi i off n = .ok ((if off > (d.dinode i).size ∨ 2 ^ 32 ≤ off + n then none
      else some (((d.content i).drop off).take (min n ((d.dinode i).size - off)))), d) := by
  unfold Disk.readi
  dsimp only
  by_cases hg : off > (d.dinode i).size ∨ 2 ^ 32 ≤ off + n
  · rw [if_pos hg, if_pos hg]
    rfl
  rw [if_neg hg, if_neg hg]
  have hm : (if off + n > (d.dinode i).size then (d.dinode i).size - off else n) = min n ((d.dinode i).size - off) := by
    split <;> omega
  rw [hm, h.readiLoop_bytes hi _ off _ (by omega) le_rfl, Except.ok_bind]
  -- the slice of the contents, byte by byte
  congr 3
  apply List.ext_getElem
  · simp only [List.length_map, List.length_range, List.length_take, List.length_drop, length_content]
    omega
  · intro q h₁ h₂
    rw [List.getElem_map, List.getElem_range, List.getElem_take, List.getElem_drop, getElem_content]

/-! ### The free blocks a write needs -/

/-- The blocks below `sb.size` that the bitmap marks free. -/
def freeBlocks (d : Disk) : Nat := ((Finset.range sb.size).filter fun b => ¬ d.inUse b).card

/-- The blocks of inode `i` that `writei(ip, src, off, n)` writes into and that have no address. -/
def missing (d : Disk) (i off n : Nat) : Finset Nat :=
  (Finset.range MAXFILE).filter fun bn => 0 < n ∧ off < (bn + 1) * BSIZE ∧ bn * BSIZE < off + n ∧ d.addrOf i bn = 0

/-- The blocks `writei(ip, src, off, n)` on inode `i` has `balloc` allocate: each block it writes
into that has no address, and the indirect block where it writes past the direct blocks and there
is none. -/
def writeNeeds (d : Disk) (i off n : Nat) : Nat :=
  (d.missing i off n).card + if 0 < n ∧ NDIRECT * BSIZE < off + n ∧ (d.dinode i).addrs NDIRECT = 0 then 1 else 0

/-- What `bmap` of block `bn` allocates: the block, if it has no address, and the indirect block,
if it is an indirect block and there is none. -/
def bmapNeeds (d : Disk) (i bn : Nat) : Nat :=
  (if d.addrOf i bn = 0 then 1 else 0) + if NDIRECT ≤ bn ∧ (d.dinode i).addrs NDIRECT = 0 then 1 else 0

theorem freeBlocks_congr {d' : Disk} (h : ∀ b, b < sb.size → (d'.inUse b ↔ d.inUse b)) :
    d'.freeBlocks = d.freeBlocks := by
  unfold freeBlocks
  rw [Finset.filter_congr fun b hb => by rw [h b (Finset.mem_range.1 hb)]]

@[simp] theorem freeBlocks_setAddr {k a : Nat} : (d.setAddr i k a).freeBlocks = d.freeBlocks :=
  freeBlocks_congr fun _ _ => inUse_congr (by rw [setAddr_blk])

theorem BlockInv.freeBlocks_setBlock (h : BlockInv d) (hi : (d.dinode i).type ≠ 0) {b : Nat} (hb : b ∈ d.refs i)
    (m : UInt32 → UInt8) : (d.setBlock b m).freeBlocks = d.freeBlocks :=
  freeBlocks_congr fun _ hc => inUse_setBlock (h.BBLOCK_ne hi hb hc)

theorem BlockInv.balloc_freeBlocks (h : BlockInv d) {a : Nat} (hb : d.balloc = .ok (a, d₁)) :
    d₁.freeBlocks + 1 = d.freeBlocks := by
  obtain ⟨hlt, hfree, -⟩ := balloc_eq_ok hb
  have hmem : a ∈ (Finset.range sb.size).filter fun c => ¬ d.inUse c :=
    Finset.mem_filter.2 ⟨Finset.mem_range.2 hlt, hfree⟩
  have he : ((Finset.range sb.size).filter fun c => ¬ d₁.inUse c) =
      ((Finset.range sb.size).filter fun c => ¬ d.inUse c).erase a := by
    ext c
    simp only [Finset.mem_filter, Finset.mem_erase, Finset.mem_range]
    constructor
    · rintro ⟨hc, hu⟩
      rw [balloc_inUse h hb hc, not_or] at hu
      exact ⟨hu.2, hc, hu.1⟩
    · rintro ⟨hne, hc, hu⟩
      rw [balloc_inUse h hb hc, not_or]
      exact ⟨hc, hu, hne⟩
  unfold freeBlocks
  rw [he, Finset.card_erase_of_mem hmem]
  have := Finset.card_pos.2 ⟨a, hmem⟩
  omega

theorem ballocScan_eq_none {b : Nat} (hb : b % BPB = 0) :
    ∀ {k bi : Nat}, d.ballocScan b k bi = none →
      ∀ c, bi ≤ c → c < bi + k → c < BPB → b + c < sb.size → d.inUse (b + c)
  | 0, _, _, _, h₁, h₂, _, _ => absurd h₂ (by omega)
  | k + 1, bi, h, c, h₁, h₂, hc, hs => by
    rw [ballocScan] at h
    by_cases hcnd : bi < BPB ∧ b + bi < sb.size
    · rw [if_pos hcnd] at h
      dsimp only at h
      by_cases hbit : d.blk (BBLOCK b) (bi / 8).toUInt32 &&& bit bi = 0
      · rw [if_pos hbit] at h
        cases h
      · rw [if_neg hbit] at h
        rcases Nat.eq_or_lt_of_le h₁ with rfl | hlt
        · obtain ⟨hB, hm⟩ := scan_bit hb hcnd.1
          rw [inUse, hB, hm]
          exact hbit
        · exact ballocScan_eq_none hb h c hlt (by omega) hc hs
    · exact absurd ⟨by omega, by omega⟩ hcnd

theorem balloc_error {e : String} (he : d.balloc = .error e) : e = "balloc: out of blocks" ∧ d.freeBlocks = 0 := by
  unfold balloc at he
  cases hl : d.ballocLoop sb.size 0 with
  | some r =>
    rw [hl] at he
    cases he
  | none =>
    rw [hl] at he
    cases he
    refine ⟨rfl, ?_⟩
    -- every block's bit is in the first bitmap block, which the scan went through
    have hs : d.ballocScan 0 BPB 0 = none := by
      rw [show sb.size = 999 + 1 from rfl, ballocLoop, if_pos (by decide)] at hl
      cases hsc : d.ballocScan 0 BPB 0 with
      | none => rfl
      | some r =>
        rw [hsc] at hl
        cases hl
    unfold freeBlocks
    rw [Finset.card_eq_zero, Finset.filter_eq_empty_iff]
    intro c hc hu
    have hc' := Finset.mem_range.1 hc
    have := ballocScan_eq_none (b := 0) rfl hs c (Nat.zero_le c) (by rw [sb_size] at hc'; rw [BPB_eq]; omega)
      (by rw [sb_size] at hc'; rw [BPB_eq]; omega) (by omega)
    rw [Nat.zero_add] at this
    exact hu this

theorem bmapWord_dinode {ind j a : Nat} {d' : Disk} (hm : d.bmapWord ind j = .ok (a, d')) : d'.dinode = d.dinode := by
  unfold Disk.bmapWord at hm
  dsimp only at hm
  split_ifs at hm
  · obtain ⟨⟨a', d₁⟩, hb, hm⟩ := Except.bind_eq_ok.1 hm
    cases hm
    rw [setBlock_dinode, balloc_dinode hb]
  · cases hm
    rfl

theorem bmap_addrs_ind {bn a : Nat} {d' : Disk} (hm : d.bmap i bn = .ok (a, d'))
    (h0 : (d.dinode i).addrs NDIRECT ≠ 0) : (d'.dinode i).addrs NDIRECT = (d.dinode i).addrs NDIRECT := by
  unfold Disk.bmap at hm
  dsimp only at hm
  by_cases hd : bn < NDIRECT
  · rw [if_pos hd] at hm
    by_cases hb0 : (d.dinode i).addrs bn = 0
    · -- a direct block other than the indirect slot
      rw [if_pos hb0] at hm
      obtain ⟨⟨a', d₁⟩, hb, hm⟩ := Except.bind_eq_ok.1 hm
      cases hm
      rw [setAddr_addrs_self, Function.update_of_ne (by omega), balloc_dinode hb]
    · rw [if_neg hb0] at hm
      cases hm
      rfl
  · -- through the indirect block the inode has: `bmapWord` writes blocks only
    rw [if_neg hd] at hm
    split_ifs at hm
    rw [bmapWord_dinode hm]

theorem BlockInv.bmapWord_freeBlocks (h : BlockInv d) (hi : (d.dinode i).type ≠ 0) {ind j a : Nat} {d' : Disk}
    (he : (d.dinode i).addrs NDIRECT = ind) (hind : ind ≠ 0) (hm : d.bmapWord ind j = .ok (a, d')) :
    d'.freeBlocks + (if word (d.blk ind) j = 0 then 1 else 0) = d.freeBlocks := by
  subst he
  unfold Disk.bmapWord at hm
  dsimp only at hm
  split_ifs at hm with hw
  · obtain ⟨⟨a', d₁⟩, hb, hm⟩ := Except.bind_eq_ok.1 hm
    simp only [Except.pure_eq_ok, Except.ok.injEq, Prod.mk.injEq] at hm
    obtain ⟨rfl, rfl⟩ := hm
    -- the word is stored into the indirect block, which is not the bitmap block
    rw [if_pos hw, freeBlocks_congr fun c hc => inUse_setBlock (h.BBLOCK_ne hi (ind_mem_refs hind) hc),
      h.balloc_freeBlocks hb]
  · cases hm
    rw [if_neg hw, add_zero]

/-- `bmap` takes a free block for a block with no address, and one more for a missing indirect
block. -/
theorem BlockInv.bmap_freeBlocks (h : BlockInv d) (hi : (d.dinode i).type ≠ 0) {bn a : Nat} (hbn : bn < MAXFILE)
    {d' : Disk} (hm : d.bmap i bn = .ok (a, d')) : d'.freeBlocks + d.bmapNeeds i bn = d.freeBlocks := by
  unfold bmapNeeds
  unfold Disk.bmap at hm
  dsimp only at hm
  by_cases hd : bn < NDIRECT
  · have hA : (if NDIRECT ≤ bn ∧ (d.dinode i).addrs NDIRECT = 0 then 1 else 0) = 0 :=
      if_neg fun h' => absurd h'.1 (by omega)
    rw [if_pos hd] at hm
    rw [hA, add_zero, addrOf, if_pos hd]
    by_cases h0 : (d.dinode i).addrs bn = 0
    · rw [if_pos h0, Except.bind_eq_ok] at hm
      obtain ⟨⟨a', d₁⟩, hb, hm⟩ := hm
      simp only [Except.pure_eq_ok, Except.ok.injEq, Prod.mk.injEq] at hm
      obtain ⟨rfl, rfl⟩ := hm
      rw [if_pos h0, freeBlocks_setAddr, h.balloc_freeBlocks hb]
    · rw [if_neg h0] at hm
      cases hm
      rw [if_neg h0, add_zero]
  · have hbn' : bn - NDIRECT < NINDIRECT := by
      simp only [MAXFILE, NDIRECT, NINDIRECT, BSIZE] at hbn hd ⊢
      omega
    rw [if_neg hd, if_pos hbn'] at hm
    by_cases h0 : (d.dinode i).addrs NDIRECT = 0
    · -- a new indirect block, zeroed, so its word takes a block too
      rw [if_pos h0, Except.bind_eq_ok] at hm
      obtain ⟨⟨a₁, d₁⟩, hb, hm⟩ := hm
      have hx := bmap_ind h hi hb h0
      have ha₁ : a₁ ≠ 0 := by
        have := (balloc_fresh h hb).2.1
        rw [nmeta_eq] at this
        omega
      have hind : ((d₁.setAddr i NDIRECT a₁).dinode i).addrs NDIRECT = a₁ := by
        rw [setAddr_addrs_self, Function.update_self]
      have hzero : word ((d₁.setAddr i NDIRECT a₁).blk a₁) (bn - NDIRECT) = 0 := by
        obtain ⟨-, -, rfl⟩ := balloc_eq_ok hb
        rw [setAddr_blk, bzero, setBlock_blk, Function.update_self]
        exact word_fill_zero hbn'
      have hw := hx.inv.bmapWord_freeBlocks (by rw [hx.type]; exact hi) hind ha₁ hm
      rw [if_pos hzero, freeBlocks_setAddr] at hw
      rw [addrOf, if_neg hd, if_pos h0, if_pos rfl, if_pos ⟨Nat.le_of_not_lt hd, h0⟩,
        ← h.balloc_freeBlocks hb, ← hw]
    · rw [if_neg h0] at hm
      have hw := h.bmapWord_freeBlocks hi rfl h0 hm
      rw [addrOf, if_neg hd, if_neg h0,
        if_neg (show ¬(NDIRECT ≤ bn ∧ (d.dinode i).addrs NDIRECT = 0) from fun h' => h0 h'.2), add_zero]
      exact hw

theorem bmapWord_error {ind j : Nat} {e : String} (he : d.bmapWord ind j = .error e) :
    e = "balloc: out of blocks" ∧ word (d.blk ind) j = 0 ∧ d.freeBlocks = 0 := by
  unfold Disk.bmapWord at he
  dsimp only at he
  split_ifs at he with hw
  · cases hb : d.balloc with
    | error e' =>
      rw [hb, Except.error_bind] at he
      cases he
      obtain ⟨hmsg, hfree⟩ := balloc_error hb
      exact ⟨hmsg, hw, hfree⟩
    | ok r =>
      rw [hb, Except.ok_bind] at he
      cases he
  · cases he

theorem BlockInv.bmap_error (h : BlockInv d) {bn : Nat} (hbn : bn < MAXFILE) {e : String}
    (he : d.bmap i bn = .error e) : e = "balloc: out of blocks" ∧ d.freeBlocks < d.bmapNeeds i bn := by
  unfold bmapNeeds
  unfold Disk.bmap at he
  dsimp only at he
  by_cases hd : bn < NDIRECT
  · rw [if_pos hd] at he
    by_cases h0 : (d.dinode i).addrs bn = 0
    · rw [if_pos h0] at he
      cases hb : d.balloc with
      | error e' =>
        rw [hb, Except.error_bind] at he
        cases he
        obtain ⟨hmsg, hfree⟩ := balloc_error hb
        rw [addrOf, if_pos hd, if_pos h0, hfree]
        exact ⟨hmsg, by omega⟩
      | ok r =>
        rw [hb, Except.ok_bind] at he
        cases he
    · rw [if_neg h0] at he
      cases he
  · have hbn' : bn - NDIRECT < NINDIRECT := by
      simp only [MAXFILE, NDIRECT, NINDIRECT, BSIZE] at hbn hd ⊢
      omega
    rw [if_neg hd, if_pos hbn'] at he
    by_cases h0 : (d.dinode i).addrs NDIRECT = 0
    · rw [if_pos h0] at he
      rw [addrOf, if_neg hd, if_pos h0, if_pos rfl, if_pos ⟨Nat.le_of_not_lt hd, h0⟩]
      cases hb : d.balloc with
      | error e' =>
        rw [hb, Except.error_bind] at he
        cases he
        obtain ⟨hmsg, hfree⟩ := balloc_error hb
        rw [hfree]
        exact ⟨hmsg, by omega⟩
      | ok r =>
        -- the indirect block was taken, then its word found no block
        obtain ⟨a₁, d₁⟩ := r
        rw [hb, Except.ok_bind] at he
        dsimp only at he
        obtain ⟨hmsg, -, h₁⟩ := bmapWord_error he
        rw [freeBlocks_setAddr] at h₁
        have := h.balloc_freeBlocks hb
        exact ⟨hmsg, by omega⟩
    · rw [if_neg h0] at he
      obtain ⟨hmsg, hw, h₁⟩ := bmapWord_error he
      rw [addrOf, if_neg hd, if_neg h0, if_pos hw, h₁]
      exact ⟨hmsg, by omega⟩

section Needs

variable {off n : Nat}

theorem addrs_ind_ne_of_addrOf {bn : Nat} (hb : NDIRECT ≤ bn) (h : d.addrOf i bn ≠ 0) :
    (d.dinode i).addrs NDIRECT ≠ 0 := by
  unfold addrOf at h
  rw [if_neg (Nat.not_lt.2 hb)] at h
  intro h0
  rw [if_pos h0] at h
  exact h rfl

theorem mem_missing_self (hn : 0 < n) (hbn : off / BSIZE < MAXFILE) :
    off / BSIZE ∈ d.missing i off n ↔ d.addrOf i (off / BSIZE) = 0 := by
  have hbs : BSIZE = 512 := rfl
  unfold missing
  rw [Finset.mem_filter]
  constructor
  · exact fun h' => h'.2.2.2.2
  · exact fun h0 => ⟨Finset.mem_range.2 hbn, hn, by rw [hbs]; omega, by rw [hbs]; omega, h0⟩

theorem indNeeds_le (hn : 0 < n) :
    (if NDIRECT ≤ off / BSIZE ∧ (d.dinode i).addrs NDIRECT = 0 then 1 else 0) ≤
      if 0 < n ∧ NDIRECT * BSIZE < off + n ∧ (d.dinode i).addrs NDIRECT = 0 then 1 else 0 := by
  split_ifs with h₁ h₂
  · exact le_rfl
  · have h₃ := h₁.1
    simp only [NDIRECT, BSIZE] at h₃ h₂
    exact absurd ⟨hn, by omega, h₁.2⟩ h₂
  · exact Nat.zero_le _
  · exact le_rfl

theorem bmapNeeds_le_writeNeeds (hn : 0 < n) (hbn : off / BSIZE < MAXFILE) :
    d.bmapNeeds i (off / BSIZE) ≤ d.writeNeeds i off n := by
  unfold bmapNeeds writeNeeds
  refine Nat.add_le_add ?_ (indNeeds_le hn)
  split_ifs with h0
  · exact Finset.card_pos.2 ⟨_, (mem_missing_self hn hbn).2 h0⟩
  · exact Nat.zero_le _

/-- After the pass at `off`, what the rest of the write needs and what the pass took add up to at
most what the whole write needed: the blocks left are among those the write needed, and an indirect
block the pass allocated is not needed again. -/
theorem writeNeeds_pass {d' : Disk} (hx : Extends d d') (hi : (d.dinode i).type ≠ 0) (hn : 0 < n)
    (hlen : off + n ≤ MAXFILE * BSIZE) (ha : d'.addrOf i (off / BSIZE) ≠ 0)
    (hind : (d.dinode i).addrs NDIRECT ≠ 0 → (d'.dinode i).addrs NDIRECT ≠ 0) :
    d'.writeNeeds i (off + min n (BSIZE - off % BSIZE)) (n - min n (BSIZE - off % BSIZE)) + d.bmapNeeds i (off / BSIZE) ≤
      d.writeNeeds i off n := by
  have hbs : BSIZE = 512 := rfl
  have hb₀ : off / BSIZE < MAXFILE := by
    simp only [MAXFILE, NDIRECT, NINDIRECT, hbs] at hlen ⊢
    omega
  set m := min n (BSIZE - off % BSIZE) with hm
  -- the blocks the rest needs are blocks the whole write needed, past the first
  have hsub : d'.missing i (off + m) (n - m) ⊆ (d.missing i off n).erase (off / BSIZE) := by
    intro bn hb
    obtain ⟨hbn, h₁, h₂, h₃, h₄⟩ := Finset.mem_filter.1 hb
    have h₀ : d.addrOf i bn = 0 := by
      by_contra h0
      rw [hx.addrOf i bn hi (Finset.mem_range.1 hbn) h0] at h₄
      exact h0 h₄
    rw [hm, hbs] at h₁ h₂ h₃
    refine Finset.mem_erase.2 ⟨fun e => ?_, Finset.mem_filter.2 ⟨hbn, hn, by rw [hbs]; omega, by rw [hbs]; omega, h₀⟩⟩
    rw [e, hbs] at h₂
    omega
  -- the pass's own block is among them exactly when it had no address
  have hblocks : (d'.missing i (off + m) (n - m)).card + (if d.addrOf i (off / BSIZE) = 0 then 1 else 0) ≤
      (d.missing i off n).card := by
    have hcard := Finset.card_le_card hsub
    rw [Finset.card_erase_eq_ite, if_congr (mem_missing_self hn hb₀) rfl rfl] at hcard
    split_ifs at hcard ⊢ with h₀
    · have := Finset.card_pos.2 ⟨_, (mem_missing_self hn hb₀).2 h₀⟩
      omega
    · omega
  -- the indirect block: allocated by this pass, or needed by the rest only if by the whole write
  have hindirect : (if 0 < n - m ∧ NDIRECT * BSIZE < off + m + (n - m) ∧ (d'.dinode i).addrs NDIRECT = 0 then 1 else 0) +
      (if NDIRECT ≤ off / BSIZE ∧ (d.dinode i).addrs NDIRECT = 0 then 1 else 0) ≤
      if 0 < n ∧ NDIRECT * BSIZE < off + n ∧ (d.dinode i).addrs NDIRECT = 0 then 1 else 0 := by
    by_cases hI : NDIRECT ≤ off / BSIZE ∧ (d.dinode i).addrs NDIRECT = 0
    · have h' := addrs_ind_ne_of_addrOf hI.1 ha
      rw [if_neg fun h₁ => h' h₁.2.2, zero_add]
      exact indNeeds_le hn
    · rw [if_neg hI, add_zero]
      split_ifs with h₁ h₂
      · exact le_rfl
      · refine absurd ⟨by omega, by omega, ?_⟩ h₂
        by_contra h0
        exact hind h0 h₁.2.2
      · exact Nat.zero_le _
      · exact le_rfl
  unfold writeNeeds bmapNeeds
  omega

end Needs

/-- A write that panics does so in `balloc`, and needs more blocks than are free. The induction is
on the passes left: a pass takes from the free blocks exactly what it takes off what the rest of
the write needs. -/
theorem BlockInv.writeiLoop_error :
    ∀ {k off : Nat} {src : List UInt8} {d : Disk} {e : String}, BlockInv d → (d.dinode i).type ≠ 0 →
      off + src.length ≤ MAXFILE * BSIZE → d.writeiLoop i k off src = .error e →
      e = "balloc: out of blocks" ∧ d.freeBlocks < d.writeNeeds i off src.length
  | 0, _, _, _, _, _, _, _, he => by cases he
  | k + 1, off, src, d, e, h, hi, hlen, he => by
    rw [Disk.writeiLoop] at he
    by_cases hs : src = []
    · rw [if_pos hs] at he
      cases he
    rw [if_neg hs] at he
    have hpos : 0 < src.length := List.length_pos_iff.2 hs
    have hbn : off / BSIZE < MAXFILE := by
      simp only [MAXFILE, NDIRECT, NINDIRECT, BSIZE] at hlen ⊢
      omega
    cases hm : d.bmap i (off / BSIZE) with
    | error e' =>
      rw [hm, Except.error_bind] at he
      cases he
      obtain ⟨hmsg, hlt⟩ := h.bmap_error hbn hm
      exact ⟨hmsg, lt_of_lt_of_le hlt (bmapNeeds_le_writeNeeds hpos hbn)⟩
    | ok r =>
      obtain ⟨a, d₁⟩ := r
      rw [hm, Except.ok_bind] at he
      dsimp only at he
      set m := min src.length (BSIZE - off % BSIZE) with hm_def
      set d₂ := d₁.setBlock a (Word.copy (d₁.blk a) (off % BSIZE).toUInt32 (src.take m)) with hd₂
      -- the pass: `bmap`, then the data written into the block it found
      obtain ⟨hx₁, ha, hval⟩ := h.bmap hi hbn hm
      have hi₁ : (d₁.dinode i).type ≠ 0 := by rw [hx₁.type]; exact hi
      have href : a ∈ d₁.refs i := hval ▸ addrOf_mem_refs hbn (hval ▸ ha)
      have hx₂ : Extends d₁ d₂ := by
        have hx := hx₁.inv.setBlock_data hi₁ hbn (by rw [hval]; exact ha)
          (Word.copy (d₁.blk a) (off % BSIZE).toUInt32 (src.take m))
        rwa [hval] at hx
      have hfree₁ := h.bmap_freeBlocks hi hbn hm
      have hfree₂ : d₂.freeBlocks = d₁.freeBlocks := hx₁.inv.freeBlocks_setBlock hi₁ href _
      have hlen' : off + m + (src.drop m).length ≤ MAXFILE * BSIZE := by
        rw [List.length_drop]
        omega
      obtain ⟨hmsg, ih⟩ := BlockInv.writeiLoop_error hx₂.inv (by rw [hx₂.type]; exact hi₁) hlen' he
      have hneeds := writeNeeds_pass (hx₁.trans hx₂) hi hpos hlen (by rw [show d₂.addrOf i (off / BSIZE) = a from
          by rw [← hval]; exact (hx₂.addrOf i _ hi₁ hbn (by rw [hval]; exact ha))]; exact ha)
        (fun h0 => by rw [show d₂.dinode = d₁.dinode from rfl, bmap_addrs_ind hm h0]; exact h0)
      rw [← hm_def] at hneeds
      rw [List.length_drop] at ih
      exact ⟨hmsg, by omega⟩

/-- `writei` returns -1 and changes nothing before `off`, or when `off + n` wraps or passes
`MAXFILE * BSIZE`. -/
theorem writei_guard {off : Nat} {src : List UInt8}
    (hg : off > (d.dinode i).size ∨ 2 ^ 32 ≤ off + src.length ∨ off + src.length > MAXFILE * BSIZE) :
    d.writei i off src = .ok (none, d) := by
  unfold writei
  by_cases hg₁ : off > (d.dinode i).size ∨ 2 ^ 32 ≤ off + src.length
  · rw [if_pos hg₁]
    rfl
  · rw [if_neg hg₁, if_pos (by omega)]
    rfl

/-- Past its guards, `writei` panics in `balloc`, or writes `src` over the contents at `off`, the
size growing to `off + n` if that is larger, every other file unchanged. -/
theorem BlockInv.writei_content (h : BlockInv d) (hi : (d.dinode i).type ≠ 0) {off : Nat} {src : List UInt8}
    (hg : ¬(off > (d.dinode i).size ∨ 2 ^ 32 ≤ off + src.length ∨ off + src.length > MAXFILE * BSIZE)) :
    (d.writei i off src = .error "balloc: out of blocks" ∧ d.freeBlocks < d.writeNeeds i off src.length) ∨
      ∃ d', d.writei i off src = .ok (some src.length, d') ∧ BlockInv d' ∧
        (d'.dinode i).size = max (d.dinode i).size (off + src.length) ∧
        d'.content i = (d.content i).take off ++ src ++ (d.content i).drop (off + src.length) ∧
        ∀ j, j ≠ i → (d.dinode j).type ≠ 0 → d'.content j = d.content j := by
  have hsize := h.size i hi
  have hw := fun r d' => @BlockInv.writei d i h hi off src r d'
  unfold Disk.writei at hw ⊢
  rw [if_neg (by omega), if_neg (by omega)] at hw ⊢
  cases hl : d.writeiLoop i src.length off src with
  | error e =>
    left
    obtain ⟨hmsg, hlt⟩ := BlockInv.writeiLoop_error h hi (by omega) hl
    rw [Except.error_bind, hmsg]
    exact ⟨rfl, hlt⟩
  | ok d₁ =>
    right
    rw [hl, Except.ok_bind] at hw
    rw [Except.ok_bind]
    obtain ⟨hx, -⟩ := BlockInv.writeiLoop h hi (by omega) hl
    obtain ⟨hin, hout⟩ := BlockInv.writeiLoop_bytes h hi (by omega) le_rfl hl
    have hbn : ∀ {j p}, (d.dinode j).type ≠ 0 → p < (d.dinode j).size → p < MAXFILE * BSIZE := fun hj hp =>
      Nat.lt_of_lt_of_le hp (h.size _ hj)
    have hfull : ∀ {j p}, (d.dinode j).type ≠ 0 → p < (d.dinode j).size → d.addrOf j (p / BSIZE) ≠ 0 :=
      fun hj hp => h.full _ hj _ (by simp only [BSIZE]; omega)
    -- every disk that reads like `d₁` and has the new size has the spliced contents
    have hsplice : ∀ d' : Disk, (∀ p, d'.byteAt i p = d₁.byteAt i p) →
        (d'.dinode i).size = max (d.dinode i).size (off + src.length) →
        d'.content i = (d.content i).take off ++ src ++ (d.content i).drop (off + src.length) := by
      intro d' hb hs
      apply List.ext_getElem
      · simp only [length_content, List.length_append, List.length_take, List.length_drop, hs]
        omega
      · intro p h₁ h₂
        rw [getElem_splice (by rw [length_content]; omega), getElem_content, hb]
        split
        · next hp =>
          have e := hin (p - off) hp.2
          rwa [Nat.add_sub_cancel' hp.1] at e
        · next hp =>
          rw [List.get_eq_getElem, getElem_content]
          have hp' : p < (d.dinode i).size := by
            simp only [length_content, List.length_append, List.length_take, List.length_drop] at h₂
            omega
          exact hout i p hi (hbn hi hp') (hfull hi hp') fun _ => by omega
    have hother : ∀ d' : Disk, (∀ j p, d'.byteAt j p = d₁.byteAt j p) →
        (∀ j, j ≠ i → (d'.dinode j).size = (d.dinode j).size) →
        ∀ j, j ≠ i → (d.dinode j).type ≠ 0 → d'.content j = d.content j := by
      intro d' hb hs j hji hj
      refine content_congr (hs j hji) fun p hp => ?_
      rw [hb]
      exact hout j p hj (hbn hj hp) (hfull hj hp) fun e => absurd e hji
    dsimp only at hw ⊢
    split
    · -- the write ends past the old size
      next hgrow =>
      rw [hx.size] at hgrow
      refine ⟨_, rfl, (hw _ _ (by rw [if_pos (by rw [hx.size]; exact hgrow)]; rfl)).1, ?_, ?_, ?_⟩
      · rw [setSize_size, if_pos rfl]
        omega
      · exact hsplice _ (fun _ => byteAt_setSize) (by rw [setSize_size, if_pos rfl]; omega)
      · exact hother _ (fun _ _ => byteAt_setSize) fun j hji => by rw [setSize_size, if_neg hji, hx.size]
    · next hgrow =>
      rw [hx.size] at hgrow
      refine ⟨_, rfl, (hw _ _ (by rw [if_neg (by rw [hx.size]; exact hgrow)]; rfl)).1, ?_, ?_, ?_⟩
      · rw [hx.size]
        omega
      · exact hsplice _ (fun _ => rfl) (by rw [hx.size]; omega)
      · exact hother _ (fun _ _ => rfl) fun j _ => hx.size j

theorem readi_writei_content {d : Disk} (h : BlockInv d) {i : Nat}
    (hi : (d.dinode i).type = T_FILE ∨ (d.dinode i).type = T_DIR) (off n : Nat) (src : List UInt8) :
    d.readi i off n = .ok ((if off > (d.dinode i).size ∨ 2 ^ 32 ≤ off + n then none
      else some (((d.content i).drop off).take (min n ((d.dinode i).size - off)))), d) ∧
    (off > (d.dinode i).size ∨ 2 ^ 32 ≤ off + src.length ∨ off + src.length > MAXFILE * BSIZE →
      d.writei i off src = .ok (none, d)) ∧
    (¬(off > (d.dinode i).size ∨ 2 ^ 32 ≤ off + src.length ∨ off + src.length > MAXFILE * BSIZE) →
      (d.writei i off src = .error "balloc: out of blocks" ∧ d.freeBlocks < d.writeNeeds i off src.length) ∨
      ∃ d', d.writei i off src = .ok (some src.length, d') ∧ BlockInv d' ∧
        (d'.dinode i).size = max (d.dinode i).size (off + src.length) ∧
        d'.content i = (d.content i).take off ++ src ++ (d.content i).drop (off + src.length) ∧
        ∀ j, j ≠ i → (d.dinode j).type ≠ 0 → d'.content j = d.content j) := by
  have hi' : (d.dinode i).type ≠ 0 := by
    rcases hi with e | e <;> rw [e] <;> decide
  exact ⟨h.readi_content hi' off n, writei_guard, h.writei_content hi'⟩

theorem readi_writei_content_root :
    mkfs.readi ROOTINO 0 16 = .ok ((if 0 > (mkfs.dinode ROOTINO).size ∨ 2 ^ 32 ≤ 0 + 16 then none
      else some (((mkfs.content ROOTINO).drop 0).take (min 16 ((mkfs.dinode ROOTINO).size - 0)))), mkfs) ∧
    (0 > (mkfs.dinode ROOTINO).size ∨ 2 ^ 32 ≤ 0 + [0].length ∨ 0 + [0].length > MAXFILE * BSIZE →
      mkfs.writei ROOTINO 0 [0] = .ok (none, mkfs)) ∧
    (¬(0 > (mkfs.dinode ROOTINO).size ∨ 2 ^ 32 ≤ 0 + [0].length ∨ 0 + [0].length > MAXFILE * BSIZE) →
      (mkfs.writei ROOTINO 0 [0] = .error "balloc: out of blocks" ∧
        mkfs.freeBlocks < mkfs.writeNeeds ROOTINO 0 [0].length) ∨
      ∃ d', mkfs.writei ROOTINO 0 [0] = .ok (some [0].length, d') ∧ BlockInv d' ∧
        (d'.dinode ROOTINO).size = max (mkfs.dinode ROOTINO).size (0 + [0].length) ∧
        d'.content ROOTINO = (mkfs.content ROOTINO).take 0 ++ [0] ++ (mkfs.content ROOTINO).drop (0 + [0].length) ∧
        ∀ j, j ≠ ROOTINO → (mkfs.dinode j).type ≠ 0 → d'.content j = mkfs.content j) :=
  readi_writei_content mkfs_blockInv (Or.inr rfl) 0 16 [0]

theorem balloc_full (hf : ∀ b, b < sb.size → d.inUse b) : d.balloc = .error "balloc: out of blocks" := by
  unfold balloc
  cases hl : d.ballocLoop sb.size 0 with
  | none => rfl
  | some r =>
    obtain ⟨a, d'⟩ := r
    obtain ⟨hlt, hfree, -⟩ := ballocLoop_eq_some rfl hl
    exact absurd (hf a hlt) hfree

/-! ### A disk with no free block -/

/-- The first data block of inode `i` of `fullDisk`. -/
def fullBase (i : Nat) : Nat := nmeta + NDIRECT * (i - 1)

/-- The number of data blocks inode `i` of `fullDisk` holds: the 941 data blocks are 78 times
`NDIRECT` and 5. -/
def fullLen (i : Nat) : Nat := if i < 79 then NDIRECT else 5

/-- A disk that keeps `BlockInv` with every block in use: inodes 1 to 79 are files whose direct
blocks are the data blocks in order, and the bitmap marks every block. -/
def fullDisk : Disk where
  dinode i :=
    if 1 ≤ i ∧ i ≤ 79 then ⟨T_FILE, 0, 0, 1, fullLen i * BSIZE, fun k => if k < fullLen i then fullBase i + k else 0⟩
    else ⟨0, 0, 0, 0, 0, fun _ => 0⟩
  blk n := if n = sb.bmapstart then fun _ => 255 else fun _ => 0

theorem fullDisk_dinode {k : Nat} (hk : 1 ≤ k ∧ k ≤ 79) :
    fullDisk.dinode k = ⟨T_FILE, 0, 0, 1, fullLen k * BSIZE, fun j => if j < fullLen k then fullBase k + j else 0⟩ :=
  if_pos hk

theorem fullDisk_dinode_free {k : Nat} (hk : ¬(1 ≤ k ∧ k ≤ 79)) : fullDisk.dinode k = ⟨0, 0, 0, 0, 0, fun _ => 0⟩ :=
  if_neg hk

theorem fullLen_le (k : Nat) : fullLen k ≤ NDIRECT := by
  unfold fullLen
  split <;> decide

theorem flatMap_slot_range {b : Nat} (hb : 0 < b) (m : Nat) :
    ∀ n, ((List.range n).flatMap fun k => slot (if k < m then b + k else 0)) = List.range' b (min n m)
  | 0 => rfl
  | n + 1 => by
    rw [List.range_succ, List.flatMap_append, flatMap_slot_range hb m n, List.flatMap_singleton]
    by_cases hn : n < m
    · rw [if_pos hn, slot, if_neg (by omega), Nat.min_eq_left (by omega), Nat.min_eq_left (by omega)]
      exact List.range'_append_1 (m := n) (n := 1)
    · rw [if_neg hn, slot, if_pos rfl, List.append_nil, Nat.min_eq_right (by omega), Nat.min_eq_right (by omega)]

theorem fullDisk_held (k : Nat) :
    fullDisk.held k = if 1 ≤ k ∧ k ≤ 79 then List.range' (fullBase k) (fullLen k) else [] := by
  by_cases hk : 1 ≤ k ∧ k ≤ 79
  · have hind : (fullDisk.dinode k).addrs NDIRECT = 0 := by
      rw [fullDisk_dinode hk]
      exact if_neg (Nat.not_lt.2 (fullLen_le k))
    rw [held, if_neg (by rw [fullDisk_dinode hk]; show ¬T_FILE = 0; decide), refs, indirect, if_pos hind, List.append_nil, direct,
      fullDisk_dinode hk, flatMap_slot_range (by simp only [fullBase, nmeta_eq]; omega),
      Nat.min_eq_right (fullLen_le k), if_pos hk]
  · rw [held, if_pos (by rw [fullDisk_dinode_free hk]), if_neg hk]

theorem fullDisk_owned : ∀ n, (List.range n).flatMap fullDisk.held = List.range' nmeta (min (NDIRECT * (n - 1)) 941)
  | 0 => rfl
  | n + 1 => by
    rw [List.range_succ, List.flatMap_append, fullDisk_owned n, List.flatMap_singleton, fullDisk_held]
    simp only [fullBase, fullLen, NDIRECT, nmeta_eq]
    split
    · next hn =>
      rw [Nat.min_eq_left (by omega : 12 * (n - 1) ≤ 941), List.range'_append_1]
      congr 1
      split <;> omega
    · rw [List.append_nil]
      congr 1
      omega

theorem fullDisk_inUse {b : Nat} (hb : b < sb.size) : fullDisk.inUse b := by
  rw [inUse_iff, BBLOCK_of_lt (by rw [sb_size] at hb; rw [BPB_eq]; omega)]
  simp only [fullDisk, if_true]
  rw [show (255 : UInt8).toNat = 2 ^ 8 - 1 from rfl, Nat.testBit_two_pow_sub_one]
  simp only [decide_eq_true_eq]
  omega

theorem fullDisk_blockInv : BlockInv fullDisk := by
  have howned : fullDisk.owned = List.range' nmeta 941 := fullDisk_owned NINODES
  refine ⟨⟨?_, fun a ha => ?_, fun b hb => ?_⟩, fun i hi => ?_, fun i hi => ?_, fun i hi bn hbn => ?_⟩
  · rw [howned]
    exact List.nodup_range'
  · rw [howned, List.mem_range'_1, nmeta_eq] at ha
    rw [sb_size, nmeta_eq]
    omega
  · rw [howned, List.mem_range'_1, nmeta_eq]
    rw [sb_size] at hb
    exact iff_of_true (fullDisk_inUse (by rw [sb_size]; exact hb)) (by omega)
  · rw [sb_ninodes, NINODES] at hi
    rw [fullDisk_dinode_free (by omega)]
  -- the allocated inodes are 1 to 79, each with a block for each of its `fullLen` blocks
  all_goals
    by_cases hk : 1 ≤ i ∧ i ≤ 79
    case neg => rw [fullDisk_dinode_free hk] at hi; exact absurd rfl hi
  · rw [fullDisk_dinode hk]
    have := fullLen_le i
    simp only [MAXFILE, NDIRECT, NINDIRECT, BSIZE] at this ⊢
    omega
  · rw [fullDisk_dinode hk] at hbn
    have hbn' : bn < fullLen i := by simp only [BSIZE] at hbn; omega
    rw [addrOf, fullDisk_dinode hk, if_pos (Nat.lt_of_lt_of_le hbn' (fullLen_le i))]
    dsimp only
    rw [if_pos hbn']
    simp only [fullBase, nmeta_eq]
    omega

/-- On `fullDisk`, where every block is in use, one byte appended to inode 79, at its size and far
below `MAXFILE * BSIZE`, needs a new block, and `writei` panics in `balloc`. -/
theorem writei_panics_on_full_disk :
    BlockInv fullDisk ∧ (fullDisk.dinode 79).type = T_FILE ∧ (fullDisk.dinode 79).size = 2560 ∧
      fullDisk.writei 79 2560 [0] = .error "balloc: out of blocks" := by
  refine ⟨fullDisk_blockInv, rfl, rfl, ?_⟩
  have hd : fullDisk.dinode 79 = ⟨T_FILE, 0, 0, 1, 2560, fun k => if k < 5 then 995 + k else 0⟩ := rfl
  -- block 5 of inode 79 has no address, and `balloc` finds no free block for it
  have hloop : fullDisk.writeiLoop 79 1 2560 [0] = .error "balloc: out of blocks" := by
    rw [writeiLoop.eq_2, if_neg (List.cons_ne_nil 0 []), bmap, hd]
    dsimp only
    rw [if_pos (by decide), if_pos (by decide), balloc_full fun b hb => fullDisk_inUse hb]
    rfl
  unfold writei
  rw [hd, if_neg (by decide), if_neg (by decide), List.length_singleton, hloop]
  rfl

end Disk

end Fs

end Xv6
