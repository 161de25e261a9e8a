import Xv6.Fs.Bitmap
import Xv6.Lib.Machine

/-!
# Every data block has one owner

The file-system calls reach the blocks only through `readi`, `writei`, `ialloc`, the `itrunc` in
`iput` that frees an inode, and `iupdate` of an inode's link count and device numbers. Each keeps
`BlockInv` (`BlockInv.writei`, `BlockInv.readi`, `BlockInv.iputFree`, `BlockInv.ialloc`), so the
invariant holds on every disk reached from a well-formed image (`Disk.Reachable`), `mkfs`'s among
them (`mkfs_blockInv`).

`writei` writes only the blocks `bmap` finds for the inode, never the bitmap or an indirect block,
and grows the size only over blocks it has just found, so no inode gets a hole. `readi` reads
below the size, where every block has an address, so its `bmap` allocates nothing. `itrunc` frees
every block the inode refers to, each once, so `bfree` never finds a bit already clear.
-/

namespace Xv6

namespace Fs

namespace Disk

variable {d : Disk} {i : Nat}

/-! ### Frames -/

theorem BlockInv.ind_ne_bmapstart (h : BlockInv d) {j : Nat} (hj : (d.dinode j).type ≠ 0) :
    (d.dinode j).addrs NDIRECT ≠ sb.bmapstart := by
  by_cases h0 : (d.dinode j).addrs NDIRECT = 0
  · rw [h0, sb_bmapstart]
    decide
  · have hm := (h.mem_refs hj (ind_mem_refs h0)).1
    rw [nmeta_eq] at hm
    rw [sb_bmapstart]
    omega

theorem BlockInv.BBLOCK_ne (h : BlockInv d) {b c : Nat} (hi : (d.dinode i).type ≠ 0) (hb : b ∈ d.refs i)
    (hc : c < sb.size) : b ≠ BBLOCK c := by
  have hm := (h.mem_refs hi hb).1
  rw [BBLOCK_of_lt (by rw [sb_size] at hc; rw [BPB_eq]; omega), sb_bmapstart]
  rw [nmeta_eq] at hm
  omega

theorem BlockInv.frame (h : BlockInv d) {d' : Disk} {j : Nat} (hj : (d.dinode j).type ≠ 0)
    (hd : d'.dinode j = d.dinode j) (hb : ∀ n, n ≠ sb.bmapstart → d'.blk n = d.blk n) :
    d'.held j = d.held j ∧ ∀ bn, d'.addrOf j bn = d.addrOf j bn := by
  have hblk := hb _ (h.ind_ne_bmapstart hj)
  exact ⟨held_congr (by rw [hd]) (by rw [hd]) hblk, fun _ => addrOf_congr (by rw [hd]) hblk⟩

/-- `writei` writing into block `bn` of an allocated inode: a data block, which no inode reads as
its indirect block and which is not the bitmap block. -/
theorem BlockInv.setBlock_data (h : BlockInv d) (hi : (d.dinode i).type ≠ 0) {bn : Nat} (hbn : bn < MAXFILE)
    (ha : d.addrOf i bn ≠ 0) (m : UInt32 → UInt8) : Extends d (d.setBlock (d.addrOf i bn) m) := by
  have hmem := addrOf_mem_refs hbn ha
  -- every allocated inode's indirect block keeps its words
  have hind : ∀ j, (d.dinode j).type ≠ 0 →
      (d.setBlock (d.addrOf i bn) m).blk ((d.dinode j).addrs NDIRECT) = d.blk ((d.dinode j).addrs NDIRECT) := by
    intro j hj
    rw [setBlock_blk]
    by_cases h0 : (d.dinode j).addrs NDIRECT = 0
    · rw [h0, Function.update_of_ne (Ne.symm ha)]
    · rw [Function.update_of_ne (h.addrOf_ne_ind hi hj hbn ha h0)]
  have hheld : ∀ j, (d.setBlock (d.addrOf i bn) m).held j = d.held j := by
    intro j
    by_cases hj : (d.dinode j).type = 0
    · simp only [held, setBlock_dinode, hj, if_true]
    · exact held_congr rfl rfl (hind j hj)
  have haddr : ∀ j bn', (d.dinode j).type ≠ 0 → (d.setBlock (d.addrOf i bn) m).addrOf j bn' = d.addrOf j bn' :=
    fun j _ hj => addrOf_congr rfl (hind j hj)
  refine ⟨⟨h.accounts.congr (by rw [owned_congr hheld]) fun c hc => inUse_setBlock (h.BBLOCK_ne hi hmem hc),
    h.ninodes, h.size, fun j hj bn' hbn' => ?_⟩, fun _ => rfl, fun _ => rfl, fun j bn' hj _ _ => haddr j bn' hj⟩
  rw [haddr j bn' hj]
  exact h.full j hj bn' hbn'

/-- `writei` growing an allocated inode to `n` bytes, all of whose blocks it has found. -/
theorem BlockInv.setSize (h : BlockInv d) (hi : (d.dinode i).type ≠ 0) {n : Nat} (hn : n ≤ MAXFILE * BSIZE)
    (hf : ∀ bn, bn * BSIZE < n → d.addrOf i bn ≠ 0) : BlockInv (d.setSize i n) := by
  refine ⟨h.accounts.congr (by rw [owned_congr fun _ => held_setSize]) fun _ _ => Iff.rfl,
    fun j hj => by rw [setSize_type]; exact h.ninodes j hj, fun j hj => ?_, fun j hj bn hbn => ?_⟩
  · rw [setSize_type] at hj
    rw [setSize_size]
    split
    · exact hn
    · exact h.size j hj
  · rw [setSize_type] at hj
    rw [setSize_size] at hbn
    rw [addrOf_setSize]
    split at hbn
    · subst_vars
      exact hf bn hbn
    · exact h.full j hj bn hbn

/-! ### `writei` -/

/-- `writei`'s loop keeps the invariant and finds a block for every block it writes, from the one
`off` is in to the one the last byte is in, given the fuel of one pass per byte. -/
theorem BlockInv.writeiLoop :
    ∀ {k off : Nat} {src : List UInt8} {d d' : Disk}, BlockInv d → (d.dinode i).type ≠ 0 →
      off + src.length ≤ MAXFILE * BSIZE → d.writeiLoop i k off src = .ok d' →
      Extends d d' ∧ (src.length ≤ k → src ≠ [] →
        ∀ bn, off / BSIZE ≤ bn → bn * BSIZE < off + src.length → d'.addrOf i bn ≠ 0)
  | 0, _, src, d, d', h, _, _, hw => by
    rw [Disk.writeiLoop, Except.pure_eq_ok, Except.ok.injEq] at hw
    subst hw
    exact ⟨Extends.refl h, fun hk hs => absurd (List.length_eq_zero_iff.1 (Nat.le_zero.1 hk)) hs⟩
  | k + 1, off, src, d, d', h, hi, hlen, hw => by
    rw [Disk.writeiLoop] at hw
    by_cases hs : src = []
    · rw [if_pos hs, Except.pure_eq_ok, Except.ok.injEq] at hw
      subst hw
      exact ⟨Extends.refl h, fun _ hs' => absurd hs hs'⟩
    rw [if_neg hs, Except.bind_eq_ok] at hw
    obtain ⟨⟨a, d₁⟩, hm, hw⟩ := hw
    dsimp only at hw
    set m := min src.length (BSIZE - off % BSIZE) with hm_def
    set d₂ := d₁.setBlock a (Word.copy (d₁.blk a) (off % BSIZE).toUInt32 (src.take m)) with hd₂
    have hpos : 0 < src.length := List.length_pos_iff.2 hs
    have hbn : off / BSIZE < MAXFILE := by
      simp only [MAXFILE, NDIRECT, NINDIRECT, BSIZE] at hlen ⊢
      omega
    -- `bmap` finds the block, then the pass writes into it
    obtain ⟨hx₁, ha, hval⟩ := h.bmap hi hbn hm
    have hi₁ : (d₁.dinode i).type ≠ 0 := by rw [hx₁.type]; exact hi
    have hx₂ : Extends d₁ d₂ := by
      have hx := hx₁.inv.setBlock_data hi₁ hbn (by rw [hval]; exact ha)
        (Word.copy (d₁.blk a) (off % BSIZE).toUInt32 (src.take m))
      rwa [hval] at hx
    have hi₂ : (d₂.dinode i).type ≠ 0 := by rw [hx₂.type]; exact hi₁
    have hlen' : off + m + (src.drop m).length ≤ MAXFILE * BSIZE := by
      rw [List.length_drop]
      omega
    obtain ⟨hx₃, hcov⟩ := BlockInv.writeiLoop hx₂.inv hi₂ hlen' hw
    refine ⟨hx₁.trans (hx₂.trans hx₃), fun hk _ bn hlo hhi => ?_⟩
    by_cases hb0 : bn = off / BSIZE
    · -- the block this pass wrote
      subst hb0
      have hv : d₂.addrOf i (off / BSIZE) = a := by rw [hx₂.addrOf i _ hi₁ hbn (by rw [hval]; exact ha), hval]
      rw [hx₃.addrOf i _ hi₂ hbn (by rw [hv]; exact ha), hv]
      exact ha
    · -- a later block, written by a later pass
      simp only [BSIZE] at hlo hhi hb0 hcov hm_def ⊢
      apply hcov (by rw [List.length_drop]; omega) (by rw [Ne, List.drop_eq_nil_iff]; omega) bn (by omega)
      rw [List.length_drop]
      omega

theorem BlockInv.writei (h : BlockInv d) (hi : (d.dinode i).type ≠ 0) {off : Nat} {src : List UInt8}
    {r : Option Nat} {d' : Disk} (hw : d.writei i off src = .ok (r, d')) :
    BlockInv d' ∧ ∀ j, (d'.dinode j).type = (d.dinode j).type := by
  unfold Disk.writei at hw
  by_cases hg : off > (d.dinode i).size ∨ 2 ^ 32 ≤ off + src.length
  · rw [if_pos hg, Except.pure_eq_ok, Except.ok.injEq, Prod.mk.injEq] at hw
    obtain ⟨-, rfl⟩ := hw
    exact ⟨h, fun _ => rfl⟩
  rw [if_neg hg] at hw
  by_cases hg' : off + src.length > MAXFILE * BSIZE
  · rw [if_pos hg', Except.pure_eq_ok, Except.ok.injEq, Prod.mk.injEq] at hw
    obtain ⟨-, rfl⟩ := hw
    exact ⟨h, fun _ => rfl⟩
  rw [if_neg hg', Except.bind_eq_ok] at hw
  obtain ⟨d₁, hl, hw⟩ := hw
  obtain ⟨hx, hcov⟩ := BlockInv.writeiLoop h hi (by omega) hl
  have hi₁ : (d₁.dinode i).type ≠ 0 := by rw [hx.type]; exact hi
  dsimp only at hw
  split at hw
  · -- the inode grows to `off + n`, over the blocks the loop found
    next hgrow =>
    rw [Except.pure_eq_ok, Except.ok.injEq, Prod.mk.injEq] at hw
    obtain ⟨-, rfl⟩ := hw
    refine ⟨hx.inv.setSize hi₁ (by omega) fun bn hbn => ?_, fun j => by rw [setSize_type, hx.type]⟩
    by_cases hlt : bn * BSIZE < (d₁.dinode i).size
    · exact hx.inv.full i hi₁ bn hlt
    · rw [hx.size] at hlt
      simp only [BSIZE] at hlt hbn hg ⊢
      exact hcov le_rfl (List.length_pos_iff.1 hgrow.1) bn (by simp only [BSIZE]; omega) hbn
  · rw [Except.pure_eq_ok, Except.ok.injEq, Prod.mk.injEq] at hw
    obtain ⟨-, rfl⟩ := hw
    exact ⟨hx.inv, hx.type⟩

/-! ### `readi` -/

theorem BlockInv.readiLoop (h : BlockInv d) (hi : (d.dinode i).type ≠ 0) :
    ∀ k off n, off + n ≤ (d.dinode i).size → ∃ bytes, d.readiLoop i k off n = .ok (bytes, d)
  | 0, _, _, _ => ⟨[], rfl⟩
  | k + 1, off, n, hn => by
    rw [Disk.readiLoop]
    by_cases h0 : n = 0
    · exact ⟨[], by rw [if_pos h0]; rfl⟩
    rw [if_neg h0]
    have hsize := h.size i hi
    have hbn : off / BSIZE < MAXFILE := by
      simp only [MAXFILE, NDIRECT, NINDIRECT, BSIZE] at hsize ⊢
      omega
    have ha : d.addrOf i (off / BSIZE) ≠ 0 := h.full i hi _ (by simp only [BSIZE]; omega)
    obtain ⟨rest, hrest⟩ := BlockInv.readiLoop h hi k (off + min n (BSIZE - off % BSIZE))
      (n - min n (BSIZE - off % BSIZE)) (by omega)
    refine ⟨(List.range (min n (BSIZE - off % BSIZE))).map
      (fun j => d.blk (d.addrOf i (off / BSIZE)) (off % BSIZE + j).toUInt32) ++ rest, ?_⟩
    rw [bmap_of_addrOf hbn ha, Except.ok_bind]
    dsimp only
    rw [hrest, Except.ok_bind]
    rfl

/-- `readi` of an allocated inode never fails and changes nothing: its `bmap` never allocates. -/
theorem BlockInv.readi (h : BlockInv d) (hi : (d.dinode i).type ≠ 0) (off n : Nat) :
    ∃ r, d.readi i off n = .ok (r, d) := by
  unfold Disk.readi
  dsimp only
  by_cases hg : off > (d.dinode i).size ∨ 2 ^ 32 ≤ off + n
  · exact ⟨none, by rw [if_pos hg]; rfl⟩
  rw [if_neg hg]
  have hn : off + (if off + n > (d.dinode i).size then (d.dinode i).size - off else n) ≤ (d.dinode i).size := by
    split <;> omega
  obtain ⟨bytes, hb⟩ := h.readiLoop hi _ off _ hn
  exact ⟨some bytes, by rw [Except.bind_eq_ok]; exact ⟨(bytes, d), hb, rfl⟩⟩

/-! ### `itrunc` -/

section Free

variable {A : Nat} {rest : List Nat}

theorem inUse_clearBit_rest (hbits : ∀ b ∈ slot A ++ rest, d.inUse b ∧ b < BPB) (hnd : (slot A ++ rest).Nodup)
    (hA : A ≠ 0) : ∀ b ∈ rest, (d.clearBit A).inUse b ∧ b < BPB := by
  have hAm : A ∈ slot A ++ rest := List.mem_append_left _ (mem_slot.2 ⟨hA, rfl⟩)
  intro b hb
  have hbA : b ≠ A := fun e => List.disjoint_of_nodup_append hnd (mem_slot.2 ⟨hA, rfl⟩) (e ▸ hb)
  have hb' := hbits b (List.mem_append_right _ hb)
  exact ⟨(inUse_clearBit (hbits A hAm).2 hb'.2).2 ⟨hb'.1, hbA⟩, hb'.2⟩

theorem inUse_free_cons {d₁ d' : Disk} (hA : A ≠ 0) (h₁ : ∀ c, c < BPB → (d₁.inUse c ↔ d.inUse c ∧ c ≠ A))
    (h' : ∀ c, c < BPB → (d'.inUse c ↔ d₁.inUse c ∧ c ∉ rest)) :
    ∀ c, c < BPB → (d'.inUse c ↔ d.inUse c ∧ c ∉ slot A ++ rest) := by
  intro c hc
  rw [h' c hc, h₁ c hc, List.mem_append, mem_slot, not_or, not_and_or, not_not]
  constructor
  · rintro ⟨⟨hu, hne⟩, hr⟩
    exact ⟨hu, Or.inr hne, hr⟩
  · rintro ⟨hu, hne, hr⟩
    exact ⟨⟨hu, hne.resolve_left hA⟩, hr⟩

end Free

/-- `itrunc`'s loop over the direct addresses `ks` frees the blocks they name. -/
theorem itruncDirect_fold (i : Nat) : ∀ (ks : List Nat) (d : Disk), ks.Nodup → NDIRECT ∉ ks →
    (∀ b ∈ ks.flatMap (fun k => slot ((d.dinode i).addrs k)), d.inUse b ∧ b < BPB) →
    (ks.flatMap fun k => slot ((d.dinode i).addrs k)).Nodup →
    ∃ d', ks.foldlM (fun d k => d.itruncDirect i k) d = .ok d' ∧
      (∀ c, c < BPB → (d'.inUse c ↔ d.inUse c ∧ c ∉ ks.flatMap fun k => slot ((d.dinode i).addrs k))) ∧
      (∀ n, n ≠ sb.bmapstart → d'.blk n = d.blk n) ∧ (∀ j, j ≠ i → d'.dinode j = d.dinode j) ∧
      (d'.dinode i).type = (d.dinode i).type ∧ (d'.dinode i).addrs NDIRECT = (d.dinode i).addrs NDIRECT
  | [], d, _, _, _, _ => ⟨d, rfl, fun c _ => by simp, fun _ _ => rfl, fun _ _ => rfl, rfl, rfl⟩
  | k :: ks, d, hnd, hN, hbits, hdist => by
    obtain ⟨hk, hnd⟩ := List.nodup_cons.1 hnd
    have hkN : NDIRECT ≠ k := fun e => hN (e ▸ List.mem_cons_self)
    have hN' : NDIRECT ∉ ks := fun h => hN (List.mem_cons_of_mem _ h)
    rw [List.flatMap_cons] at hbits hdist ⊢
    rw [List.foldlM_cons]
    by_cases h0 : (d.dinode i).addrs k = 0
    · -- nothing to free at `k`
      have e : d.itruncDirect i k = .ok d := by
        rw [itruncDirect, if_neg (not_not.2 h0)]
        rfl
      rw [h0, slot, if_pos rfl, List.nil_append] at hbits hdist ⊢
      obtain ⟨d', hf, h1, h2, h3, h4, h5⟩ := itruncDirect_fold i ks d hnd hN' hbits hdist
      exact ⟨d', by rw [e, Except.ok_bind]; exact hf, h1, h2, h3, h4, h5⟩
    · -- `bfree`, then `addrs[k] = 0`
      have hAm : (d.dinode i).addrs k ∈ slot ((d.dinode i).addrs k) ++
          ks.flatMap (fun k => slot ((d.dinode i).addrs k)) := List.mem_append_left _ (mem_slot.2 ⟨h0, rfl⟩)
      have hA := hbits _ hAm
      have e : d.itruncDirect i k = .ok ((d.clearBit ((d.dinode i).addrs k)).setAddr i k 0) := by
        rw [itruncDirect, if_pos h0, bfree_eq hA.1]
        rfl
      have hrest : (ks.flatMap fun k' => slot ((((d.clearBit ((d.dinode i).addrs k)).setAddr i k 0).dinode i).addrs k')) =
          ks.flatMap fun k' => slot ((d.dinode i).addrs k') :=
        List.flatMap_congr fun k' hk' => by
          rw [setAddr_addrs_self, Function.update_of_ne (ne_of_mem_of_not_mem hk' hk), clearBit_dinode]
      obtain ⟨d', hf, h1, h2, h3, h4, h5⟩ := itruncDirect_fold i ks _ hnd hN'
        (by rw [hrest]; exact inUse_clearBit_rest hbits hdist h0) (by rw [hrest]; exact (List.nodup_append.1 hdist).2.1)
      refine ⟨d', by rw [e, Except.ok_bind]; exact hf, ?_, fun n hn => ?_, fun j hj => ?_, ?_, ?_⟩
      · rw [hrest] at h1
        exact inUse_free_cons h0 (fun c hc => inUse_clearBit hA.2 hc) h1
      · rw [h2 n hn, setAddr_blk, clearBit_blk_of_ne (by rw [BBLOCK_of_lt hA.2]; exact hn)]
      · rw [h3 j hj, setAddr_dinode, Function.update_of_ne hj, clearBit_dinode]
      · rw [h4, setAddr_type, clearBit_dinode]
      · rw [h5, setAddr_addrs_self, Function.update_of_ne hkN, clearBit_dinode]

/-- `itrunc`'s loop over the words `js` of the indirect block `bp` frees the blocks they name. -/
theorem itruncWord_fold (bp : UInt32 → UInt8) : ∀ (js : List Nat) (d : Disk),
    (∀ b ∈ js.flatMap (fun j => slot (word bp j)), d.inUse b ∧ b < BPB) →
    (js.flatMap fun j => slot (word bp j)).Nodup →
    ∃ d', js.foldlM (fun d j => d.itruncWord bp j) d = .ok d' ∧
      (∀ c, c < BPB → (d'.inUse c ↔ d.inUse c ∧ c ∉ js.flatMap fun j => slot (word bp j))) ∧
      (∀ n, n ≠ sb.bmapstart → d'.blk n = d.blk n) ∧ d'.dinode = d.dinode
  | [], d, _, _ => ⟨d, rfl, fun c _ => by simp, fun _ _ => rfl, rfl⟩
  | j :: js, d, hbits, hdist => by
    rw [List.flatMap_cons] at hbits hdist ⊢
    rw [List.foldlM_cons]
    by_cases h0 : word bp j = 0
    · have e : d.itruncWord bp j = .ok d := by
        rw [itruncWord, if_neg (not_not.2 h0)]
        rfl
      rw [h0, slot, if_pos rfl, List.nil_append] at hbits hdist ⊢
      obtain ⟨d', hf, h1, h2, h3⟩ := itruncWord_fold bp js d hbits hdist
      exact ⟨d', by rw [e, Except.ok_bind]; exact hf, h1, h2, h3⟩
    · have hA := hbits _ (List.mem_append_left _ (mem_slot.2 ⟨h0, rfl⟩))
      have e : d.itruncWord bp j = .ok (d.clearBit (word bp j)) := by
        rw [itruncWord, if_pos h0, bfree_eq hA.1]
      obtain ⟨d', hf, h1, h2, h3⟩ := itruncWord_fold bp js _ (inUse_clearBit_rest hbits hdist h0)
        (List.nodup_append.1 hdist).2.1
      refine ⟨d', by rw [e, Except.ok_bind]; exact hf, inUse_free_cons h0 (fun c hc => inUse_clearBit hA.2 hc) h1,
        fun n hn => ?_, by rw [h3, clearBit_dinode]⟩
      rw [h2 n hn, clearBit_blk_of_ne (by rw [BBLOCK_of_lt hA.2]; exact hn)]

/-- `itrunc` of an allocated inode never frees a free block: it frees every block the inode refers
to, each once, and changes no other inode and no block but the bitmap block. -/
theorem BlockInv.itrunc (h : BlockInv d) (hi : (d.dinode i).type ≠ 0) :
    ∃ d', d.itrunc i = .ok d' ∧ (∀ c, c < sb.size → (d'.inUse c ↔ d.inUse c ∧ c ∉ d.refs i)) ∧
      (∀ n, n ≠ sb.bmapstart → d'.blk n = d.blk n) ∧ (∀ j, j ≠ i → d'.dinode j = d.dinode j) ∧
      (d'.dinode i).type = (d.dinode i).type := by
  have hbits : ∀ b ∈ d.refs i, d.inUse b ∧ b < BPB := fun b hb => by
    obtain ⟨-, hlt, hu⟩ := h.mem_refs hi hb
    rw [sb_size] at hlt
    exact ⟨hu, by rw [BPB_eq]; omega⟩
  have hnd := h.refs_nodup hi
  rw [refs, List.nodup_append] at hnd
  have hlt : ∀ c, c < sb.size → c < BPB := fun c hc => by rw [sb_size] at hc; rw [BPB_eq]; omega
  -- the direct blocks first
  obtain ⟨d₁, hf₁, h1, h2, h3, h4, h5⟩ := itruncDirect_fold i (List.range NDIRECT) d List.nodup_range
    (fun hN => Nat.lt_irrefl _ (List.mem_range.1 hN)) (fun b hb => hbits b (List.mem_append_left _ hb)) hnd.1
  unfold Disk.itrunc
  rw [hf₁, Except.ok_bind]
  dsimp only
  rw [h5]
  by_cases h0 : (d.dinode i).addrs NDIRECT = 0
  · -- no indirect block
    rw [if_neg (not_not.2 h0)]
    refine ⟨d₁.setSize i 0, rfl, fun c hc => ?_, fun n hn => ?_, fun j hj => ?_, ?_⟩
    · rw [refs, indirect, if_pos h0, List.append_nil]
      exact h1 c (hlt c hc)
    · rw [setSize_blk, h2 n hn]
    · rw [setSize_dinode, Function.update_of_ne hj, h3 j hj]
    · rw [setSize_type, h4]
  · -- then the words of the indirect block, then the indirect block
    rw [if_pos h0]
    have hind : d.indirect i = (d.dinode i).addrs NDIRECT :: d.entryBlocks ((d.dinode i).addrs NDIRECT) := by
      rw [indirect, if_neg h0]
    rw [hind] at hnd
    rw [refs, hind] at hbits
    have hbp : d₁.blk ((d.dinode i).addrs NDIRECT) = d.blk ((d.dinode i).addrs NDIRECT) :=
      h2 _ (h.ind_ne_bmapstart hi)
    rw [hbp]
    obtain ⟨hdist, hcons, hsep⟩ := hnd
    obtain ⟨hnotin, hent⟩ := List.nodup_cons.1 hcons
    obtain ⟨d₂, hf₂, g1, g2, g3⟩ := itruncWord_fold (d.blk ((d.dinode i).addrs NDIRECT)) (List.range NINDIRECT) d₁
      (fun b hb => by
        have hb' := hbits b (List.mem_append_right _ (List.mem_cons_of_mem _ hb))
        refine ⟨(h1 b hb'.2).2 ⟨hb'.1, fun hd => hsep _ hd _ (List.mem_cons_of_mem _ hb) rfl⟩, hb'.2⟩)
      hent
    rw [hf₂, Except.ok_bind]
    have hbi := hbits _ (List.mem_append_right _ List.mem_cons_self)
    have hu : d₂.inUse ((d.dinode i).addrs NDIRECT) :=
      (g1 _ hbi.2).2 ⟨(h1 _ hbi.2).2 ⟨hbi.1, fun hd => hsep _ hd _ List.mem_cons_self rfl⟩, hnotin⟩
    rw [bfree_eq hu]
    refine ⟨((d₂.clearBit ((d.dinode i).addrs NDIRECT)).setAddr i NDIRECT 0).setSize i 0, rfl,
      fun c hc => ?_, fun n hn => ?_, fun j hj => ?_, ?_⟩
    · have hc' := hlt c hc
      have e : (((d₂.clearBit ((d.dinode i).addrs NDIRECT)).setAddr i NDIRECT 0).setSize i 0).inUse c ↔
          (d₂.clearBit ((d.dinode i).addrs NDIRECT)).inUse c := Iff.rfl
      have hD : (List.range NDIRECT).flatMap (fun k => slot ((d.dinode i).addrs k)) = d.direct i := rfl
      have hE : (List.range NINDIRECT).flatMap (fun j => slot (word (d.blk ((d.dinode i).addrs NDIRECT)) j)) =
          d.entryBlocks ((d.dinode i).addrs NDIRECT) := rfl
      rw [e, inUse_clearBit hbi.2 hc', g1 c hc', h1 c hc', hD, hE, refs, hind, List.mem_append, List.mem_cons]
      constructor
      · rintro ⟨⟨⟨hu, hd⟩, he⟩, hne⟩
        refine ⟨hu, ?_⟩
        rintro (hd' | rfl | he')
        · exact hd hd'
        · exact hne rfl
        · exact he he'
      · rintro ⟨hu, hn⟩
        exact ⟨⟨⟨hu, fun hd => hn (Or.inl hd)⟩, fun he => hn (Or.inr (Or.inr he))⟩, fun e => hn (Or.inr (Or.inl e))⟩
    · rw [setSize_blk, setAddr_blk, clearBit_blk_of_ne (by rw [BBLOCK_of_lt hbi.2]; exact hn), g2 n hn, h2 n hn]
    · rw [setSize_dinode, Function.update_of_ne hj, setAddr_dinode, Function.update_of_ne hj, clearBit_dinode,
        g3, h3 j hj]
    · rw [setSize_type, setAddr_type, clearBit_dinode, g3, h4]

/-- What `iput` does to the disk when it frees an allocated inode keeps the invariant: the inode's
blocks are all marked free and no inode holds them. -/
theorem BlockInv.iputFree (h : BlockInv d) (hi : (d.dinode i).type ≠ 0) :
    ∃ d', d.iputFree i = .ok d' ∧ BlockInv d' ∧ (d'.dinode i).type = 0 ∧
      ∀ j, j ≠ i → d'.dinode j = d.dinode j := by
  obtain ⟨d₁, ht, h1, h2, h3, -⟩ := h.itrunc hi
  set d' := d₁.setDinode i { d₁.dinode i with type := 0 } with hd'
  have htype : (d'.dinode i).type = 0 := by rw [hd', setDinode_dinode, Function.update_self]
  have hother : ∀ j, j ≠ i → d'.dinode j = d.dinode j := fun j hj => by
    rw [hd', setDinode_dinode, Function.update_of_ne hj, h3 j hj]
  have hblk : ∀ n, n ≠ sb.bmapstart → d'.blk n = d.blk n := fun n hn => by rw [hd', setDinode_blk, h2 n hn]
  -- every other inode holds and finds what it did
  have hheld : ∀ j, j ≠ i → d'.held j = d.held j := fun j hj => by
    by_cases hj0 : (d.dinode j).type = 0
    · simp only [held, hother j hj, hj0, if_true]
    · exact (h.frame hj0 (hother j hj) hblk).1
  have hp := owned_perm_free (h.lt_ninodes hi) hheld (by rw [held, if_pos htype])
  rw [held_of_type hi] at hp
  refine ⟨d', by rw [Disk.iputFree, ht, Except.ok_bind]; rfl, ⟨h.accounts.free hp fun c hc => ?_,
    fun j hj => ?_, fun j hj => ?_, fun j hj bn hbn => ?_⟩, htype, hother⟩
  · rw [hd', inUse_setDinode, h1 c hc]
  · by_cases hji : j = i
    · rw [hji, htype]
    · rw [hother j hji]
      exact h.ninodes j hj
  · have hji : j ≠ i := fun e => hj (e ▸ htype)
    rw [hother j hji] at hj ⊢
    exact h.size j hj
  · have hji : j ≠ i := fun e => hj (e ▸ htype)
    rw [hother j hji] at hj hbn
    rw [(h.frame hj (hother j hji) hblk).2 bn]
    exact h.full j hj bn hbn

/-! ### `ialloc` and `iupdate` -/

theorem iallocLoop_eq_ok {type inum : Nat} {d' : Disk} : ∀ {k n : Nat}, d.iallocLoop type k n = .ok (inum, d') →
    inum < sb.ninodes ∧ (d.dinode inum).type = 0 ∧ d' = d.setDinode inum ⟨type, 0, 0, 0, 0, fun _ => 0⟩
  | 0, _, hl => by cases hl
  | k + 1, n, hl => by
    rw [iallocLoop] at hl
    by_cases hn : n < sb.ninodes
    · rw [if_pos hn] at hl
      by_cases h0 : (d.dinode n).type = 0
      · rw [if_pos h0, Except.pure_eq_ok, Except.ok.injEq, Prod.mk.injEq] at hl
        obtain ⟨rfl, rfl⟩ := hl
        exact ⟨hn, h0, rfl⟩
      · rw [if_neg h0] at hl
        exact iallocLoop_eq_ok hl
    · rw [if_neg hn] at hl
      cases hl

/-- `ialloc` takes a free inode below `sb.ninodes` and zeroes it: it holds no block. -/
theorem BlockInv.ialloc (h : BlockInv d) {type inum : Nat} {d' : Disk} (ha : d.ialloc type = .ok (inum, d')) :
    BlockInv d' := by
  obtain ⟨hlt, h0, rfl⟩ := iallocLoop_eq_ok ha
  have hheld : ∀ j, (d.setDinode inum ⟨type, 0, 0, 0, 0, fun _ => 0⟩).held j = d.held j := by
    intro j
    by_cases hj : j = inum
    · -- a zeroed inode names no block
      subst hj
      have hnone : (d.setDinode j ⟨type, 0, 0, 0, 0, fun _ => 0⟩).refs j = [] := by
        simp [refs, direct, indirect, slot]
      simp only [held, h0, hnone, if_true, ite_self]
    · exact held_congr (by rw [setDinode_dinode, Function.update_of_ne hj])
        (by rw [setDinode_dinode, Function.update_of_ne hj]) rfl
  refine ⟨h.accounts.congr (by rw [owned_congr hheld]) fun _ _ => Iff.rfl, fun j hj => ?_, fun j hj => ?_,
    fun j hj bn hbn => ?_⟩
  · by_cases hji : j = inum
    · subst hji
      omega
    · rw [setDinode_dinode, Function.update_of_ne hji]
      exact h.ninodes j hj
  · by_cases hji : j = inum
    · subst hji
      simp
    · rw [setDinode_dinode, Function.update_of_ne hji] at hj ⊢
      exact h.size j hj
  · by_cases hji : j = inum
    · subst hji
      simp at hbn
    · rw [setDinode_dinode, Function.update_of_ne hji] at hj hbn
      have e : (d.setDinode inum ⟨type, 0, 0, 0, 0, fun _ => 0⟩).addrOf j bn = d.addrOf j bn :=
        addrOf_congr (by rw [setDinode_dinode, Function.update_of_ne hji]) rfl
      rw [e]
      exact h.full j hj bn hbn

theorem BlockInv.iupdate (h : BlockInv d) (major minor nlink : Nat) : BlockInv (d.iupdate i major minor nlink) := by
  have hd : ∀ j, ((d.iupdate i major minor nlink).dinode j).type = (d.dinode j).type ∧
      ((d.iupdate i major minor nlink).dinode j).size = (d.dinode j).size ∧
      ((d.iupdate i major minor nlink).dinode j).addrs = (d.dinode j).addrs := by
    intro j
    by_cases hj : j = i
    · subst hj
      simp [Disk.iupdate]
    · simp [Disk.iupdate, Function.update_of_ne hj]
  refine ⟨h.accounts.congr (by rw [owned_congr fun j => held_congr (hd j).1 (hd j).2.2 rfl]) fun _ _ => Iff.rfl,
    fun j hj => by rw [(hd j).1]; exact h.ninodes j hj, fun j hj => ?_, fun j hj bn hbn => ?_⟩
  · rw [(hd j).1] at hj
    rw [(hd j).2.1]
    exact h.size j hj
  · rw [(hd j).1] at hj
    rw [(hd j).2.1] at hbn
    rw [addrOf_congr (hd j).2.2 rfl]
    exact h.full j hj bn hbn

/-! ### The image `mkfs` builds -/

theorem mkfsBitmap_testBit {b : Nat} (hb : b < BPB) :
    ∀ used, used < BPB → ((mkfsBitmap used (b / 8).toUInt32).toNat.testBit (b % 8) ↔ b < used)
  | 0, _ => by simp [mkfsBitmap]
  | used + 1, hu => by
    have hstep : mkfsBitmap (used + 1) = Function.update (mkfsBitmap used) (used / 8).toUInt32
        (mkfsBitmap used (used / 8).toUInt32 ||| bit used) := by
      rw [mkfsBitmap, List.range_succ, List.foldl_append, List.foldl_cons, List.foldl_nil, ← mkfsBitmap]
    have ih := mkfsBitmap_testBit hb used (by omega)
    rw [BPB_eq] at hb hu
    rw [hstep]
    by_cases hk : b / 8 = used / 8
    · -- the byte of block `used`: bit `used % 8` is set in it
      rw [hk, Function.update_self, bit, Word.testBit_or_bit _ (Nat.mod_lt _ (by decide)), Bool.or_eq_true,
        decide_eq_true_iff, ← hk, ih]
      omega
    · rw [Function.update_of_ne (fun e => hk ((toUInt32_inj (by omega) (by omega)).1 e)), ih]
      omega

theorem inUse_mkfsBitmap {d : Disk} {used b : Nat} (hbm : d.blk sb.bmapstart = mkfsBitmap used) (hu : used < BPB)
    (hb : b < BPB) : d.inUse b ↔ b < used := by
  rw [inUse_iff, BBLOCK_of_lt hb, Nat.mod_eq_of_lt hb, hbm]
  exact mkfsBitmap_testBit hb _ hu

theorem mkfs_inUse {b : Nat} (hb : b < sb.size) : mkfs.inUse b ↔ b < nmeta + 1 := by
  rw [sb_size] at hb
  exact inUse_mkfsBitmap rfl (by rw [nmeta_eq, BPB_eq]; decide) (by rw [BPB_eq]; omega)

theorem mkfs_owned : mkfs.owned = [nmeta] := by decide

theorem mkfs_blockInv : BlockInv mkfs where
  accounts := by
    refine ⟨by rw [mkfs_owned]; exact List.nodup_singleton _, fun a ha => ?_, fun b hb => ?_⟩
    · rw [mkfs_owned, List.mem_singleton] at ha
      subst ha
      exact ⟨by decide, by decide⟩
    · rw [mkfs_inUse hb, mkfs_owned, List.mem_singleton]
      omega
  ninodes i hi := by
    have : i ≠ ROOTINO := by
      rw [sb_ninodes] at hi
      simp only [ROOTINO, NINODES] at hi ⊢
      omega
    simp [mkfs, this]
  size i hi := by
    by_cases h1 : i = ROOTINO
    · subst h1
      decide
    · simp [mkfs, h1] at hi
  full i hi bn hbn := by
    by_cases h1 : i = ROOTINO
    · subst h1
      have hbn0 : bn = 0 := by
        simp only [mkfs, if_true, BSIZE] at hbn
        omega
      subst hbn0
      decide
    · simp [mkfs, h1] at hi

/-! ### Every call -/

/-- A call into the block layer, as the file-system calls make them. -/
inductive Op
  | readi (i off n : Nat)
  | writei (i off : Nat) (src : List UInt8)
  | ialloc (type : Nat)
  | iput (i : Nat)
  | iupdate (i major minor nlink : Nat)

/-- The disk after a call; `none` where the kernel panics or the call is not made: `ilock` panics on a
free inode, a device's reads and writes go to its driver, and `iput` frees only an allocated
inode. -/
def next (d : Disk) : Op → Option Disk
  | .readi i off n =>
    if (d.dinode i).type = 0 ∨ (d.dinode i).type = T_DEV then none else (d.readi i off n).toOption.map Prod.snd
  | .writei i off src =>
    if (d.dinode i).type = 0 ∨ (d.dinode i).type = T_DEV then none
    else (d.writei i off src).toOption.map Prod.snd
  | .ialloc type => (d.ialloc type).toOption.map Prod.snd
  | .iput i => if (d.dinode i).type = 0 then none else (d.iputFree i).toOption
  | .iupdate i major minor nlink => if (d.dinode i).type = 0 then none else some (d.iupdate i major minor nlink)

def Step (d d' : Disk) : Prop := ∃ op, d.next op = some d'

/-- The disks the calls reach from a well-formed image: one that keeps `BlockInv`, as `mkfs`'s
does (`mkfs_blockInv`). -/
def Reachable : Disk → Prop := Machine.Reachable BlockInv Step

theorem BlockInv.next (h : BlockInv d) {op : Op} {d' : Disk} (hn : d.next op = some d') : BlockInv d' := by
  cases op with
  | readi i off n =>
    rw [Disk.next] at hn
    split at hn
    · cases hn
    · next hi =>
      obtain ⟨r, hr⟩ := Except.exists_of_toOption_map hn
      obtain ⟨r', hr'⟩ := h.readi (fun e => hi (Or.inl e)) off n
      rw [hr', Except.ok.injEq, Prod.mk.injEq] at hr
      rw [← hr.2]
      exact h
  | writei i off src =>
    rw [Disk.next] at hn
    split at hn
    · cases hn
    · next hi =>
      obtain ⟨r, hr⟩ := Except.exists_of_toOption_map hn
      exact (h.writei (fun e => hi (Or.inl e)) hr).1
  | ialloc type =>
    obtain ⟨r, hr⟩ := Except.exists_of_toOption_map hn
    exact h.ialloc hr
  | iput i =>
    rw [Disk.next] at hn
    split at hn
    · cases hn
    · next hi =>
      obtain ⟨d'', hf, hinv, -⟩ := h.iputFree hi
      rw [hf] at hn
      cases hn
      exact hinv
  | iupdate i major minor nlink =>
    rw [Disk.next] at hn
    split at hn
    · cases hn
    · cases hn
      exact h.iupdate major minor nlink

theorem Reachable.blockInv {d : Disk} (h : Reachable d) : BlockInv d :=
  Machine.Reachable.rec_inv BlockInv (fun _ h => h) (fun _ _ h ⟨_, hn⟩ => h.next hn) h

theorem BlockInv.mem_owned_iff (h : BlockInv d) {b : Nat} :
    b ∈ d.owned ↔ ∃ i, (d.dinode i).type ≠ 0 ∧ b ∈ d.refs i := by
  constructor
  · intro hb
    obtain ⟨i, -, hi⟩ := List.mem_flatMap.1 hb
    by_cases h0 : (d.dinode i).type = 0
    · rw [held, if_pos h0] at hi
      cases hi
    · exact ⟨i, h0, by rwa [held_of_type h0] at hi⟩
  · rintro ⟨i, hi, hb⟩
    exact h.mem_owned hi hb

/-- On every disk the file-system calls reach from a well-formed image: the bitmap marks a block in
use exactly when it is a meta block or an allocated inode refers to it (directly, as its indirect
block, or through a word of its indirect block); no block is referred to twice, within an inode or
across two; every block referred to is below `sb.size`; every allocated inode has at most
`MAXFILE * BSIZE` bytes and a block for each block below its size, so `readi` never fails and never
allocates. -/
theorem bitmap_marks_owned_blocks {d : Disk} (h : Reachable d) :
    (∀ b, b < sb.size → (d.inUse b ↔ b < nmeta ∨ ∃ i, (d.dinode i).type ≠ 0 ∧ b ∈ d.refs i)) ∧
    (∀ i, (d.dinode i).type ≠ 0 → (d.refs i).Nodup) ∧
    (∀ i j, (d.dinode i).type ≠ 0 → (d.dinode j).type ≠ 0 → i ≠ j → (d.refs i).Disjoint (d.refs j)) ∧
    (∀ i, (d.dinode i).type ≠ 0 → ∀ b ∈ d.refs i, b < sb.size) ∧
    (∀ i, (d.dinode i).type ≠ 0 → (d.dinode i).size ≤ MAXFILE * BSIZE ∧
      ∀ bn, bn * BSIZE < (d.dinode i).size → d.addrOf i bn ≠ 0) ∧
    (∀ i off n, (d.dinode i).type ≠ 0 → ∃ r, d.readi i off n = .ok (r, d)) := by
  have hinv := h.blockInv
  refine ⟨fun b hb => ?_, fun i hi => hinv.refs_nodup hi, fun i j hi hj hij => hinv.refs_disjoint hi hj hij,
    fun i hi b hb => (hinv.mem_refs hi hb).2.1, fun i hi => ⟨hinv.size i hi, hinv.full i hi⟩,
    fun i off n hi => hinv.readi hi off n⟩
  rw [hinv.accounts.used_iff b hb, hinv.mem_owned_iff]

/-- From `mkfs`'s image, a file is allocated, 600 bytes are written to it, which takes two
blocks, and its inode is updated. -/
theorem bitmap_marks_owned_blocks_write :
    ∃ d, Machine.run next mkfs [.ialloc T_FILE, .writei 2 0 (List.replicate 600 7), .iupdate 2 0 0 1] = some d ∧
      (d.dinode 2).size = 600 ∧ d.addrOf 2 1 ≠ 0 ∧
      (∀ b, b < sb.size → (d.inUse b ↔ b < nmeta ∨ ∃ i, (d.dinode i).type ≠ 0 ∧ b ∈ d.refs i)) ∧
      (∀ i, (d.dinode i).type ≠ 0 → (d.refs i).Nodup) ∧
      (∀ i j, (d.dinode i).type ≠ 0 → (d.dinode j).type ≠ 0 → i ≠ j → (d.refs i).Disjoint (d.refs j)) ∧
      (∀ i, (d.dinode i).type ≠ 0 → ∀ b ∈ d.refs i, b < sb.size) ∧
      (∀ i, (d.dinode i).type ≠ 0 → (d.dinode i).size ≤ MAXFILE * BSIZE ∧
        ∀ bn, bn * BSIZE < (d.dinode i).size → d.addrOf i bn ≠ 0) ∧
      (∀ i off n, (d.dinode i).type ≠ 0 → ∃ r, d.readi i off n = .ok (r, d)) := by
  obtain ⟨d, hrun, hsize, haddr⟩ := Option.exists_of_map_decide
    (o := Machine.run next mkfs [.ialloc T_FILE, .writei 2 0 (List.replicate 600 7), .iupdate 2 0 0 1])
    (p := fun d : Disk => (d.dinode 2).size = 600 ∧ d.addrOf 2 1 ≠ 0) (by decide +kernel)
  exact ⟨d, hrun, hsize, haddr,
    bitmap_marks_owned_blocks (Machine.Reachable.of_run (fun _ _ _ h => ⟨_, h⟩) (.init mkfs_blockInv) hrun)⟩

end Disk

end Fs

end Xv6
