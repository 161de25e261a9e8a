import Xv6.Fs.Mkfs
import Xv6.Fs.Sysfile
import Xv6.Lib.Except

/-!
# Directory entries: their encoding, and the search for a name

A directory's data is a run of `DIRENT`-byte entries, each a `ushort` inode number (0 for a free
entry) and a name field of `DIRSIZ` bytes. `dirlink` fills the field with `strncpy`, which pads a
short name with NULs and leaves one of `DIRSIZ` bytes or more unterminated; `dirlookup` compares
names with `strncmp(.., DIRSIZ)`, which stops at the first NUL or after `DIRSIZ` bytes. Both see of
a name exactly its `cname`, and `cname_deName_encodeDirent` says the encoder keeps it.

On a directory that is a whole number of entries long (`DirOk`), the two scans compute the
first entry in use whose name matches (`lookup`) and the first free entry (`freeSlot`), the end
of the directory when there is none (`dirlookupLoop_eq`, `emptyOff_eq`); `dirlookup_eq` and
`dirlink_eq` are the two calls with the scans evaluated. `lookup_write` is what a search finds after
`dirlink` has written an entry.
-/

namespace Xv6

namespace Fs

theorem take_drop_splice {α : Type} {l e : List α} {w j k : Nat} (he : e.length = w)
    (hj : j * w ≤ l.length) :
    ((l.take (j * w) ++ e ++ l.drop (j * w + w)).drop (k * w)).take w =
      if k = j then e else (l.drop (k * w)).take w := by
  have hA : (l.take (j * w)).length = j * w := by simp [hj]
  rcases Nat.lt_trichotomy k j with hk | rfl | hk
  · -- record `k` lies before the splice
    have hkw : k * w + w ≤ j * w := by
      have := Nat.mul_le_mul_right w (Nat.succ_le_of_lt hk)
      rwa [Nat.succ_mul] at this
    rw [if_neg hk.ne, List.append_assoc, List.drop_append_of_le_length (by omega),
      List.take_append_of_le_length (by simp; omega), List.drop_take, List.take_take]
    congr 1
    omega
  · rw [if_pos rfl, List.append_assoc, List.drop_left' hA, List.take_left' he]
  · -- record `k` lies after it
    have hkw : j * w + w ≤ k * w := by
      have := Nat.mul_le_mul_right w (Nat.succ_le_of_lt hk)
      rwa [Nat.succ_mul] at this
    have hAe : (l.take (j * w) ++ e).length = j * w + w := by simp [hA, he]
    rw [if_neg hk.ne', List.drop_append, List.drop_eq_nil_of_le (by omega), List.nil_append,
      List.drop_drop, hAe]
    congr 2
    omega

/-! ### The encoding of an entry -/

theorem deInum_encodeDirent (inum : Nat) (name : List UInt8) :
    deInum (encodeDirent inum name) = inum % 65536 := by
  simp only [deInum, encodeDirent, List.cons_append, List.getD_cons_zero, List.getD_cons_succ,
    Nat.toUInt8, UInt8.toNat_ofNat']
  omega

/-- `strncpy` into a `DIRSIZ`-byte field keeps what `strncmp` with `DIRSIZ` reads of a name. -/
theorem cname_deName_encodeDirent (inum : Nat) (name : List UInt8) :
    cname (deName (encodeDirent inum name)) = cname name := by
  have hlen : (name.take DIRSIZ).length ≤ DIRSIZ := List.length_take_le _ _
  simp only [deName, encodeDirent, cname, List.cons_append, List.drop_succ_cons, List.drop_zero,
    List.nil_append]
  -- the padding is all NULs, where the comparison stops
  have hz : ((0 : UInt8) != 0) = false := rfl
  rw [List.take_append, List.take_of_length_le (by omega), List.take_replicate, List.takeWhile_append,
    List.takeWhile_replicate, hz, if_neg Bool.false_ne_true, List.append_nil]
  split_ifs with h
  · exact ((List.takeWhile_prefix _).eq_of_length h).symm
  · rfl

theorem namecmp_eq (s t : List UInt8) : namecmp s t = decide (cname s = cname t) := by
  unfold namecmp
  by_cases h : cname s = cname t <;> simp [h]

/-! ### The entries of a directory -/

/-- Entry `k`: the `DIRENT` bytes at offset `k * DIRENT`. -/
def dirent (d : Dinode) (k : Nat) : List UInt8 := (d.data.drop (k * DIRENT)).take DIRENT

/-- Entry `k` is in use and names `name`, as `namecmp` compares. -/
def named (d : Dinode) (name : List UInt8) (k : Nat) : Bool :=
  deInum (dirent d k) != 0 && namecmp name (deName (dirent d k))

/-- The first entry in use that names `name`: its inode number and its offset. -/
def lookup (d : Dinode) (name : List UInt8) : Option (Nat × Nat) :=
  ((List.range (d.size / DIRENT)).find? (named d name)).map fun k => (deInum (dirent d k), k * DIRENT)

/-- The first free entry, or the one past the end when every entry is in use. -/
def freeSlot (d : Dinode) : Nat :=
  ((List.range (d.size / DIRENT)).find? fun k => deInum (dirent d k) == 0).getD (d.size / DIRENT)

/-- A directory as the file system keeps one: of type `T_DIR`, and a whole number of entries. -/
structure DirOk (d : Dinode) : Prop where
  dir : d.type = T_DIR
  whole : d.size % DIRENT = 0

variable {d d' : Dinode} {name t : List UInt8}

theorem readi_dirent {k : Nat} (h : k * DIRENT < d.size) : readi d (k * DIRENT) DIRENT = some (dirent d k) := by
  rw [readi, if_neg (by omega)]
  rfl

theorem length_dirent {k : Nat} (h : (k + 1) * DIRENT ≤ d.size) : (dirent d k).length = DIRENT := by
  simp only [dirent, List.length_take, List.length_drop, Dinode.size] at h ⊢
  rw [Nat.succ_mul] at h
  omega

/-- Past the end there is nothing, which reads as a free entry. -/
theorem dirent_of_le {k : Nat} (h : d.size ≤ k * DIRENT) : dirent d k = [] := by
  simp only [dirent, Dinode.size] at h ⊢
  rw [List.drop_eq_nil_of_le h, List.take_nil]

theorem named_congr (h : cname name = cname t) : named d name = named d t := by
  funext k
  simp only [named, namecmp_eq, h]

theorem lookup_eq_none_iff : lookup d name = none ↔ ∀ k, k < d.size / DIRENT → named d name k = false := by
  simp [lookup]

theorem freeSlot_le : freeSlot d ≤ d.size / DIRENT := by
  unfold freeSlot
  cases h : (List.range (d.size / DIRENT)).find? fun k => deInum (dirent d k) == 0 with
  | none => exact le_refl _
  | some k => exact Nat.le_of_lt (List.mem_range.1 (List.find?_range_eq_some.1 h).2.1)

theorem freeSlot_spec (hd : d.size % DIRENT = 0) : deInum (dirent d (freeSlot d)) = 0 ∧ ∀ k < freeSlot d, deInum (dirent d k) ≠ 0 := by
  unfold freeSlot
  cases h : (List.range (d.size / DIRENT)).find? fun k => deInum (dirent d k) == 0 with
  | none =>
    -- every entry is in use, and the slot is the one past the end
    rw [List.find?_range_eq_none] at h
    refine ⟨?_, fun k hk => by simpa using h k hk⟩
    rw [Option.getD_none, dirent_of_le (by unfold DIRENT at *; omega)]
    rfl
  | some k =>
    obtain ⟨hk, -, hbefore⟩ := List.find?_range_eq_some.1 h
    exact ⟨by simpa using hk, fun j hj => by simpa using hbefore j hj⟩

theorem named_freeSlot (hd : d.size % DIRENT = 0) (t : List UInt8) : named d t (freeSlot d) = false := by
  simp [named, (freeSlot_spec hd).1]

theorem lookup_eq_some {i o : Nat} (h : lookup d t = some (i, o)) :
    ∃ k, k < d.size / DIRENT ∧ named d t k = true ∧ i = deInum (dirent d k) ∧ o = k * DIRENT := by
  obtain ⟨k, hk, he⟩ := Option.map_eq_some_iff.1 h
  obtain ⟨rfl, rfl⟩ := Prod.mk.inj he.symm
  obtain ⟨hn, hmem, -⟩ := List.find?_range_eq_some.1 hk
  exact ⟨k, List.mem_range.1 hmem, hn, rfl, rfl⟩

/-! ### The two scans -/

/-- `dirlookup`'s loop from entry `j` on, with one pass for each entry left and one to stop. -/
theorem dirlookupLoop_eq (hd : d.size % DIRENT = 0) (name : List UInt8) :
    ∀ m j, j + m = d.size / DIRENT → dirlookupLoop d name (m + 1) (j * DIRENT) =
      .ok (((List.range' j m).find? (named d name)).map fun k => (deInum (dirent d k), k * DIRENT))
  | 0, j, h => by
    rw [dirlookupLoop, if_neg (by unfold DIRENT at *; omega)]
    rfl
  | m + 1, j, h => by
    have hj : (j + 1) * DIRENT ≤ d.size := by rw [Nat.succ_mul]; unfold DIRENT at *; omega
    have ih := dirlookupLoop_eq hd name m (j + 1) (by omega)
    rw [Nat.succ_mul] at ih
    rw [dirlookupLoop, if_pos (by rw [Nat.succ_mul] at hj; unfold DIRENT at *; omega),
      readi_dirent (by rw [Nat.succ_mul] at hj; unfold DIRENT at *; omega), List.range'_succ, List.find?_cons]
    simp only [length_dirent hj, ne_eq, not_true_eq_false, if_false]
    -- a free entry and one that does not match go on to the next; a match stops the scan
    by_cases h0 : deInum (dirent d j) = 0
    · simp [h0, named, ih]
    · have hb : (deInum (dirent d j) != 0) = true := by simpa using h0
      by_cases hn : namecmp name (deName (dirent d j)) = true
      · simp [h0, hb, hn, named]
      · simp [h0, hb, hn, named, ih]

/-- `dirlink`'s scan for a free entry from entry `j` on. -/
theorem emptyOff_eq (hd : d.size % DIRENT = 0) :
    ∀ m j, j + m = d.size / DIRENT → emptyOff d (m + 1) (j * DIRENT) =
      .ok (((List.range' j m).find? fun k => deInum (dirent d k) == 0).getD (j + m) * DIRENT)
  | 0, j, h => by
    rw [emptyOff, if_neg (by unfold DIRENT at *; omega)]
    rfl
  | m + 1, j, h => by
    have hj : (j + 1) * DIRENT ≤ d.size := by rw [Nat.succ_mul]; unfold DIRENT at *; omega
    have ih := emptyOff_eq hd m (j + 1) (by omega)
    rw [Nat.succ_mul, show j + 1 + m = j + (m + 1) by omega] at ih
    rw [emptyOff, if_pos (by rw [Nat.succ_mul] at hj; unfold DIRENT at *; omega),
      readi_dirent (by rw [Nat.succ_mul] at hj; unfold DIRENT at *; omega), List.range'_succ, List.find?_cons]
    simp only [length_dirent hj, ne_eq, not_true_eq_false, if_false]
    by_cases h0 : deInum (dirent d j) = 0
    · simp [h0]
    · have hb : (deInum (dirent d j) == 0) = false := by simpa using h0
      simp [h0, hb, ih]

theorem dirlookupLoop_lookup (hd : d.size % DIRENT = 0) (name : List UInt8) :
    dirlookupLoop d name (d.size / DIRENT + 1) 0 = .ok (lookup d name) := by
  have := dirlookupLoop_eq hd name (d.size / DIRENT) 0 (Nat.zero_add _)
  rwa [Nat.zero_mul, ← List.range_eq_range'] at this

theorem emptyOff_freeSlot (hd : d.size % DIRENT = 0) :
    emptyOff d (d.size / DIRENT + 1) 0 = .ok (freeSlot d * DIRENT) := by
  have := emptyOff_eq hd (d.size / DIRENT) 0 (Nat.zero_add _)
  rwa [Nat.zero_mul, ← List.range_eq_range', Nat.zero_add] at this

section Calls

variable {s : FsState} {dp : Nat}

/-- `dirlookup` on a directory: the scan's result, and a reference to what it found. -/
theorem dirlookup_eq (hd : DirOk (s.dinode dp)) (name : List UInt8) :
    dirlookup s dp name = match lookup (s.dinode dp) name with
      | none => .ok (none, s)
      | some (inum, off) => iget s inum >>= fun s' => pure (some (inum, off), s') := by
  rw [dirlookup, if_neg (not_not.2 hd.dir)]
  simp only [dirlookupLoop_lookup hd.whole, Except.ok_bind]
  rfl

/-- `dirlink` on a directory: -1 when the name is present, and otherwise the entry written at the
first free slot. -/
theorem dirlink_eq (hd : DirOk (s.dinode dp)) (name : List UInt8) (inum : Nat) :
    dirlink s dp name inum = match lookup (s.dinode dp) name with
      | some (ip, _) => iget s ip >>= fun s' => pure (-1, iput s' ip)
      | none =>
        match writei (s.dinode dp) (freeSlot (s.dinode dp) * DIRENT) (encodeDirent inum name) with
        | some d => .ok (0, s.setDinode dp d)
        | none => .error "dirlink" := by
  rw [dirlink, dirlookup_eq hd]
  rcases lookup (s.dinode dp) name with _ | ⟨ip, off⟩
  · simp only [Except.ok_bind, emptyOff_freeSlot hd.whole]
    rfl
  · dsimp only
    cases iget s ip <;> rfl

theorem dirlink_cases {name : List UInt8} {inum : Nat} {r : Int} {s' : FsState} (hd : DirOk (s.dinode dp))
    (h : dirlink s dp name inum = .ok (r, s')) :
    (r = -1 ∧ (lookup (s.dinode dp) name).isSome) ∨
    (r = 0 ∧ lookup (s.dinode dp) name = none ∧ ∃ d, s' = s.setDinode dp d ∧
      writei (s.dinode dp) (freeSlot (s.dinode dp) * DIRENT) (encodeDirent inum name) = some d) := by
  rw [dirlink_eq hd] at h
  rcases hl : lookup (s.dinode dp) name with _ | ⟨ip, off⟩ <;> rw [hl] at h
  · -- the name is absent: the entry is written, or `writei` fails and the call panics
    dsimp only at h
    split at h
    · obtain ⟨rfl, rfl⟩ := Prod.mk.inj (Except.ok.inj h)
      exact .inr ⟨rfl, rfl, _, rfl, by assumption⟩
    · cases h
  · obtain ⟨s₁, -, h⟩ := Except.bind_eq_ok.1 h
    obtain ⟨rfl, -⟩ := Prod.mk.inj (Except.ok.inj h)
    exact .inl ⟨rfl, rfl⟩

end Calls

/-! ### Writing an entry at the free slot -/

section Write

variable {e : List UInt8} (hd : DirOk d) (he : e.length = DIRENT)
  (hw : writei d (freeSlot d * DIRENT) e = some d')

include hd he hw

theorem writei_freeSlot :
    (∀ k, dirent d' k = if k = freeSlot d then e else dirent d k) ∧
    d'.size = (if freeSlot d * DIRENT < d.size then d.size else d.size + DIRENT) ∧ DirOk d' := by
  have hle : freeSlot d * DIRENT ≤ d.size := by
    have := freeSlot_le (d := d)
    have := hd.whole
    unfold DIRENT at *
    omega
  obtain ⟨htype, hdata⟩ : d'.type = d.type ∧
      d'.data = d.data.take (freeSlot d * DIRENT) ++ e ++ d.data.drop (freeSlot d * DIRENT + e.length) := by
    unfold writei at hw
    split_ifs at hw
    cases hw
    exact ⟨rfl, rfl⟩
  have hsize : d'.size = if freeSlot d * DIRENT < d.size then d.size else d.size + DIRENT := by
    have := hd.whole
    have hlen : d'.size = min (freeSlot d * DIRENT) d.size + DIRENT + (d.size - (freeSlot d * DIRENT + DIRENT)) := by
      simp only [Dinode.size, hdata, List.length_append, List.length_take, List.length_drop, he]
    by_cases hlt : freeSlot d * DIRENT < d.size
    · rw [if_pos hlt, hlen]
      unfold DIRENT at *
      omega
    · rw [if_neg hlt, hlen]
      unfold DIRENT at *
      omega
  refine ⟨fun k => ?_, hsize, ⟨htype.trans hd.dir, ?_⟩⟩
  · rw [dirent, hdata, he]
    exact take_drop_splice he hle
  · have := hd.whole
    rw [hsize]
    split_ifs <;> unfold DIRENT at * <;> omega

end Write

theorem lookup_write {inum : Nat} (hd : DirOk d) (hnone : lookup d name = none)
    (hinum : 0 < inum ∧ inum < 65536) (hw : writei d (freeSlot d * DIRENT) (encodeDirent inum name) = some d')
    (t : List UInt8) :
    lookup d' t = if cname t = cname name then some (inum, freeSlot d * DIRENT) else lookup d t := by
  obtain ⟨hent, hsize, -⟩ := writei_freeSlot hd (Mkfs.length_encodeDirent inum name) hw
  -- the new entries name `t` where the old ones did, and the new one when `t` agrees with `name`
  have hnamed : ∀ k, named d' t k = if k = freeSlot d then decide (cname t = cname name) else named d t k := by
    intro k
    unfold named
    rw [hent k]
    split_ifs
    · rw [deInum_encodeDirent, Nat.mod_eq_of_lt hinum.2, namecmp_eq, cname_deName_encodeDirent]
      simp [hinum.1.ne']
    · rfl
  have hslot := named_freeSlot hd.whole t
  -- one more entry when there was no free one
  have hn : d'.size / DIRENT = if freeSlot d < d.size / DIRENT then d.size / DIRENT else d.size / DIRENT + 1 := by
    have := hd.whole
    have := freeSlot_le (d := d)
    by_cases hlt : freeSlot d < d.size / DIRENT
    · rw [if_pos hlt, hsize, if_pos (by unfold DIRENT at *; omega)]
    · rw [if_neg hlt, hsize, if_neg (by unfold DIRENT at *; omega)]
      unfold DIRENT at *
      omega
  by_cases hc : cname t = cname name
  · rw [if_pos hc]
    have hfind : (List.range (d'.size / DIRENT)).find? (named d' t) = some (freeSlot d) := by
      rw [List.find?_range_eq_some]
      refine ⟨by simp [hnamed, hc], ?_, fun k hk => ?_⟩
      · have := freeSlot_le (d := d)
        rw [List.mem_range, hn]
        split_ifs <;> omega
      · rw [hnamed, if_neg hk.ne, named_congr hc]
        simp [lookup_eq_none_iff.1 hnone k (lt_of_lt_of_le hk freeSlot_le)]
    simp [lookup, hfind, hent, deInum_encodeDirent, Nat.mod_eq_of_lt hinum.2]
  · rw [if_neg hc]
    have hsame : named d' t = named d t := by
      funext k
      rw [hnamed]
      split_ifs with hk
      · subst hk
        simp [hc, hslot]
      · rfl
    have hfind : (List.range (d'.size / DIRENT)).find? (named d t) =
        (List.range (d.size / DIRENT)).find? (named d t) := by
      rw [hn]
      split_ifs with hlt
      · rfl
      · -- the entry past the old end names nothing
        have hend : freeSlot d = d.size / DIRENT := le_antisymm freeSlot_le (not_lt.1 hlt)
        rw [List.range_succ, List.find?_append, ← hend]
        simp [hslot]
    unfold lookup
    rw [hsame, hfind]
    cases h : (List.range (d.size / DIRENT)).find? (named d t) with
    | none => rfl
    | some k =>
      have hk : k ≠ freeSlot d := by
        rintro rfl
        rw [(List.find?_range_eq_some.1 h).1] at hslot
        cases hslot
      simp [hent, hk]

/-! ### A link, then a lookup -/

/-- After `dirlink(dp, name, inum)` returns 0 on a directory, for an `inum` that a `ushort` holds:
`name` matched no entry before the call; the entry went to the first free slot, which was past the
end (and the directory grew by one entry) only when every entry was in use; `dirlookup` of `t`
finds that entry exactly when `t` and `name` agree on their first `DIRSIZ` bytes up to the first
NUL; and a later `dirlink` of `t` returns -1 exactly when `dirlookup` of `t` finds an entry, and
otherwise writes its entry at the first free slot. -/
theorem dirlink_dirlookup {s s' : FsState} {dp inum : Nat} {name : List UInt8} (hd : DirOk (s.dinode dp))
    (hinum : 0 < inum ∧ inum < 65536) (h : dirlink s dp name inum = .ok (0, s')) :
    dirlookupLoop (s.dinode dp) name ((s.dinode dp).size / DIRENT + 1) 0 = .ok none ∧
    (∀ k < freeSlot (s.dinode dp), deInum (dirent (s.dinode dp) k) ≠ 0) ∧
    deInum (dirent (s.dinode dp) (freeSlot (s.dinode dp))) = 0 ∧
    (∀ k, dirent (s'.dinode dp) k =
      if k = freeSlot (s.dinode dp) then encodeDirent inum name else dirent (s.dinode dp) k) ∧
    (s'.dinode dp).size =
      (if freeSlot (s.dinode dp) * DIRENT < (s.dinode dp).size then (s.dinode dp).size
       else (s.dinode dp).size + DIRENT) ∧
    ∀ t, (dirlookupLoop (s'.dinode dp) t ((s'.dinode dp).size / DIRENT + 1) 0 =
        .ok (some (inum, freeSlot (s.dinode dp) * DIRENT)) ↔ cname t = cname name) ∧
      ∀ j r s'', dirlink s' dp t j = .ok (r, s'') →
        (r = -1 ↔ ∃ e, dirlookupLoop (s'.dinode dp) t ((s'.dinode dp).size / DIRENT + 1) 0 = .ok (some e)) ∧
        (r ≠ -1 → r = 0 ∧ ∃ d'', s'' = s'.setDinode dp d'' ∧
          writei (s'.dinode dp) (freeSlot (s'.dinode dp) * DIRENT) (encodeDirent j t) = some d'') := by
  obtain ⟨h0, -⟩ | ⟨-, hnone, d, rfl, hw⟩ := dirlink_cases hd h
  · cases h0
  have hdp : (s.setDinode dp d).dinode dp = d := if_pos rfl
  obtain ⟨hent, hsize, hd'⟩ := writei_freeSlot hd (Mkfs.length_encodeDirent inum name) hw
  rw [hdp]
  refine ⟨by rw [dirlookupLoop_lookup hd.whole, hnone], (freeSlot_spec hd.whole).2, (freeSlot_spec hd.whole).1,
    hent, hsize, fun t => ⟨?_, ?_⟩⟩
  · rw [dirlookupLoop_lookup hd'.whole, lookup_write hd hnone hinum hw t]
    split_ifs with hc
    · exact iff_of_true rfl hc
    · -- an old entry that names `t` is not the free slot
      refine iff_of_false (fun he => ?_) hc
      obtain ⟨k, -, hk, -, hoff⟩ := lookup_eq_some (Except.ok.inj he)
      have hkj : k = freeSlot (s.dinode dp) := by
        unfold DIRENT at hoff
        omega
      rw [hkj, named_freeSlot hd.whole] at hk
      cases hk
  · intro j r s'' h'
    have hd'' : DirOk ((s.setDinode dp d).dinode dp) := by rw [hdp]; exact hd'
    rw [dirlookupLoop_lookup hd'.whole]
    obtain ⟨rfl, hsome⟩ | ⟨rfl, hnone', d'', rfl, hw'⟩ := dirlink_cases hd'' h'
    · rw [hdp] at hsome
      obtain ⟨e, he⟩ := Option.isSome_iff_exists.1 hsome
      exact ⟨iff_of_true rfl ⟨e, by rw [he]⟩, fun hne => absurd rfl hne⟩
    · -- the name is new: the entry goes to the free slot of the directory as it now is
      rw [hdp] at hnone' hw'
      refine ⟨iff_of_false (by decide) ?_, fun _ => ⟨rfl, d'', rfl, hw'⟩⟩
      rintro ⟨e, he⟩
      rw [hnone'] at he
      cases he

/-- In the root of a fresh image, a link of `b` to inode 2 goes to entry 2, the first free one, and
a search for `b`, NUL, `c` finds it. -/
theorem dirlink_dirlookup_root :
    ∃ s', DirOk (boot.dinode ROOTINO) ∧ dirlink boot ROOTINO [98] 2 = .ok (0, s') ∧
      dirlookupLoop (s'.dinode ROOTINO) [98, 0, 99] ((s'.dinode ROOTINO).size / DIRENT + 1) 0 =
        .ok (some (2, 32)) := by
  obtain ⟨⟨r, s'⟩, h, hr⟩ := Option.exists_of_map_decide (o := (dirlink boot ROOTINO [98] 2).toOption)
    (p := fun x => x.1 = 0) (by decide +kernel)
  dsimp only at hr
  subst hr
  have hd : DirOk (boot.dinode ROOTINO) := ⟨rfl, by decide +kernel⟩
  have hslot : freeSlot (boot.dinode ROOTINO) = 2 := by decide +kernel
  have hfind := ((dirlink_dirlookup hd (by decide) (Except.eq_ok_of_toOption h)).2.2.2.2.2 [98, 0, 99]).1.2
    (by decide)
  rw [hslot] at hfind
  exact ⟨s', hd, Except.eq_ok_of_toOption h, hfind⟩

/-- In the root of a fresh image, a link of `b` returns 0, and a link of `.` then returns -1 though
`.` and `b` differ: the name belongs to another entry. -/
theorem dirlink_name_of_other_entry :
    ∃ s₁ s₂, dirlink boot ROOTINO [98] 2 = .ok (0, s₁) ∧ cname [46] ≠ cname [98] ∧
      dirlink s₁ ROOTINO [46] 3 = .ok (-1, s₂) := by
  obtain ⟨⟨x, y⟩, h, hx, hy⟩ := Option.exists_of_map_decide
    (o := (dirlink boot ROOTINO [98] 2).toOption.bind fun x =>
      (dirlink x.2 ROOTINO [46] 3).toOption.map fun y => (x, y))
    (p := fun z => z.1.1 = 0 ∧ z.2.1 = -1)
    (by decide +kernel)
  obtain ⟨⟨r₁, s₁⟩, h₁, h⟩ := Option.bind_eq_some_iff.1 h
  obtain ⟨⟨r₂, s₂⟩, h₂, h⟩ := Option.map_eq_some_iff.1 h
  obtain ⟨rfl, rfl⟩ := Prod.mk.inj h
  dsimp only at hx hy h₂
  subst hx hy
  exact ⟨s₁, s₂, Except.eq_ok_of_toOption h₁, by decide, Except.eq_ok_of_toOption h₂⟩

end Fs

end Xv6
