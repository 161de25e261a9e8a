import Mathlib.Data.List.TakeWhile
import Xv6.Fs.Sysfile
import Xv6.Lib.Count
import Xv6.Lib.Machine

/-!
# Reference counts of the file table, the inode cache and the pipes

Between system calls the counts the kernel keeps are exact: `f->ref` of each file-table entry is
the number of descriptors that point to it, `ip->ref` of each cached inode is the number of open
files of it plus the number of processes whose working directory it is, and a pipe's `readopen`
(`writeopen`) is set exactly while an open file is its read (write) end.

Each count is a sum over a table: `heldCount` over the inode cache, `fdCount` over the processes,
`holderCount` and `endCount` over the file table and the processes. A call changes the tables one
entry at a time, and `Count.sum_range_update` says how each change moves the sums. The inode layer
(`iget`, `iput`, `namei`, `create`) changes only the cache and the inodes; `Inodes s s' a b` records
that it took the references `a` and added the references `b`.
-/

namespace Xv6

namespace Fs

/-- 1 for an open file of inode `i`. -/
def File.opens (x : File) (i : Nat) : Nat := if 0 < x.ref ∧ x.type = .FD_INODE ∧ x.ip = i then 1 else 0

/-- 1 for an open file that is the read (`w = false`) or the write end of pipe `pg`. -/
def File.isEnd (x : File) (w : Bool) (pg : Nat) : Nat :=
  if 0 < x.ref ∧ x.type = .FD_PIPE ∧ x.writable = w ∧ x.pipe = pg then 1 else 0

/-- The references cache entry `e` holds to inode `i`. -/
def Slot.refsTo (e : Slot) (i : Nat) : Nat := if e.inum = i then e.ref else 0

theorem Slot.refsTo_of_inum {e : Slot} {i : Nat} (h : e.inum = i) (j : Nat) :
    e.refsTo j = if i = j then e.ref else 0 := by
  rw [refsTo, h]

/-- `writeopen` for the write end, `readopen` for the read end. -/
def endOpen (pi : Pipe) (w : Bool) : Bool := if w then pi.writeopen else pi.readopen

/-- The descriptors of a process slot that point to entry `f`. -/
def fdsOf (o : Option PFiles) (f : Nat) : Nat := o.elim 0 fun pf => pf.ofile.count (some f)

/-- The entries a list of descriptors points to, with multiplicity. -/
def filesOf (l : List (Option Nat)) : Multiset Nat := (l.filterMap id : List Nat)

@[simp] theorem filesOf_nil : filesOf [] = 0 := rfl

@[simp] theorem filesOf_none (l : List (Option Nat)) : filesOf (none :: l) = filesOf l := rfl

@[simp] theorem filesOf_some (f : Nat) (l : List (Option Nat)) : filesOf (some f :: l) = {f} + filesOf l := by
  simp [filesOf, Multiset.singleton_add]

theorem count_filesOf (l : List (Option Nat)) (f : Nat) : (filesOf l).count f = l.count (some f) := by
  induction l with
  | nil => rfl
  | cons x l ih =>
    cases x with
    | none => simp [ih]
    | some g =>
      rw [filesOf_some, Multiset.count_add, ih, List.count_cons, Multiset.count_singleton]
      by_cases hg : g = f
      · simp [hg, Nat.add_comm]
      · simp [hg, Ne.symm hg]

/-- 1 for a process whose working directory is `i`. -/
def isCwd (o : Option PFiles) (i : Nat) : Nat := if o.map PFiles.cwd = some i then 1 else 0

namespace FsState

variable (s : FsState)

def slot (k : Nat) : Slot := s.icache.getD k ⟨0, 0⟩

/-- The references the cache holds to inode `i`. -/
def heldCount (i : Nat) : Nat := ∑ k ∈ Finset.range s.icache.length, (s.slot k).refsTo i

/-- The descriptors, over all processes, that point to entry `f`. -/
def fdCount (f : Nat) : Nat := ∑ p ∈ Finset.range NPROC, fdsOf (s.procs p) f

/-- What holds inode `i`: its open files and the processes whose working directory it is. -/
def holderCount (i : Nat) : Nat :=
  (∑ f ∈ Finset.range s.ftable.length, (s.file f).opens i) + ∑ p ∈ Finset.range NPROC, isCwd (s.procs p) i

/-- The open files that are the `w` end of pipe `pg`. -/
def endCount (w : Bool) (pg : Nat) : Nat := ∑ f ∈ Finset.range s.ftable.length, (s.file f).isEnd w pg

/-- At most one cache entry with references holds each inode. -/
def Unique : Prop :=
  ∀ j k, j < s.icache.length → k < s.icache.length → 0 < (s.slot j).ref → 0 < (s.slot k).ref →
    (s.slot j).inum = (s.slot k).inum → j = k

end FsState

open FsState

variable {s s' : FsState} {f g i k p q pg : Nat} {x : File} {o : Option PFiles} {pi : Option Pipe}

/-! ### One entry of a table changed -/

@[simp] theorem setFile_procs : (s.setFile f x).procs = s.procs := rfl
@[simp] theorem setFile_icache : (s.setFile f x).icache = s.icache := rfl
@[simp] theorem setFile_pipes : (s.setFile f x).pipes = s.pipes := rfl
@[simp] theorem setFile_dinode : (s.setFile f x).dinode = s.dinode := rfl
@[simp] theorem length_setFile : (s.setFile f x).ftable.length = s.ftable.length := List.length_set
@[simp] theorem setProc_ftable : (s.setProc p o).ftable = s.ftable := rfl
@[simp] theorem setProc_icache : (s.setProc p o).icache = s.icache := rfl
@[simp] theorem setProc_pipes : (s.setProc p o).pipes = s.pipes := rfl
@[simp] theorem setProc_dinode : (s.setProc p o).dinode = s.dinode := rfl
@[simp] theorem file_setProc : (s.setProc p o).file f = s.file f := rfl
@[simp] theorem setPipe_ftable : (s.setPipe pg pi).ftable = s.ftable := rfl
@[simp] theorem setPipe_icache : (s.setPipe pg pi).icache = s.icache := rfl
@[simp] theorem setPipe_procs : (s.setPipe pg pi).procs = s.procs := rfl
@[simp] theorem setPipe_dinode : (s.setPipe pg pi).dinode = s.dinode := rfl

theorem file_setFile_self (hf : f < s.ftable.length) : (s.setFile f x).file f = x := by
  simp [setFile, file, List.getD_eq_getElem?_getD, hf]

theorem file_setFile_of_ne (h : g ≠ f) : (s.setFile f x).file g = s.file g := by
  simp [setFile, file, List.getD_eq_getElem?_getD, Ne.symm h]

theorem file_of_length_le (hf : s.ftable.length ≤ f) : s.file f = ⟨.FD_NONE, 0, false, false, 0, 0, 0⟩ := by
  simp [file, List.getD_eq_getElem?_getD, List.getElem?_eq_none hf]

theorem procs_setProc : (s.setProc p o).procs q = if q = p then o else s.procs q := rfl

theorem pipes_setPipe : (s.setPipe pg pi).pipes q = if q = pg then pi else s.pipes q := rfl

theorem procs_setProc_self : (s.setProc p o).procs p = o := if_pos rfl

theorem holderCount_setFile (hf : f < s.ftable.length) (i : Nat) :
    (s.setFile f x).holderCount i + (s.file f).opens i = s.holderCount i + x.opens i := by
  have h := Count.sum_range_update hf (fun j => (s.file j).opens i)
    (fun j => ((s.setFile f x).file j).opens i) fun j hj => by rw [file_setFile_of_ne hj]
  simp only [file_setFile_self hf] at h
  simp only [holderCount, length_setFile, setFile_procs]
  omega

theorem endCount_setFile (hf : f < s.ftable.length) (w : Bool) (pg : Nat) :
    (s.setFile f x).endCount w pg + (s.file f).isEnd w pg = s.endCount w pg + x.isEnd w pg := by
  have h := Count.sum_range_update hf (fun j => (s.file j).isEnd w pg)
    (fun j => ((s.setFile f x).file j).isEnd w pg) fun j hj => by rw [file_setFile_of_ne hj]
  simp only [file_setFile_self hf] at h
  simp only [endCount, length_setFile]
  exact h

theorem fdCount_setProc (hp : p < NPROC) (f : Nat) :
    (s.setProc p o).fdCount f + fdsOf (s.procs p) f = s.fdCount f + fdsOf o f := by
  have h := Count.sum_range_update hp (fun q => fdsOf (s.procs q) f)
    (fun q => fdsOf ((s.setProc p o).procs q) f) fun q hq => by rw [procs_setProc, if_neg hq]
  rw [procs_setProc_self] at h
  exact h

theorem holderCount_setProc (hp : p < NPROC) (i : Nat) :
    (s.setProc p o).holderCount i + isCwd (s.procs p) i = s.holderCount i + isCwd o i := by
  have h := Count.sum_range_update hp (fun q => isCwd (s.procs q) i)
    (fun q => isCwd ((s.setProc p o).procs q) i) fun q hq => by rw [procs_setProc, if_neg hq]
  rw [procs_setProc_self] at h
  simp only [holderCount, setProc_ftable]
  have hf : ∀ f, (s.setProc p o).file f = s.file f := fun _ => rfl
  simp only [hf]
  omega

theorem endOpen_close (u : Pipe) (w w' : Bool) : endOpen (u.close w) w' = if w' = w then false else endOpen u w' := by
  cases w <;> cases w' <;> rfl

theorem pipeclose_eq (pg : Nat) (w : Bool) : pipeclose s pg w = { s with pipes := (pipeclose s pg w).pipes } := by
  unfold pipeclose
  split <;> rfl

theorem pipes_pipeclose_of_ne (hq : q ≠ pg) (w : Bool) : (pipeclose s pg w).pipes q = s.pipes q := by
  unfold pipeclose
  split
  · exact if_neg hq
  · rfl

theorem pipes_pipeclose_self {u : Pipe} (hs : s.pipes pg = some u) (w : Bool) :
    (pipeclose s pg w).pipes pg =
      if (u.close w).readopen = false ∧ (u.close w).writeopen = false then none else some (u.close w) := by
  simp only [pipeclose, hs]
  exact if_pos rfl

theorem any_pipeclose (u : Pipe) (w w' : Bool) :
    (if (u.close w).readopen = false ∧ (u.close w).writeopen = false then none else some (u.close w)).any
      (endOpen · w') = if w' = w then false else endOpen u w' := by
  rw [← endOpen_close]
  split_ifs with hb
  · cases w' <;> simp [endOpen, hb.1, hb.2]
  · rfl

theorem lt_of_ref_pos (h : 0 < (s.file f).ref) : f < s.ftable.length := by
  by_contra hf
  rw [file_of_length_le (Nat.le_of_not_lt hf)] at h
  exact absurd h (Nat.lt_irrefl 0)

theorem File.opens_of_ne (h : x.type ≠ .FD_INODE) (i : Nat) : x.opens i = 0 := by
  simp [File.opens, h]

theorem File.isEnd_of_ne (h : x.type ≠ .FD_PIPE) (w : Bool) (pg : Nat) : x.isEnd w pg = 0 := by
  simp [File.isEnd, h]

theorem File.opens_setRef {r : Nat} (hx : 0 < x.ref) (hr : 0 < r) (i : Nat) :
    { x with ref := r }.opens i = x.opens i := by
  simp [File.opens, hx, hr]

theorem File.isEnd_setRef {r : Nat} (hx : 0 < x.ref) (hr : 0 < r) (w : Bool) (pg : Nat) :
    { x with ref := r }.isEnd w pg = x.isEnd w pg := by
  simp [File.isEnd, hx, hr]

theorem filealloc_spec (h : filealloc s = some (f, s')) :
    f < s.ftable.length ∧ (s.file f).ref = 0 ∧ s' = s.setFile f { s.file f with ref := 1 } := by
  unfold filealloc at h
  split at h
  · rename_i g hg
    obtain ⟨rfl, rfl⟩ := Prod.mk.inj (Option.some.inj h)
    obtain ⟨hgl, hz, -⟩ := List.findIdx?_eq_some_iff_getElem.1 hg
    refine ⟨hgl, ?_, rfl⟩
    simpa [file, List.getD_eq_getElem?_getD, List.getElem?_eq_getElem hgl] using hz
  · cases h

theorem fdalloc_spec (h : fdalloc s p f = some (g, s')) : ∃ pf, s.procs p = some pf ∧
    pf.ofile[g]? = some none ∧ s' = s.setProc p (some { pf with ofile := pf.ofile.set g (some f) }) := by
  unfold fdalloc at h
  split at h
  · rename_i pf hpf
    split at h
    · rename_i fd hfd
      obtain ⟨rfl, rfl⟩ := Prod.mk.inj (Option.some.inj h)
      obtain ⟨hl, hn, -⟩ := List.findIdx?_eq_some_iff_getElem.1 hfd
      refine ⟨pf, hpf, ?_, rfl⟩
      rw [List.getElem?_eq_getElem hl, Option.isNone_iff_eq_none.1 hn]
    · cases h
  · cases h

/-! ### The inode cache -/

theorem slot_set (hk : k < s.icache.length) (e : Slot) (j : Nat) :
    ({ s with icache := s.icache.set k e } : FsState).slot j = if j = k then e else s.slot j := by
  by_cases hj : j = k
  · subst hj
    simp [slot, List.getD_eq_getElem?_getD, hk]
  · simp [slot, List.getD_eq_getElem?_getD, Ne.symm hj, hj]

theorem modify_eq_set (hk : k < s.icache.length) (h : Slot → Slot) :
    s.icache.modify k h = s.icache.set k (h (s.slot k)) := by
  refine List.ext_getElem? fun j => ?_
  rw [List.getElem?_modify, List.getElem?_set]
  by_cases hj : k = j
  · subst hj
    simp [slot, List.getD_eq_getElem?_getD, hk]
  · simp [hj]

theorem heldCount_set (hk : k < s.icache.length) (e : Slot) (i : Nat) :
    ({ s with icache := s.icache.set k e } : FsState).heldCount i + (s.slot k).refsTo i =
      s.heldCount i + e.refsTo i := by
  have h := Count.sum_range_update hk (fun j => (s.slot j).refsTo i)
    (fun j => (({ s with icache := s.icache.set k e } : FsState).slot j).refsTo i)
    fun j hj => by rw [slot_set hk, if_neg hj]
  rw [slot_set hk, if_pos rfl] at h
  simp only [heldCount, List.length_set]
  exact h

theorem FsState.Unique.set (hu : s.Unique) (hk : k < s.icache.length) {e : Slot}
    (he : 0 < e.ref → ∀ j, j < s.icache.length → j ≠ k → 0 < (s.slot j).ref → (s.slot j).inum ≠ e.inum) :
    ({ s with icache := s.icache.set k e } : FsState).Unique := by
  intro a b ha hb hra hrb hab
  simp only [List.length_set] at ha hb
  simp only [slot_set hk] at hra hrb hab
  by_cases hak : a = k <;> by_cases hbk : b = k
  · rw [hak, hbk]
  · rw [if_pos hak] at hra hab
    rw [if_neg hbk] at hrb hab
    exact absurd hab.symm (he hra b hb hbk hrb)
  · rw [if_neg hak] at hra hab
    rw [if_pos hbk] at hrb hab
    exact absurd hab (he hrb a ha hak hra)
  · rw [if_neg hak] at hra hab
    rw [if_neg hbk] at hrb hab
    exact hu a b ha hb hra hrb hab

theorem slotOf_some (h : s.slotOf i = some k) :
    k < s.icache.length ∧ 0 < (s.slot k).ref ∧ (s.slot k).inum = i := by
  obtain ⟨hk, hp, -⟩ := List.findIdx?_eq_some_iff_getElem.1 h
  simp only [Bool.and_eq_true, decide_eq_true_eq, beq_iff_eq] at hp
  simp only [slot, List.getD_eq_getElem?_getD, List.getElem?_eq_getElem hk, Option.getD_some]
  exact ⟨hk, hp⟩

theorem slotOf_none (h : s.slotOf i = none) (j : Nat) (hj : j < s.icache.length) (hr : 0 < (s.slot j).ref) :
    (s.slot j).inum ≠ i := by
  have hp := List.findIdx?_eq_none_iff.1 h _ (List.getElem_mem hj)
  simp only [Bool.and_eq_false_iff, decide_eq_false_iff_not, beq_eq_false_iff_ne] at hp
  simp only [slot, List.getD_eq_getElem?_getD, List.getElem?_eq_getElem hj, Option.getD_some] at hr ⊢
  exact hp.resolve_left (not_not.2 hr)

theorem slotOf_of_held (h : 0 < s.heldCount i) : ∃ k, s.slotOf i = some k := by
  obtain ⟨j, hj, hr⟩ := Count.exists_of_pos h
  unfold Slot.refsTo at hr
  split_ifs at hr with he
  · simp only [slot, List.getD_eq_getElem?_getD, List.getElem?_eq_getElem hj, Option.getD_some] at hr he
    refine Option.isSome_iff_exists.1 ?_
    rw [slotOf, List.findIdx?_isSome]
    exact List.any_eq_true.2 ⟨_, List.getElem_mem hj, by simp [hr, he]⟩
  · exact absurd hr (Nat.lt_irrefl 0)

theorem heldCount_of_icache (h : s'.icache = s.icache) : s'.heldCount = s.heldCount := by
  funext i
  simp only [heldCount, slot, h]

theorem unique_of_icache (h : s'.icache = s.icache) (hu : s.Unique) : s'.Unique := by
  intro a b
  simp only [slot, h]
  exact hu a b

/-- With one entry per inode, `ip->ref` of the entry is every reference the cache holds. -/
theorem refOf_eq_heldCount (hu : s.Unique) (i : Nat) : s.refOf i = s.heldCount i := by
  unfold refOf
  split
  · rename_i k hk
    obtain ⟨hkl, hr, hinum⟩ := slotOf_some hk
    rw [heldCount, Finset.sum_eq_single k (fun j hj hjk => ?_) (fun hn => absurd (Finset.mem_range.2 hkl) hn)]
    · rw [Slot.refsTo, if_pos hinum]
      rfl
    · -- another entry holding `i` has no reference
      unfold Slot.refsTo
      split_ifs with he
      · by_contra hne
        exact hjk (hu j k (Finset.mem_range.1 hj) hkl (Nat.pos_of_ne_zero hne) hr (he.trans hinum.symm))
      · rfl
  · rename_i hn
    refine (Finset.sum_eq_zero fun j hj => ?_).symm
    unfold Slot.refsTo
    split_ifs with he
    · by_contra hne
      exact slotOf_none hn j (Finset.mem_range.1 hj) (Nat.pos_of_ne_zero hne) he
    · rfl

/-! ### The file and inode layers leave the process slots alone -/

theorem slotOf_setProc (i : Nat) : (s.setProc p o).slotOf i = s.slotOf i := rfl

theorem bumpRef_setProc (i : Nat) (up : Bool) : (s.setProc p o).bumpRef i up = (s.bumpRef i up).setProc p o := by
  unfold bumpRef
  rw [slotOf_setProc]
  split <;> rfl

theorem iput_setProc (i : Nat) : iput (s.setProc p o) i = (iput s i).setProc p o := by
  unfold iput
  dsimp only
  split_ifs with h1 h2 h2
  · exact bumpRef_setProc (s := s.setDinode i _) i false
  · exact absurd h1 h2
  · exact absurd h2 h1
  · exact bumpRef_setProc i false

theorem pipeclose_setProc (pg : Nat) (w : Bool) : pipeclose (s.setProc p o) pg w = (pipeclose s pg w).setProc p o := by
  unfold pipeclose
  rw [setProc_pipes]
  split <;> rfl

theorem fileclose_setProc : fileclose (s.setProc p o) f = (fileclose s f).map (·.setProc p o) := by
  unfold fileclose
  dsimp only [file_setProc]
  split_ifs
  · rfl
  · rfl
  · exact congrArg Except.ok (pipeclose_setProc (s := s.setFile f _) _ _)
  · exact congrArg Except.ok (iput_setProc (s := s.setFile f _) _)
  · rfl

theorem closeAll_setProc : ∀ (l : List (Option Nat)) (s : FsState),
    closeAll l (s.setProc p o) = (closeAll l s).map (·.setProc p o)
  | [], _ => rfl
  | none :: l, s => closeAll_setProc l s
  | some f :: l, s => by
    simp only [Fs.closeAll, fileclose_setProc]
    cases fileclose s f with
    | error e => rfl
    | ok t => exact closeAll_setProc l t

theorem filedup_procs (h : filedup s f = .ok s') : s'.procs = s.procs := by
  unfold filedup at h
  split_ifs at h
  rw [← Except.ok.inj h]
  rfl

theorem dupAll_procs : ∀ (l : List (Option Nat)) {s s' : FsState}, dupAll l s = .ok s' → s'.procs = s.procs
  | [], _, _, h => by rw [← Except.ok.inj h]
  | none :: l, _, _, h => dupAll_procs l h
  | some f :: l, _, _, h => by
    obtain ⟨t, ht, h⟩ := Except.bind_eq_ok.1 h
    rw [dupAll_procs l h, filedup_procs ht]

theorem bumpRef_procs (i : Nat) (up : Bool) : (s.bumpRef i up).procs = s.procs := by
  unfold bumpRef
  split <;> rfl

theorem iput_procs (i : Nat) : (iput s i).procs = s.procs := by
  unfold iput
  dsimp only
  split_ifs <;> exact bumpRef_procs _ _

theorem filedup_setProc : filedup (s.setProc p o) f = (filedup s f).map (·.setProc p o) := by
  unfold filedup
  by_cases hr : (s.file f).ref < 1
  · rw [if_pos (show ((s.setProc p o).file f).ref < 1 from hr), if_pos hr]
    rfl
  · rw [if_neg (show ¬((s.setProc p o).file f).ref < 1 from hr), if_neg hr]
    rfl

theorem count_set_some {l : List (Option Nat)} {g : Nat} (hg : l[g]? = some none) (f f' : Nat) :
    (l.set g (some f)).count (some f') = l.count (some f') + if f = f' then 1 else 0 := by
  have := Count.count_set l hg (some f) (some f')
  simp only [reduceCtorEq, if_false, add_zero, Option.some.injEq] at this
  exact this

theorem count_set_none {l : List (Option Nat)} {g f : Nat} (hg : l.getD g none = some f) (f' : Nat) :
    (l.set g none).count (some f') + (if f = f' then 1 else 0) = l.count (some f') := by
  have hl : l[g]? = some (some f) := by
    rw [List.getD_eq_getElem?_getD] at hg
    cases hq : l[g]? with
    | none => rw [hq] at hg; cases hg
    | some x => rw [hq] at hg; exact congrArg some hg
  have := Count.count_set l hl none (some f')
  simp only [reduceCtorEq, if_false, add_zero, Option.some.injEq] at this
  exact this

/-! ### The inode layer -/

/-- The reference an inode-layer call returns, if it returns one. -/
def ret (r : Option Nat) : Multiset Nat := r.elim 0 fun i => {i}

@[simp] theorem ret_none : ret none = 0 := rfl

@[simp] theorem ret_some (i : Nat) : ret (some i) = {i} := rfl

/-- Each pass of `namex` consumes at least one byte of the path, so `path.length + 1` passes
are enough. -/
theorem skipelem_length {path name rest : List UInt8} (h : skipelem path = some (name, rest)) :
    rest.length < path.length := by
  dsimp only [skipelem] at h
  split_ifs at h with hp
  obtain ⟨a, t, hat⟩ := List.exists_cons_of_ne_nil hp
  obtain ⟨-, rfl⟩ := Prod.mk.inj (Option.some.inj h)
  -- the element starts at a byte that is not a slash
  have ha : (a == 47) = false := by
    have := List.head?_dropWhile_not (· == 47) path
    rw [hat] at this
    simpa using this
  have hle := List.length_dropWhile_le (· == 47) path
  rw [hat] at hle ⊢
  rw [List.dropWhile_cons, if_pos (by simpa using ha)]
  calc _ ≤ (t.dropWhile (· != 47)).length := List.length_dropWhile_le _ _
    _ ≤ t.length := List.length_dropWhile_le _ _
    _ < (a :: t).length := Nat.lt_succ_self _
    _ ≤ path.length := hle

/-- A computation of the inode layer from `s` to `s'`: the file table, the processes and the pipes
are left alone, and the cache's references change by taking `a` and adding `b`. -/
structure Inodes (s s' : FsState) (a b : Multiset Nat) : Prop where
  ftable : s'.ftable = s.ftable
  procs : s'.procs = s.procs
  pipes : s'.pipes = s.pipes
  unique : s'.Unique
  held : ∀ i, s'.heldCount i + a.count i = s.heldCount i + b.count i

namespace Inodes

variable {s₁ s₂ : FsState} {a b c d : Multiset Nat}

theorem of_eq (hu : s.Unique) (hi : s'.icache = s.icache) (hf : s'.ftable = s.ftable) (hp : s'.procs = s.procs)
    (hpi : s'.pipes = s.pipes) : Inodes s s' 0 0 :=
  ⟨hf, hp, hpi, unique_of_icache hi hu, fun i => by rw [heldCount_of_icache hi]⟩

theorem comp {a' b' : Multiset Nat} (h₁ : Inodes s s₁ a b) (h₂ : Inodes s₁ s₂ c d)
    (e : a' + b + d = b' + a + c) : Inodes s s₂ a' b' := by
  refine ⟨h₂.ftable.trans h₁.ftable, h₂.procs.trans h₁.procs, h₂.pipes.trans h₁.pipes, h₂.unique, fun i => ?_⟩
  have e₁ := h₁.held i
  have e₂ := h₂.held i
  have e₃ := congrArg (Multiset.count i) e
  simp only [Multiset.count_add] at e₃
  omega

theorem refl (hu : s.Unique) : Inodes s s a a := ⟨rfl, rfl, rfl, hu, fun _ => rfl⟩

theorem pos (h : Inodes s s' a b) (hi : a.count i < s.heldCount i + b.count i) : 0 < s'.heldCount i := by
  have := h.held i
  omega

theorem setDinode (h : Inodes s s' a b) (j : Nat) (e : Dinode) : Inodes s (s'.setDinode j e) a b :=
  ⟨h.ftable, h.procs, h.pipes, unique_of_icache rfl h.unique, h.held⟩

theorem pos_of_held (h : Inodes s s' 0 b) (hi : 0 < s.heldCount i) : 0 < s'.heldCount i :=
  h.pos (by rw [Multiset.count_zero]; omega)

theorem pos_of_mem (h : Inodes s s' 0 b) (hi : i ∈ b) : 0 < s'.heldCount i :=
  h.pos (by
    rw [Multiset.count_zero]
    exact Nat.lt_of_lt_of_le (Multiset.count_pos.2 hi) (Nat.le_add_left _ _))

theorem bumpRef_up (hu : s.Unique) (h : s.slotOf i = some k) : Inodes s (s.bumpRef i true) 0 {i} := by
  obtain ⟨hk, hr, hinum⟩ := slotOf_some h
  simp only [bumpRef, h, ↓reduceIte]
  rw [modify_eq_set hk]
  refine ⟨rfl, rfl, rfl, hu.set hk fun _ j hj hjk hrj e => hjk (hu j k hj hk hrj hr e), fun j => ?_⟩
  have e := heldCount_set hk ⟨(s.slot k).inum, (s.slot k).ref + 1⟩ j
  simp only [Slot.refsTo] at e
  rw [Multiset.count_zero, Multiset.count_singleton]
  by_cases hj : i = j
  · rw [if_pos (hinum.trans hj), if_pos (hinum.trans hj)] at e
    rw [if_pos hj.symm]
    omega
  · have hj' : (s.slot k).inum ≠ j := fun e => hj (hinum.symm.trans e)
    rw [if_neg hj', if_neg hj'] at e
    rw [if_neg (Ne.symm hj)]
    omega

theorem bumpRef_down (hu : s.Unique) (h : s.slotOf i = some k) : Inodes s (s.bumpRef i false) {i} 0 := by
  obtain ⟨hk, hr, hinum⟩ := slotOf_some h
  simp only [bumpRef, h, Bool.false_eq_true, ↓reduceIte]
  rw [modify_eq_set hk]
  refine ⟨rfl, rfl, rfl, hu.set hk fun _ j hj hjk hrj e => hjk (hu j k hj hk hrj hr e), fun j => ?_⟩
  have e := heldCount_set hk ⟨(s.slot k).inum, (s.slot k).ref - 1⟩ j
  simp only [Slot.refsTo] at e
  rw [Multiset.count_zero, Multiset.count_singleton]
  by_cases hj : i = j
  · rw [if_pos (hinum.trans hj), if_pos (hinum.trans hj)] at e
    rw [if_pos hj.symm]
    omega
  · have hj' : (s.slot k).inum ≠ j := fun e => hj (hinum.symm.trans e)
    rw [if_neg hj', if_neg hj'] at e
    rw [if_neg (Ne.symm hj)]
    omega

theorem iget (hu : s.Unique) (h : iget s i = .ok s') : Inodes s s' 0 {i} := by
  unfold Fs.iget at h
  split at h
  · rename_i k hk
    rw [← Except.ok.inj h]
    exact bumpRef_up hu hk
  · rename_i hn
    split at h
    · -- the first free entry now holds `i`
      rename_i k hk
      rw [← Except.ok.inj h]
      obtain ⟨hkl, hfree, -⟩ := List.findIdx?_eq_some_iff_getElem.1 hk
      have hr : (s.slot k).ref = 0 := by
        simpa [slot, List.getD_eq_getElem?_getD, List.getElem?_eq_getElem hkl] using hfree
      refine ⟨rfl, rfl, rfl, hu.set hkl fun _ j hj _ hrj => slotOf_none hn j hj hrj, fun j => ?_⟩
      have e := heldCount_set hkl ⟨i, 1⟩ j
      simp only [Slot.refsTo, hr, ite_self] at e
      rw [Multiset.count_zero, Multiset.count_singleton, e]
      by_cases hj : i = j
      · rw [if_pos hj, if_pos hj.symm]
      · rw [if_neg hj, if_neg (Ne.symm hj)]
    · cases h

theorem idup (hu : s.Unique) (hi : 0 < s.heldCount i) : Inodes s (idup s i) 0 {i} := by
  obtain ⟨k, hk⟩ := slotOf_of_held hi
  exact bumpRef_up hu hk

theorem iput (hu : s.Unique) (hi : 0 < s.heldCount i) : Inodes s (iput s i) {i} 0 := by
  -- freeing the inode changes `dinode` only
  have h₁ : Inodes s (if (s.dinode i).nlink = 0 ∧ s.refOf i = 1 then
      s.setDinode i { s.dinode i with type := 0, data := [] } else s) 0 0 := by
    split_ifs
    · exact of_eq hu rfl rfl rfl rfl
    · exact of_eq hu rfl rfl rfl rfl
  obtain ⟨k, hk⟩ := slotOf_of_held (by rw [heldCount_of_icache (by split_ifs <;> rfl)]; exact hi :
    0 < (if (s.dinode i).nlink = 0 ∧ s.refOf i = 1 then
      s.setDinode i { s.dinode i with type := 0, data := [] } else s).heldCount i)
  exact h₁.comp (bumpRef_down h₁.unique hk) (by ac_rfl)

theorem put (h : Inodes s s' 0 ({i} + b)) : Inodes s (Fs.iput s' i) 0 b := by
  exact h.comp (Inodes.iput h.unique (h.pos_of_mem (by simp))) (by ac_rfl)

theorem handOn {ip next : Nat} (d : Inodes s s₁ 0 {next}) (hip : 0 < s.heldCount ip) :
    Inodes s (Fs.iput s₁ ip) {ip} {next} ∧ 0 < (Fs.iput s₁ ip).heldCount next := by
  have d' : Inodes s (Fs.iput s₁ ip) {ip} {next} := d.comp (iput d.unique (d.pos_of_held hip)) (by ac_rfl)
  refine ⟨d', d'.pos ?_⟩
  rw [Multiset.count_singleton, Multiset.count_singleton_self]
  split_ifs with e
  · subst e
    omega
  · omega

/-! ### Directories and path names: each returns the one reference it got -/

theorem dirlookup {dp : Nat} {name : List UInt8} {r : Option (Nat × Nat)} (hu : s.Unique)
    (h : dirlookup s dp name = .ok (r, s')) : Inodes s s' 0 (ret (r.map Prod.fst)) := by
  unfold Fs.dirlookup at h
  split_ifs at h
  obtain ⟨x, -, h⟩ := Except.bind_eq_ok.1 h
  rcases x with _ | ⟨inum, off⟩
  · obtain ⟨rfl, rfl⟩ := Prod.mk.inj (Except.ok.inj h)
    exact of_eq hu rfl rfl rfl rfl
  · obtain ⟨s₁, h₁, h⟩ := Except.bind_eq_ok.1 h
    obtain ⟨rfl, rfl⟩ := Prod.mk.inj (Except.ok.inj h)
    exact iget hu h₁

theorem namexLoop (np : Bool) : ∀ (k : Nat) (path name : List UInt8) (ip : Nat) (s s' : FsState)
    (r : Option (Nat × List UInt8)), path.length < k → s.Unique → 0 < s.heldCount ip →
    namexLoop np k path name ip s = .ok (r, s') → Inodes s s' {ip} (ret (r.map Prod.fst))
  | 0, _, _, _, _, _, _, hk, _, _, _ => absurd hk (Nat.not_lt_zero _)
  | k + 1, path, name, ip, s, s', r, hk, hu, hip, h => by
    unfold Fs.namexLoop at h
    split at h
    · -- no element is left
      split at h
      · obtain ⟨rfl, rfl⟩ := Prod.mk.inj (Except.ok.inj h)
        exact iput hu hip
      · obtain ⟨rfl, rfl⟩ := Prod.mk.inj (Except.ok.inj h)
        exact refl hu
    rename_i name' path' hs
    obtain ⟨-, -, h⟩ := Except.bind_eq_ok.1 h
    split_ifs at h
    · obtain ⟨rfl, rfl⟩ := Prod.mk.inj (Except.ok.inj h)
      exact iput hu hip
    · obtain ⟨rfl, rfl⟩ := Prod.mk.inj (Except.ok.inj h)
      exact refl hu
    obtain ⟨⟨r₁, s₁⟩, h₁, h⟩ := Except.bind_eq_ok.1 h
    rcases r₁ with _ | ⟨next, off⟩
    · obtain ⟨rfl, rfl⟩ := Prod.mk.inj (Except.ok.inj h)
      have d : Inodes s s₁ 0 0 := dirlookup hu h₁
      exact d.comp (iput d.unique (d.pos_of_held hip)) (by ac_rfl)
    -- the reference to `ip` is put, the one to `next` carried into the next pass
    obtain ⟨d', hnext⟩ := handOn (dirlookup hu h₁ : Inodes s s₁ 0 {next}) hip
    have hlen := skipelem_length hs
    exact d'.comp (namexLoop np k path' name' next _ s' r (by omega) d'.unique hnext h) (by ac_rfl)

theorem namex {cwd : Nat} {path : List UInt8} {np : Bool} {r : Option (Nat × List UInt8)} (hu : s.Unique)
    (hcwd : 0 < s.heldCount cwd) (h : namex s cwd path np = .ok (r, s')) :
    Inodes s s' 0 (ret (r.map Prod.fst)) := by
  unfold Fs.namex at h
  dsimp only at h
  -- the walk starts with a reference of its own to the root or the working directory
  split_ifs at h <;> obtain ⟨s₁, h₁, h⟩ := Except.bind_eq_ok.1 h
  · have d := iget hu h₁
    exact d.comp (namexLoop np _ path [] _ s₁ s' r (Nat.lt_succ_self _) d.unique (d.pos (by simp)) h)
      (by ac_rfl)
  · have d : Inodes s s₁ 0 {cwd} := by
      rw [← Except.ok.inj h₁]
      exact idup hu hcwd
    exact d.comp (namexLoop np _ path [] _ s₁ s' r (Nat.lt_succ_self _) d.unique (d.pos (by simp)) h)
      (by ac_rfl)

theorem namei {cwd : Nat} {path : List UInt8} {r : Option Nat} (hu : s.Unique) (hcwd : 0 < s.heldCount cwd)
    (h : namei s cwd path = .ok (r, s')) : Inodes s s' 0 (ret r) := by
  unfold Fs.namei at h
  obtain ⟨⟨r₁, s₁⟩, h₁, h⟩ := Except.bind_eq_ok.1 h
  obtain ⟨rfl, rfl⟩ := Prod.mk.inj (Except.ok.inj h)
  exact namex hu hcwd h₁

theorem nameiparent {cwd : Nat} {path : List UInt8} {r : Option (Nat × List UInt8)} (hu : s.Unique)
    (hcwd : 0 < s.heldCount cwd) (h : nameiparent s cwd path = .ok (r, s')) :
    Inodes s s' 0 (ret (r.map Prod.fst)) :=
  namex hu hcwd h

theorem iallocLoop {type : Nat} : ∀ (k inum : Nat) {ip : Nat} {s s' : FsState}, s.Unique →
    iallocLoop s type k inum = .ok (ip, s') → Inodes s s' 0 {ip}
  | 0, _, _, _, _, _, h => by cases h
  | k + 1, inum, ip, s, s', hu, h => by
    unfold Fs.iallocLoop at h
    split_ifs at h
    · obtain ⟨s₁, h₁, h⟩ := Except.bind_eq_ok.1 h
      obtain ⟨rfl, rfl⟩ := Prod.mk.inj (Except.ok.inj h)
      have d : Inodes s (s.setDinode inum ⟨type, 0, 0, 0, []⟩) 0 0 := of_eq hu rfl rfl rfl rfl
      exact d.comp (iget d.unique h₁) (by ac_rfl)
    · exact iallocLoop k (inum + 1) hu h

theorem ialloc {type ip : Nat} (hu : s.Unique) (h : ialloc s type = .ok (ip, s')) : Inodes s s' 0 {ip} :=
  iallocLoop _ _ hu h

/-- A link takes no reference: the one `dirlookup` got for a present name is put. -/
theorem dirlink {dp inum : Nat} {name : List UInt8} {r : Int} (hu : s.Unique)
    (h : dirlink s dp name inum = .ok (r, s')) : Inodes s s' 0 0 := by
  unfold Fs.dirlink at h
  obtain ⟨⟨r₁, s₁⟩, h₁, h⟩ := Except.bind_eq_ok.1 h
  rcases r₁ with _ | ⟨ip, off⟩
  · have d : Inodes s s₁ 0 0 := dirlookup hu h₁
    obtain ⟨o, -, h⟩ := Except.bind_eq_ok.1 h
    split at h
    · obtain ⟨rfl, rfl⟩ := Prod.mk.inj (Except.ok.inj h)
      exact d.comp (of_eq d.unique rfl rfl rfl rfl) (by ac_rfl)
    · cases h
  · obtain ⟨rfl, rfl⟩ := Prod.mk.inj (Except.ok.inj h)
    have d : Inodes s s₁ 0 {ip} := dirlookup hu h₁
    exact d.comp (iput d.unique (d.pos (by simp))) (by ac_rfl)

theorem create {p type major minor : Nat} {path : List UInt8} {r : Option Nat} (hu : s.Unique)
    (hcwd : 0 < s.heldCount (cwdOf s p)) (h : create s p path type major minor = .ok (r, s')) :
    Inodes s s' 0 (ret r) := by
  unfold Fs.create at h
  obtain ⟨⟨r₁, s₁⟩, h₁, h⟩ := Except.bind_eq_ok.1 h
  rcases r₁ with _ | ⟨dp, name⟩
  · obtain ⟨rfl, rfl⟩ := Prod.mk.inj (Except.ok.inj h)
    exact nameiparent hu hcwd h₁
  have d₁ : Inodes s s₁ 0 {dp} := nameiparent hu hcwd h₁
  obtain ⟨-, -, h⟩ := Except.bind_eq_ok.1 h
  obtain ⟨⟨r₂, s₂⟩, h₂, h⟩ := Except.bind_eq_ok.1 h
  rcases r₂ with _ | ⟨ip, off⟩
  · -- a new inode, linked into `dp`
    have d : Inodes s₁ s₂ 0 0 := dirlookup d₁.unique h₂
    have d₂ : Inodes s s₂ 0 {dp} := d₁.comp d (by ac_rfl)
    obtain ⟨⟨ip, s₃⟩, h₃, h⟩ := Except.bind_eq_ok.1 h
    have d₃ : Inodes s s₃ 0 ({dp} + {ip}) := d₂.comp (ialloc d₂.unique h₃) (by ac_rfl)
    obtain ⟨-, -, h⟩ := Except.bind_eq_ok.1 h
    -- the last link, then `dp` put
    have tail : ∀ s₄ r₅ s₅, Inodes s s₄ 0 ({dp} + {ip}) → Fs.dirlink s₄ dp name ip = .ok (r₅, s₅) →
        Inodes s (Fs.iput s₅ dp) 0 {ip} := by
      intro s₄ r₅ s₅ d₄ h₅
      have d₅ : Inodes s s₅ 0 ({dp} + {ip}) := d₄.comp (dirlink d₄.unique h₅) (by ac_rfl)
      exact d₅.comp (iput d₅.unique (d₅.pos (by simp))) (by ac_rfl)
    have d₄ : Inodes s (s₃.setDinode ip { s₃.dinode ip with major := major, minor := minor, nlink := 1 })
      0 ({dp} + {ip}) := d₃.setDinode ip _
    dsimp only at h
    split_ifs at h
    · -- a directory: `dp` gains a link, and the new one its two entries
      obtain ⟨⟨r₅, s₅⟩, h₅, h⟩ := Except.bind_eq_ok.1 h
      split_ifs at h
      · simp at h
      obtain ⟨⟨r₆, s₆⟩, h₆, h⟩ := Except.bind_eq_ok.1 h
      split_ifs at h
      · simp at h
      obtain ⟨s₇, h₇, h⟩ := Except.bind_eq_ok.1 h
      obtain ⟨⟨r₈, s₈⟩, h₈, h⟩ := Except.bind_eq_ok.1 h
      split_ifs at h
      · simp at h
      obtain ⟨rfl, rfl⟩ := Prod.mk.inj (Except.ok.inj h)
      rw [← Except.ok.inj h₇] at h₈
      have d₅ : Inodes s s₅ 0 ({dp} + {ip}) :=
        (d₄.setDinode dp _).comp (dirlink (d₄.setDinode dp _).unique h₅) (by ac_rfl)
      have d₆ : Inodes s s₆ 0 ({dp} + {ip}) := d₅.comp (dirlink d₅.unique h₆) (by ac_rfl)
      exact tail s₆ r₈ s₈ d₆ h₈
    · obtain ⟨s₄, h₄, h⟩ := Except.bind_eq_ok.1 h
      obtain ⟨⟨r₅, s₅⟩, h₅, h⟩ := Except.bind_eq_ok.1 h
      split_ifs at h
      · simp at h
      obtain ⟨rfl, rfl⟩ := Prod.mk.inj (Except.ok.inj h)
      rw [← Except.ok.inj h₄] at h₅
      exact tail _ r₅ s₅ d₄ h₅
  · -- the name is present: `dp` is put
    have d : Inodes s₁ s₂ 0 {ip} := dirlookup d₁.unique h₂
    have d₂ : Inodes s s₂ 0 ({dp} + {ip}) := d₁.comp d (by ac_rfl)
    have d₃ : Inodes s (Fs.iput s₂ dp) 0 {ip} := d₂.comp (iput d₂.unique (d₂.pos (by simp))) (by ac_rfl)
    obtain ⟨-, -, h⟩ := Except.bind_eq_ok.1 h
    split_ifs at h
    · obtain ⟨rfl, rfl⟩ := Prod.mk.inj (Except.ok.inj h)
      exact d₃
    · obtain ⟨rfl, rfl⟩ := Prod.mk.inj (Except.ok.inj h)
      exact d₃.comp (iput d₃.unique (d₃.pos (by simp))) (by ac_rfl)

/-! ### The calls of the inode layer take no reference -/

theorem sysCreate {p type major minor : Nat} {path : List UInt8} {r : Int} (hu : s.Unique)
    (hcwd : 0 < s.heldCount (cwdOf s p)) (h : sysCreate s p path type major minor = .ok (r, s')) :
    Inodes s s' 0 0 := by
  unfold Fs.sysCreate at h
  obtain ⟨⟨r₁, s₁⟩, h₁, h⟩ := Except.bind_eq_ok.1 h
  have d := create hu hcwd h₁
  rcases r₁ with _ | ip
  · obtain ⟨rfl, rfl⟩ := Prod.mk.inj (Except.ok.inj h)
    exact d
  · obtain ⟨rfl, rfl⟩ := Prod.mk.inj (Except.ok.inj h)
    exact d.comp (iput d.unique (d.pos (by simp))) (by simp)

theorem exec {p : Nat} {path : List UInt8} (hu : s.Unique) (hcwd : 0 < s.heldCount (cwdOf s p))
    (h : exec s p path = .ok s') : Inodes s s' 0 0 := by
  unfold Fs.exec at h
  obtain ⟨⟨r₁, s₁⟩, h₁, h⟩ := Except.bind_eq_ok.1 h
  have d := namei hu hcwd h₁
  rcases r₁ with _ | ip
  · rw [← Except.ok.inj h]
    exact d
  · obtain ⟨-, -, h⟩ := Except.bind_eq_ok.1 h
    rw [← Except.ok.inj h]
    exact d.comp (iput d.unique (d.pos (by simp))) (by simp)

theorem sys_link {p : Nat} {old new : List UInt8} {r : Int} (hu : s.Unique) (hcwd : 0 < s.heldCount (cwdOf s p))
    (h : sys_link s p old new = .ok (r, s')) : Inodes s s' 0 0 := by
  unfold Fs.sys_link at h
  obtain ⟨⟨r₁, s₁⟩, h₁, h⟩ := Except.bind_eq_ok.1 h
  have d₁ := namei hu hcwd h₁
  rcases r₁ with _ | ip
  · obtain ⟨rfl, rfl⟩ := Prod.mk.inj (Except.ok.inj h)
    exact d₁
  have d₁ : Inodes s s₁ 0 {ip} := d₁
  obtain ⟨-, -, h⟩ := Except.bind_eq_ok.1 h
  split_ifs at h
  · obtain ⟨rfl, rfl⟩ := Prod.mk.inj (Except.ok.inj h)
    exact d₁.comp (iput d₁.unique (d₁.pos (by simp))) (by simp)
  extract_lets src s₂ bad at h
  -- `bad:` undoes the link count and puts `ip`
  have hbad : ∀ t r' t', Inodes s t 0 {ip} → bad t = .ok (r', t') → Inodes s t' 0 0 := by
    intro t r' t' d h
    simp only [bad] at h
    obtain ⟨-, -, h⟩ := Except.bind_eq_ok.1 h
    obtain ⟨rfl, rfl⟩ := Prod.mk.inj (Except.ok.inj h)
    have d' := d.setDinode ip { t.dinode ip with nlink := (t.dinode ip).nlink - 1 }
    exact d'.comp (iput d'.unique (d'.pos (by simp))) (by simp)
  have d₂ : Inodes s s₂ 0 {ip} := d₁.setDinode ip _
  have hcwd₂ : 0 < s₂.heldCount (cwdOf s₂ p) := by
    rw [show cwdOf s₂ p = cwdOf s p by simp only [cwdOf, d₂.procs]]
    exact d₂.pos_of_held hcwd
  obtain ⟨⟨r₃, s₃⟩, h₃, h⟩ := Except.bind_eq_ok.1 h
  have d₃ := nameiparent d₂.unique hcwd₂ h₃
  rcases r₃ with _ | ⟨dp, name⟩
  · exact hbad s₃ r s' (d₂.comp d₃ (by simp)) h
  have d₃ : Inodes s s₃ 0 ({ip} + {dp}) := d₂.comp d₃ (by simp)
  obtain ⟨-, -, h⟩ := Except.bind_eq_ok.1 h
  obtain ⟨⟨r₄, s₄⟩, h₄, h⟩ := Except.bind_eq_ok.1 h
  have d₄ : Inodes s s₄ 0 ({ip} + {dp}) := d₃.comp (dirlink d₃.unique h₄) (by simp)
  have d₅ : Inodes s (Fs.iput s₄ dp) 0 {ip} := d₄.comp (iput d₄.unique (d₄.pos_of_mem (by simp))) (by simp)
  dsimp only at h
  split_ifs at h
  · exact hbad _ r s' d₅ h
  · obtain ⟨rfl, rfl⟩ := Prod.mk.inj (Except.ok.inj h)
    exact d₅.comp (iput d₅.unique (d₅.pos (by simp))) (by simp)

theorem sys_unlink {p : Nat} {path : List UInt8} {r : Int} (hu : s.Unique) (hcwd : 0 < s.heldCount (cwdOf s p))
    (h : sys_unlink s p path = .ok (r, s')) : Inodes s s' 0 0 := by
  unfold Fs.sys_unlink at h
  obtain ⟨⟨r₁, s₁⟩, h₁, h⟩ := Except.bind_eq_ok.1 h
  have d₁ := nameiparent hu hcwd h₁
  rcases r₁ with _ | ⟨dp, name⟩
  · obtain ⟨rfl, rfl⟩ := Prod.mk.inj (Except.ok.inj h)
    exact d₁
  have d₁ : Inodes s s₁ 0 ({dp} + 0) := by simpa using d₁
  obtain ⟨-, -, h⟩ := Except.bind_eq_ok.1 h
  split_ifs at h
  · obtain ⟨rfl, rfl⟩ := Prod.mk.inj (Except.ok.inj h)
    exact d₁.put
  obtain ⟨⟨r₂, s₂⟩, h₂, h⟩ := Except.bind_eq_ok.1 h
  have d₂ := dirlookup d₁.unique h₂
  rcases r₂ with _ | ⟨ip, off⟩
  · obtain ⟨rfl, rfl⟩ := Prod.mk.inj (Except.ok.inj h)
    exact (d₁.comp d₂ (by simp)).put
  have d₂ : Inodes s s₂ 0 ({dp} + ({ip} + 0)) := d₁.comp d₂ (by simp)
  obtain ⟨-, -, h⟩ := Except.bind_eq_ok.1 h
  extract_lets tail check at h
  -- whatever `isdirempty` says, both references are put
  have htail : ∀ b, tail b = .ok (r, s') → Inodes s s' 0 0 := by
    intro b h
    cases b <;> simp only [tail, Bool.false_eq_true, not_false_eq_true, not_true_eq_false, ↓reduceIte] at h
    · obtain ⟨rfl, rfl⟩ := Prod.mk.inj (Except.ok.inj h)
      have d₂' : Inodes s s₂ 0 ({ip} + ({dp} + 0)) := by rwa [add_left_comm]
      exact d₂'.put.put
    split at h
    · cases h
    rename_i d hd
    obtain ⟨rfl, rfl⟩ := Prod.mk.inj (Except.ok.inj h)
    refine Inodes.put (Inodes.setDinode ?_ _ _)
    refine Inodes.put (b := {ip} + 0) ?_
    split_ifs
    · exact (d₂.setDinode dp d).setDinode dp _
    · exact d₂.setDinode dp d
  split_ifs at h
  · simp at h
  simp only [check] at h
  split_ifs at h <;> obtain ⟨b, -, h⟩ := Except.bind_eq_ok.1 h <;> exact htail b h

end Inodes

/-! ### The counts -/

/-- The counts of the tables, `e` being the references to file-table entries and `c` those to
inodes that a call holds in its locals while it runs. -/
structure Counts (s : FsState) (e c : Multiset Nat) : Prop where
  procs : ∀ p, NPROC ≤ p → s.procs p = none
  free : ∀ f, (s.file f).ref = 0 → (s.file f).type = .FD_NONE
  unique : s.Unique
  files : ∀ f, (s.file f).ref = s.fdCount f + e.count f
  inodes : ∀ i, s.heldCount i = s.holderCount i + c.count i
  ends : ∀ w pg, s.endCount w pg = if (s.pipes pg).any (endOpen · w) then 1 else 0
  pipes : ∀ pg pi, s.pipes pg = some pi → pi.readopen ∨ pi.writeopen

namespace Counts

variable {a b e e' c c' : Multiset Nat}

theorem of_inodes (h : Counts s e (a + c)) (hi : Inodes s s' a b) : Counts s' e (b + c) := by
  have hfile : s'.file = s.file := by
    funext f
    simp only [file, hi.ftable]
  have hfd : s'.fdCount = s.fdCount := by
    funext f
    simp only [fdCount, hi.procs]
  have hhold : s'.holderCount = s.holderCount := by
    funext i
    simp only [holderCount, hfile, hi.ftable, hi.procs]
  have hend : s'.endCount = s.endCount := by
    funext w pg
    simp only [endCount, hfile, hi.ftable]
  refine ⟨fun p => hi.procs ▸ h.procs p, fun f => hfile ▸ h.free f, hi.unique, fun f => ?_, fun i => ?_,
    fun w pg => ?_, fun pg => hi.pipes ▸ h.pipes pg⟩
  · rw [hfile, hfd]
    exact h.files f
  · have e₁ := hi.held i
    have e₂ := h.inodes i
    rw [Multiset.count_add] at e₂
    rw [hhold, Multiset.count_add]
    omega
  · rw [hend, hi.pipes]
    exact h.ends w pg

theorem of_inodes' (h : Counts s e a) (hi : Inodes s s' a b) : Counts s' e b := by
  have h' : Counts s e (a + 0) := by rwa [add_zero]
  rw [← add_zero b]
  exact h'.of_inodes hi

theorem setProc (h : Counts s e c) (hp : p < NPROC)
    (he : ∀ f, e'.count f + fdsOf o f = e.count f + fdsOf (s.procs p) f)
    (hc : ∀ i, c'.count i + isCwd o i = c.count i + isCwd (s.procs p) i) : Counts (s.setProc p o) e' c' := by
  refine ⟨fun q hq => ?_, h.free, h.unique, fun f => ?_, fun i => ?_, h.ends, h.pipes⟩
  · rw [procs_setProc, if_neg (by omega)]
    exact h.procs q hq
  · have e₁ := fdCount_setProc (s := s) hp (o := o) f
    have e₂ := h.files f
    have e₃ := he f
    show (s.file f).ref = (s.setProc p o).fdCount f + e'.count f
    omega
  · have e₁ := holderCount_setProc (s := s) hp (o := o) i
    have e₂ := h.inodes i
    have e₃ := hc i
    show s.heldCount i = (s.setProc p o).holderCount i + c'.count i
    omega

theorem setFilePipes (h : Counts s e c) (hf : f < s.ftable.length) (hfree : x.ref = 0 → x.type = .FD_NONE)
    (hfile : x.ref + e.count f = (s.file f).ref + e'.count f) (he : ∀ g, g ≠ f → e'.count g = e.count g)
    (hopen : ∀ i, x.opens i + c'.count i = (s.file f).opens i + c.count i) {P : Nat → Option Pipe}
    (hend : ∀ w pg, (s.setFile f x).endCount w pg = if (P pg).any (endOpen · w) then 1 else 0)
    (hP : ∀ pg u, P pg = some u → u.readopen ∨ u.writeopen) :
    Counts { s.setFile f x with pipes := P } e' c' := by
  refine ⟨h.procs, fun g => ?_, h.unique, fun g => ?_, fun i => ?_, hend, hP⟩
  · by_cases hg : g = f
    · subst hg
      show ((s.setFile g x).file g).ref = 0 → ((s.setFile g x).file g).type = .FD_NONE
      rw [file_setFile_self hf]
      exact hfree
    · show ((s.setFile f x).file g).ref = 0 → ((s.setFile f x).file g).type = .FD_NONE
      rw [file_setFile_of_ne hg]
      exact h.free g
  · show ((s.setFile f x).file g).ref = s.fdCount g + e'.count g
    by_cases hg : g = f
    · subst hg
      have e₁ := h.files g
      rw [file_setFile_self hf]
      omega
    · rw [file_setFile_of_ne hg, he g hg]
      exact h.files g
  · have e₁ := holderCount_setFile (s := s) hf (x := x) i
    have e₂ := h.inodes i
    have e₃ := hopen i
    show s.heldCount i = (s.setFile f x).holderCount i + c'.count i
    omega

theorem setFile (h : Counts s e c) (hf : f < s.ftable.length) (hfree : x.ref = 0 → x.type = .FD_NONE)
    (hfile : x.ref + e.count f = (s.file f).ref + e'.count f) (he : ∀ g, g ≠ f → e'.count g = e.count g)
    (hopen : ∀ i, x.opens i + c'.count i = (s.file f).opens i + c.count i)
    (hend : ∀ w pg, x.isEnd w pg = (s.file f).isEnd w pg) : Counts (s.setFile f x) e' c' := by
  refine h.setFilePipes hf hfree hfile he hopen (fun w pg => ?_) h.pipes
  have e₁ := endCount_setFile (s := s) hf (x := x) w pg
  rw [hend] at e₁
  rw [← h.ends w pg]
  omega

theorem filealloc (h : Counts s e c) (ha : filealloc s = some (f, s')) : Counts s' ({f} + e) c := by
  obtain ⟨hf, hz, rfl⟩ := filealloc_spec ha
  have ht := h.free f hz
  refine h.setFile hf (fun h1 => absurd h1 one_ne_zero) ?_ (fun g hg => ?_) (fun i => ?_) (fun w pg => ?_)
  · simp only [hz, Multiset.count_add, Multiset.count_singleton_self]
    omega
  · rw [Multiset.count_add, Multiset.count_singleton, if_neg hg, zero_add]
  · rw [File.opens_of_ne (by simp [ht]), File.opens_of_ne (by simp [ht])]
  · rw [File.isEnd_of_ne (by simp [ht]), File.isEnd_of_ne (by simp [ht])]

theorem filedup (h : Counts s e c) (hd : filedup s f = .ok s') : Counts s' ({f} + e) c := by
  unfold Fs.filedup at hd
  split_ifs at hd with hr
  rw [← Except.ok.inj hd]
  have hpos : 0 < (s.file f).ref := by omega
  refine h.setFile (lt_of_ref_pos hpos) (fun h1 => absurd h1 (Nat.succ_ne_zero _)) ?_ (fun g hg => ?_)
    (fun i => ?_) (fun w pg => ?_)
  · simp only [Multiset.count_add, Multiset.count_singleton_self]
    omega
  · rw [Multiset.count_add, Multiset.count_singleton, if_neg hg, zero_add]
  · rw [File.opens_setRef hpos (Nat.succ_pos _)]
  · rw [File.isEnd_setRef hpos (Nat.succ_pos _)]

theorem fdalloc (h : Counts s ({f} + e) c) (ha : fdalloc s p f = some (g, s')) : Counts s' e c := by
  obtain ⟨pf, hpf, hg, rfl⟩ := fdalloc_spec ha
  have hp : p < NPROC := by
    by_contra hp
    rw [h.procs p (Nat.le_of_not_lt hp)] at hpf
    cases hpf
  refine h.setProc hp (fun f' => ?_) (fun i => ?_)
  · simp only [fdsOf, hpf, Option.elim, count_set_some hg, Multiset.count_add, Multiset.count_singleton]
    split_ifs <;> omega
  · simp only [isCwd, hpf, Option.map_some]

theorem end_open (h : Counts s e c) (hr : 0 < (s.file f).ref) (ht : (s.file f).type = .FD_PIPE) :
    ∃ u, s.pipes (s.file f).pipe = some u ∧ endOpen u (s.file f).writable = true := by
  have hpos : 0 < s.endCount (s.file f).writable (s.file f).pipe :=
    Count.pos_of_term (lt_of_ref_pos hr) (by simp [File.isEnd, hr, ht])
  rw [h.ends] at hpos
  split_ifs at hpos with hany
  · exact (Option.any_eq_true _ _).1 hany
  · exact absurd hpos (Nat.lt_irrefl 0)

/-- The last reference to a pipe end closes that end, and frees the pipe once both ends are. -/
theorem closeEnd (h : Counts s ({f} + e) c) (hr : (s.file f).ref = 1) (ht : (s.file f).type = .FD_PIPE) :
    Counts (pipeclose (s.setFile f { s.file f with ref := 0, type := .FD_NONE }) (s.file f).pipe
      (s.file f).writable) e c := by
  have hf := lt_of_ref_pos (s := s) (f := f) (by omega)
  obtain ⟨u, hu, hopen⟩ := h.end_open (by omega) ht
  have hu' : (s.setFile f { s.file f with ref := 0, type := .FD_NONE }).pipes (s.file f).pipe = some u := hu
  rw [pipeclose_eq]
  refine h.setFilePipes hf (fun _ => rfl) ?_ (fun g hg => ?_) (fun i => ?_) (fun w pg => ?_) (fun pg v hv => ?_)
  · simp only [hr, Multiset.count_add, Multiset.count_singleton_self]
    omega
  · rw [Multiset.count_add, Multiset.count_singleton, if_neg hg, zero_add]
  · rw [File.opens_of_ne (by simp), File.opens_of_ne (by simp [ht])]
  · have e₁ := endCount_setFile (s := s) hf (x := { s.file f with ref := 0, type := .FD_NONE }) w pg
    have hx : ({ s.file f with ref := 0, type := .FD_NONE } : File).isEnd w pg = 0 := File.isEnd_of_ne (by simp) w pg
    rw [hx] at e₁
    have e₂ := h.ends w pg
    by_cases hpg : pg = (s.file f).pipe
    · -- the pipe of the entry: its end `w` was counted once, by the entry
      subst hpg
      rw [pipes_pipeclose_self hu', any_pipeclose]
      rw [hu, Option.any_some] at e₂
      by_cases hw : w = (s.file f).writable
      · subst hw
        simp [File.isEnd, hr, ht, hopen] at e₁ e₂ ⊢
        omega
      · have hne : (s.file f).isEnd w (s.file f).pipe = 0 := by simp [File.isEnd, Ne.symm hw]
        rw [if_neg hw]
        omega
    · have hne : (s.file f).isEnd w pg = 0 := by simp [File.isEnd, Ne.symm hpg]
      rw [pipes_pipeclose_of_ne hpg, setFile_pipes, ← e₂]
      omega
  · by_cases hpg : pg = (s.file f).pipe
    · subst hpg
      rw [pipes_pipeclose_self hu'] at hv
      split_ifs at hv with hb
      cases hv
      simp only [not_and_or, Bool.not_eq_false] at hb
      exact hb
    · rw [pipes_pipeclose_of_ne hpg] at hv
      exact h.pipes pg v hv
/-- `fileclose` gives up a reference the call held: the entry's last reference closes its pipe end
or puts its inode. -/
theorem fileclose (h : Counts s ({f} + e) c) (hc : fileclose s f = .ok s') : Counts s' e c := by
  unfold Fs.fileclose at hc
  dsimp only at hc
  split_ifs at hc with h1 h2 h3 h4
  · -- references are left
    rw [← Except.ok.inj hc]
    have hpos : 0 < (s.file f).ref := by omega
    refine h.setFile (lt_of_ref_pos hpos) (fun h0 => absurd (show (s.file f).ref - 1 = 0 from h0) (by omega)) ?_
      (fun g hg => ?_) (fun i => ?_) (fun w pg => ?_)
    · simp only [Multiset.count_add, Multiset.count_singleton_self]
      omega
    · rw [Multiset.count_add, Multiset.count_singleton, if_neg hg, zero_add]
    · rw [File.opens_setRef hpos (by omega)]
    · rw [File.isEnd_setRef hpos (by omega)]
  · rw [← Except.ok.inj hc]
    exact h.closeEnd (by omega) h3
  all_goals
    rw [← Except.ok.inj hc]
    have hf := lt_of_ref_pos (s := s) (f := f) (by omega)
    have hfile : (0 : Nat) + ({f} + e).count f = (s.file f).ref + e.count f := by
      simp only [Multiset.count_add, Multiset.count_singleton_self]
      omega
    have he : ∀ g, g ≠ f → e.count g = ({f} + e).count g := fun g hg => by
      rw [Multiset.count_add, Multiset.count_singleton, if_neg hg, zero_add]
    have hend : ∀ w pg, ({ s.file f with ref := 0, type := .FD_NONE } : File).isEnd w pg = (s.file f).isEnd w pg :=
      fun w pg => by rw [File.isEnd_of_ne (by simp), File.isEnd_of_ne h3]
  · -- the last reference to an inode: the entry's reference goes to the call, which puts it
    have ht : Counts (s.setFile f { s.file f with ref := 0, type := .FD_NONE }) e ({(s.file f).ip} + c) :=
      h.setFile hf (fun _ => rfl) hfile he (fun i => by
        rw [File.opens_of_ne (by simp), Multiset.count_add, Multiset.count_singleton]
        by_cases hi : i = (s.file f).ip
        · simp [File.opens, h4, hi]
          omega
        · simp [File.opens, h4, hi, Ne.symm hi]) hend
    have hpos : 0 < (s.setFile f { s.file f with ref := 0, type := .FD_NONE }).heldCount (s.file f).ip := by
      rw [ht.inodes, Multiset.count_add, Multiset.count_singleton_self]
      omega
    have := ht.of_inodes (Inodes.iput ht.unique hpos)
    rwa [zero_add] at this
  · exact h.setFile hf (fun _ => rfl) hfile he (fun i => by rw [File.opens_of_ne (by simp), File.opens_of_ne h4])
      hend

/-- `exit`'s loop closes every file of the list, giving up the references the call held for them. -/
theorem closeAll : ∀ (l : List (Option Nat)) {s s' : FsState} {e c : Multiset Nat},
    Counts s (filesOf l + e) c → closeAll l s = .ok s' → Counts s' e c
  | [], _, _, _, _, h, hc => by
    rw [← Except.ok.inj hc]
    simpa using h
  | none :: l, _, _, _, _, h, hc => closeAll l (by simpa using h) hc
  | some f :: l, _, _, _, _, h, hc => by
    obtain ⟨s₁, h₁, hc⟩ := Except.bind_eq_ok.1 hc
    rw [filesOf_some, add_assoc] at h
    exact closeAll l (h.fileclose h₁) hc

/-- `fork`'s loop takes a reference for every file of the list. -/
theorem dupAll : ∀ (l : List (Option Nat)) {s s' : FsState} {e c : Multiset Nat},
    Counts s e c → dupAll l s = .ok s' → Counts s' (filesOf l + e) c
  | [], _, _, _, _, h, hc => by
    rw [← Except.ok.inj hc]
    simpa using h
  | none :: l, _, _, _, _, h, hc => by simpa using dupAll l h hc
  | some f :: l, _, _, _, _, h, hc => by
    obtain ⟨s₁, h₁, hc⟩ := Except.bind_eq_ok.1 hc
    have h' := dupAll l (h.filedup h₁) hc
    rwa [filesOf_some, add_assoc, add_left_comm]

theorem lt_of_procs (h : Counts s e c) {pf : PFiles} (hp : s.procs p = some pf) : p < NPROC := by
  by_contra hn
  rw [h.procs p (Nat.le_of_not_lt hn)] at hp
  cases hp

theorem held_pos (h : Counts s e c) (hi : i ∈ c) : 0 < s.heldCount i := by
  rw [h.inodes]
  exact Nat.lt_of_lt_of_le (Multiset.count_pos.2 hi) (Nat.le_add_left _ _)

theorem cwd_held (h : Counts s e c) {pf : PFiles} (hp : s.procs p = some pf) : 0 < s.heldCount (cwdOf s p) := by
  have hcwd : 0 < ∑ q ∈ Finset.range NPROC, isCwd (s.procs q) pf.cwd :=
    Count.pos_of_term (h.lt_of_procs hp) (by simp [isCwd, hp])
  rw [cwdOf, hp, Option.elim, h.inodes, holderCount]
  omega

theorem filealloc_file (h : Counts s e c) (ha : Fs.filealloc s = some (f, s')) :
    f < s'.ftable.length ∧ (s'.file f).ref = 1 ∧ (s'.file f).type = .FD_NONE := by
  obtain ⟨hf, hz, rfl⟩ := filealloc_spec ha
  rw [length_setFile, file_setFile_self hf]
  exact ⟨hf, rfl, h.free f hz⟩

/-! ### The calls keep the counts exact -/

variable {pf : PFiles}

theorem sys_open {path : List UInt8} {omode : Nat} {r : Int} (h : Counts s 0 0) (hp : s.procs p = some pf)
    (ho : sys_open s p path omode = .ok (r, s')) : Counts s' 0 0 := by
  unfold Fs.sys_open at ho
  extract_lets tail at ho
  -- what follows the lookup, given the inode it returns with the reference it got
  have htail : ∀ r₁ s₁, Inodes s s₁ 0 (ret r₁) → tail (r₁, s₁) = .ok (r, s') → Counts s' 0 0 := by
    intro r₁ s₁ d ho
    have h₁c : Counts s₁ 0 (ret r₁) := h.of_inodes' d
    rcases r₁ with _ | ip <;> simp only [tail] at ho
    · obtain ⟨rfl, rfl⟩ := Prod.mk.inj (Except.ok.inj ho)
      exact h₁c
    have hip : 0 < s₁.heldCount ip := by
      rw [h₁c.inodes]
      simp
    split at ho
    · -- no free entry: the inode is put
      obtain ⟨rfl, rfl⟩ := Prod.mk.inj (Except.ok.inj ho)
      exact h₁c.of_inodes' (Inodes.iput h₁c.unique hip)
    rename_i f s₂ ha
    have h₂ := h₁c.filealloc ha
    obtain ⟨hf, hr, ht⟩ := h₁c.filealloc_file ha
    split at ho
    · -- no free descriptor: the entry is closed and the inode put
      obtain ⟨s₃, h₃, ho⟩ := Except.bind_eq_ok.1 ho
      obtain ⟨rfl, rfl⟩ := Prod.mk.inj (Except.ok.inj ho)
      have h₃c := (by simpa using h₂ : Counts s₂ ({f} + 0) {ip}).fileclose h₃
      have hip₃ : 0 < s₃.heldCount ip := by
        rw [h₃c.inodes]
        simp
      exact h₃c.of_inodes' (Inodes.iput h₃c.unique hip₃)
    rename_i fd s₃ hd
    obtain ⟨rfl, rfl⟩ := Prod.mk.inj (Except.ok.inj ho)
    obtain ⟨pf₂, -, -, rfl⟩ := fdalloc_spec hd
    have h₃ := (by simpa using h₂ : Counts s₂ ({f} + 0) {ip}).fdalloc hd
    -- the entry now opens the inode, and holds the reference the lookup got
    refine h₃.setFile hf (fun h0 => absurd (hr.symm.trans h0) one_ne_zero) (by simp [hr]) (fun _ _ => rfl)
      (fun i => ?_) (fun w pg => ?_)
    · show _ + _ = (s₂.file f).opens i + _
      rw [File.opens_of_ne (x := s₂.file f) (by simp [ht])]
      by_cases hi : ip = i
      · simp [File.opens, hi, hr]
      · simp [File.opens, hi, Ne.symm hi]
    · show _ = (s₂.file f).isEnd w pg
      rw [File.isEnd_of_ne (by simp), File.isEnd_of_ne (by simp [ht])]
  -- the lookup: `create`, or `namei` and the check of the mode
  split_ifs at ho
  · obtain ⟨⟨r₁, s₁⟩, h₁, ho⟩ := Except.bind_eq_ok.1 ho
    exact htail r₁ s₁ (Inodes.create h.unique (h.cwd_held hp) h₁) ho
  obtain ⟨⟨r₂, s₂⟩, h₂, ho⟩ := Except.bind_eq_ok.1 ho
  have d₂ := Inodes.namei h.unique (h.cwd_held hp) h₂
  rcases r₂ with _ | ip
  · exact htail none s₂ d₂ ho
  obtain ⟨-, -, ho⟩ := Except.bind_eq_ok.1 ho
  split_ifs at ho
  · exact htail none _ (d₂.comp (Inodes.iput d₂.unique (d₂.pos (by simp))) (by simp)) ho
  · exact htail (some ip) s₂ d₂ ho
theorem sys_chdir {path : List UInt8} {r : Int} (h : Counts s 0 0) (hp : s.procs p = some pf)
    (hc : sys_chdir s p path = .ok (r, s')) : Counts s' 0 0 := by
  unfold Fs.sys_chdir at hc
  obtain ⟨⟨r₁, s₁⟩, h₁, hc⟩ := Except.bind_eq_ok.1 hc
  have d := Inodes.namei h.unique (h.cwd_held hp) h₁
  rcases r₁ with _ | ip
  · obtain ⟨rfl, rfl⟩ := Prod.mk.inj (Except.ok.inj hc)
    exact h.of_inodes' d
  have h₁c : Counts s₁ 0 {ip} := h.of_inodes' d
  have hp₁ : s₁.procs p = some pf := d.procs ▸ hp
  obtain ⟨-, -, hc⟩ := Except.bind_eq_ok.1 hc
  split_ifs at hc
  · obtain ⟨rfl, rfl⟩ := Prod.mk.inj (Except.ok.inj hc)
    exact h₁c.of_inodes' (Inodes.iput h₁c.unique (h₁c.held_pos (by simp)))
  simp only [iput_procs, hp₁, cwdOf, Option.elim] at hc
  obtain ⟨rfl, rfl⟩ := Prod.mk.inj (Except.ok.inj hc)
  -- the process takes the reference the lookup got, and hands its old directory's to the call
  rw [← iput_setProc]
  have h₂ : Counts (s₁.setProc p (some { pf with cwd := ip })) 0 {pf.cwd} :=
    h₁c.setProc (h₁c.lt_of_procs hp₁) (fun g => by simp [fdsOf, hp₁]) (fun i => by
      simp only [isCwd, hp₁, Option.map_some, Option.some.injEq, Multiset.count_singleton]
      split_ifs <;> omega)
  exact h₂.of_inodes' (Inodes.iput h₂.unique (h₂.held_pos (by simp)))

theorem sys_close {fd : Nat} {r : Int} (h : Counts s 0 0) (hp : s.procs p = some pf)
    (hc : sys_close s p fd = .ok (r, s')) : Counts s' 0 0 := by
  unfold Fs.sys_close at hc
  simp only [hp] at hc
  split at hc
  · rename_i f hf
    obtain ⟨s₁, h₁, hc⟩ := Except.bind_eq_ok.1 hc
    obtain ⟨rfl, rfl⟩ := Prod.mk.inj (Except.ok.inj hc)
    -- the descriptor's reference goes to the call, which closes it
    have h₀ : Counts (s.setProc p (some { pf with ofile := pf.ofile.set fd none })) ({f} + 0) 0 :=
      h.setProc (h.lt_of_procs hp) (fun g => by
        have := count_set_none hf g
        simp only [fdsOf, hp, Option.elim, Multiset.count_add, Multiset.count_singleton, Multiset.count_zero]
        split_ifs at this ⊢ <;> omega) (fun i => by simp [isCwd, hp])
    exact h₀.fileclose h₁
  · obtain ⟨rfl, rfl⟩ := Prod.mk.inj (Except.ok.inj hc)
    exact h

theorem sys_dup {fd : Nat} {r : Int} (h : Counts s 0 0) (hp : s.procs p = some pf)
    (hc : sys_dup s p fd = .ok (r, s')) : Counts s' 0 0 := by
  unfold Fs.sys_dup at hc
  simp only [hp] at hc
  split at hc
  · rename_i f hf
    split at hc
    · rename_i fd' s₁ ha
      obtain ⟨s₂, h₂, hc⟩ := Except.bind_eq_ok.1 hc
      obtain ⟨rfl, rfl⟩ := Prod.mk.inj (Except.ok.inj hc)
      obtain ⟨pf₁, hpf₁, hg, rfl⟩ := fdalloc_spec ha
      rw [hp, Option.some.injEq] at hpf₁
      subst hpf₁
      -- `filedup` does not read the descriptors, so it is taken first
      rw [filedup_setProc] at h₂
      cases ht : Fs.filedup s f with
      | error e => rw [ht] at h₂; cases h₂
      | ok t =>
        rw [ht] at h₂
        obtain rfl := (Except.ok.inj h₂).symm
        have htc : Counts t ({f} + 0) 0 := (h.filedup ht)
        have hpt : t.procs p = some pf := by rw [filedup_procs ht, hp]
        refine htc.setProc (htc.lt_of_procs hpt) (fun g => ?_) (fun i => by simp [isCwd, hpt])
        simp only [fdsOf, hpt, Option.elim, count_set_some hg, Multiset.count_add, Multiset.count_singleton,
          Multiset.count_zero]
        split_ifs <;> omega
    · obtain ⟨rfl, rfl⟩ := Prod.mk.inj (Except.ok.inj hc)
      exact h
  · obtain ⟨rfl, rfl⟩ := Prod.mk.inj (Except.ok.inj hc)
    exact h

theorem fork {np : Nat} (h : Counts s 0 0) (hp : s.procs p = some pf) (hnp : s.procs np = none) (hlt : np < NPROC)
    (hf : fork s p np = .ok s') : Counts s' 0 0 := by
  unfold Fs.fork at hf
  simp only [hp] at hf
  obtain ⟨s₁, h₁, hf⟩ := Except.bind_eq_ok.1 hf
  rw [← Except.ok.inj hf]
  have h₁c := h.dupAll pf.ofile h₁
  have hp₁ := dupAll_procs _ h₁
  have hcwd : 0 < s₁.heldCount pf.cwd := by
    have := h₁c.cwd_held (hp₁ ▸ hp)
    rwa [cwdOf, hp₁, hp, Option.elim] at this
  -- the child takes the references `dupAll` and `idup` got
  have h₂ : Counts (idup s₁ pf.cwd) (filesOf pf.ofile + 0) {pf.cwd} := h₁c.of_inodes' (Inodes.idup h₁c.unique hcwd)
  have hnp₂ : (idup s₁ pf.cwd).procs np = none := by rw [idup, bumpRef_procs, hp₁, hnp]
  refine h₂.setProc hlt (fun g => ?_) (fun i => ?_)
  · simp [fdsOf, hnp₂, count_filesOf]
  · simp [isCwd, hnp₂, Multiset.count_singleton, eq_comm]

theorem exit (h : Counts s 0 0) (he : exit s p = .ok s') : Counts s' 0 0 := by
  unfold Fs.exit at he
  split_ifs at he
  split at he
  · rename_i pf hp
    obtain ⟨s₁, h₁, he⟩ := Except.bind_eq_ok.1 he
    rw [← Except.ok.inj he, ← iput_setProc]
    -- the slot is emptied first: its files and its directory go to the call
    have h₀ : Counts (s.setProc p none) (filesOf pf.ofile + 0) {pf.cwd} :=
      h.setProc (h.lt_of_procs hp) (fun g => by simp [fdsOf, hp, count_filesOf])
        (fun i => by simp [isCwd, hp, Multiset.count_singleton, eq_comm])
    have h₁' : Fs.closeAll pf.ofile (s.setProc p none) = .ok (s₁.setProc p none) := by
      rw [closeAll_setProc, h₁]
      rfl
    have h₂ := h₀.closeAll pf.ofile h₁'
    exact h₂.of_inodes' (Inodes.iput h₂.unique (h₂.held_pos (by simp)))
  · rw [← Except.ok.inj he]
    exact h

/-- `pipealloc`'s new pipe: both ends open, each the one open file of its end. -/
theorem openPipe {f0 f1 : Nat} (h : Counts s e c) (hpg : s.pipes pg = none) (hf0 : f0 < s.ftable.length)
    (hf1 : f1 < s.ftable.length) (hne : f1 ≠ f0) (hr0 : 0 < (s.file f0).ref) (ht0 : (s.file f0).type = .FD_NONE)
    (hr1 : 0 < (s.file f1).ref) (ht1 : (s.file f1).type = .FD_NONE) :
    Counts (((s.setPipe pg (some (Pipe.alloc fun _ => 0))).setFile f0
        { s.file f0 with type := .FD_PIPE, readable := true, writable := false, pipe := pg }).setFile f1
        { ((s.setPipe pg (some (Pipe.alloc fun _ => 0))).setFile f0
            { s.file f0 with type := .FD_PIPE, readable := true, writable := false, pipe := pg }).file f1 with
          type := .FD_PIPE, readable := false, writable := true, pipe := pg }) e c := by
  rw [file_setFile_of_ne hne]
  set x0 : File := { s.file f0 with type := .FD_PIPE, readable := true, writable := false, pipe := pg }
  set x1 : File := { s.file f1 with type := .FD_PIPE, readable := false, writable := true, pipe := pg }
  -- first the read end, its pipe with the write end not yet open
  set u₁ : FsState := { s.setFile f0 x0 with pipes := (s.setPipe pg (some ((Pipe.alloc fun _ => 0).close true))).pipes }
  have c₁ : Counts u₁ e c := by
    refine h.setFilePipes hf0 ?_ (by simp [x0]) (fun _ _ => rfl) (fun i => ?_) (fun w q => ?_) (fun q u hu => ?_)
    · exact fun h0 => absurd h0 (Nat.pos_iff_ne_zero.1 hr0)
    · rw [File.opens_of_ne (by simp [x0]), File.opens_of_ne (by simp [ht0])]
    · have e₁ := endCount_setFile (s := s) hf0 (x := x0) w q
      rw [File.isEnd_of_ne (x := s.file f0) (by simp [ht0])] at e₁
      have e₂ := h.ends w q
      rw [pipes_setPipe]
      by_cases hq : q = pg
      · subst hq
        rw [hpg, Option.any_none] at e₂
        rw [if_pos rfl, Option.any_some, endOpen_close]
        cases w <;> simp [x0, File.isEnd, hr0, endOpen, Pipe.alloc] at e₁ e₂ ⊢ <;> omega
      · have hx : x0.isEnd w q = 0 := by simp [x0, File.isEnd, Ne.symm hq]
        rw [if_neg hq, ← e₂]
        omega
    · rw [pipes_setPipe] at hu
      split_ifs at hu
      · cases hu
        exact Or.inl rfl
      · exact h.pipes q u hu
  -- then the write end, and the pipe with both ends open
  have hfu : u₁.file f1 = s.file f1 := file_setFile_of_ne hne
  have hlu : f1 < u₁.ftable.length := by simpa [u₁] using hf1
  refine c₁.setFilePipes (x := x1) hlu ?_ ?_ (fun _ _ => rfl) (fun i => ?_) (fun w q => ?_) (fun q u hu => ?_)
  · exact fun h0 => absurd h0 (Nat.pos_iff_ne_zero.1 hr1)
  · rw [hfu]
  · rw [hfu, File.opens_of_ne (by simp [x1]), File.opens_of_ne (by simp [ht1])]
  · have e₁ := endCount_setFile (s := u₁) hlu (x := x1) w q
    rw [hfu, File.isEnd_of_ne (x := s.file f1) (by simp [ht1])] at e₁
    have e₂ := c₁.ends w q
    rw [pipes_setPipe] at e₂
    rw [setFile_pipes, pipes_setPipe]
    by_cases hq : q = pg
    · subst hq
      rw [if_pos rfl, Option.any_some, endOpen_close] at e₂
      rw [if_pos rfl, Option.any_some]
      cases w <;> simp [x1, File.isEnd, hr1, endOpen, Pipe.alloc] at e₁ e₂ ⊢ <;> omega
    · have hx : x1.isEnd w q = 0 := by simp [x1, File.isEnd, Ne.symm hq]
      rw [if_neg hq] at e₂ ⊢
      omega
  · rw [setFile_pipes, pipes_setPipe] at hu
    split_ifs at hu
    · cases hu
      exact Or.inl rfl
    · exact h.pipes q u hu
theorem pipealloc {r : Option (Nat × Nat)} (h : Counts s 0 0) (hpg : pg = 0 ∨ s.pipes pg = none)
    (ha : pipealloc s pg = .ok (r, s')) : Counts s' (r.elim 0 fun x => {x.1} + {x.2}) 0 := by
  unfold Fs.pipealloc at ha
  split at ha
  · obtain ⟨rfl, rfl⟩ := Prod.mk.inj (Except.ok.inj ha)
    exact h
  rename_i f0 s₁ ha₁
  have h₁ := h.filealloc ha₁
  obtain ⟨hf0, hr0, ht0⟩ := h.filealloc_file ha₁
  split at ha
  · obtain ⟨s₂, h₂, ha⟩ := Except.bind_eq_ok.1 ha
    obtain ⟨rfl, rfl⟩ := Prod.mk.inj (Except.ok.inj ha)
    exact h₁.fileclose h₂
  rename_i f1 s₂ ha₂
  have h₂ := h₁.filealloc ha₂
  obtain ⟨hf1, hr1, ht1⟩ := h₁.filealloc_file ha₂
  obtain ⟨-, hz1, hs₂⟩ := filealloc_spec ha₂
  have hne : f1 ≠ f0 := fun e => by rw [e, hr0] at hz1; cases hz1
  split_ifs at ha with hz
  · -- no page for the pipe: both entries are closed
    obtain ⟨s₃, h₃, ha⟩ := Except.bind_eq_ok.1 ha
    obtain ⟨s₄, h₄, ha⟩ := Except.bind_eq_ok.1 ha
    obtain ⟨rfl, rfl⟩ := Prod.mk.inj (Except.ok.inj ha)
    have h₂' : Counts s₂ ({f0} + ({f1} + 0)) 0 := by rwa [add_left_comm]
    exact (h₂'.fileclose h₃).fileclose (by simpa using h₄)
  · obtain ⟨rfl, rfl⟩ := Prod.mk.inj (Except.ok.inj ha)
    obtain ⟨-, -, hs₁⟩ := filealloc_spec ha₁
    have hpg' : s₂.pipes pg = none := by
      rw [hs₂, hs₁]
      exact hpg.resolve_left hz
    have hf0₂ : s₂.file f0 = s₁.file f0 := by
      rw [hs₂]
      exact file_setFile_of_ne (Ne.symm hne)
    show Counts _ ({f0} + {f1}) 0
    rw [show ({f0} + {f1} : Multiset Nat) = {f1} + ({f0} + 0) by rw [add_zero, add_comm]]
    exact h₂.openPipe hpg' (by rw [hs₂, length_setFile]; exact hf0) hf1 hne (by rw [hf0₂]; omega) (hf0₂ ▸ ht0)
      (by omega) ht1

theorem sys_pipe {r : Int} (h : Counts s 0 0) (hpg : pg = 0 ∨ s.pipes pg = none)
    (hc : sys_pipe s p pg = .ok (r, s')) : Counts s' 0 0 := by
  unfold Fs.sys_pipe at hc
  obtain ⟨⟨r₁, s₁⟩, h₁, hc⟩ := Except.bind_eq_ok.1 hc
  rcases r₁ with _ | ⟨rf, wf⟩
  · obtain ⟨rfl, rfl⟩ := Prod.mk.inj (Except.ok.inj hc)
    exact h.pipealloc hpg h₁
  have h₁c : Counts s₁ ({rf} + ({wf} + 0)) 0 := by simpa using h.pipealloc hpg h₁
  dsimp only at hc
  split at hc
  · -- no descriptor: both ends are closed
    obtain ⟨s₂, h₂, hc⟩ := Except.bind_eq_ok.1 hc
    obtain ⟨s₃, h₃, hc⟩ := Except.bind_eq_ok.1 hc
    obtain ⟨rfl, rfl⟩ := Prod.mk.inj (Except.ok.inj hc)
    exact (h₁c.fileclose h₂).fileclose h₃
  rename_i fd0 s₂ hd0
  have h₂ := h₁c.fdalloc hd0
  split at hc
  · obtain ⟨rfl, rfl⟩ := Prod.mk.inj (Except.ok.inj hc)
    exact h₂.fdalloc (by assumption)
  -- no second descriptor: the first is cleared, and both ends are closed
  obtain ⟨s₃, h₃, hc⟩ := Except.bind_eq_ok.1 hc
  obtain ⟨s₄, h₄, hc⟩ := Except.bind_eq_ok.1 hc
  obtain ⟨rfl, rfl⟩ := Prod.mk.inj (Except.ok.inj hc)
  obtain ⟨pf₂, hpf₂, hg, rfl⟩ := fdalloc_spec hd0
  simp only [procs_setProc_self] at h₃
  have hget : (pf₂.ofile.set fd0 (some rf)).getD fd0 none = some rf := by
    rw [List.getD_eq_getElem?_getD, List.getElem?_set_self (List.getElem?_eq_some_iff.1 hg).1]
    rfl
  have h₃c : Counts _ ({rf} + ({wf} + 0)) 0 :=
    h₂.setProc (o := some { pf₂ with ofile := (pf₂.ofile.set fd0 (some rf)).set fd0 none }) (h₂.lt_of_procs
      procs_setProc_self) (fun g => by
        have := count_set_none hget g
        simp only [fdsOf, procs_setProc_self, Option.elim, Multiset.count_add, Multiset.count_singleton,
          Multiset.count_zero]
        split_ifs at this ⊢ <;> omega) (fun i => by simp [isCwd, procs_setProc_self])
  exact (h₃c.fileclose h₃).fileclose h₄

theorem step {c : Call} (h : Counts s 0 0) (hn : Fs.next s p c = some s') : Counts s' 0 0 := by
  unfold Fs.next at hn
  split_ifs at hn with hnone
  obtain ⟨pf, hp⟩ : ∃ pf, s.procs p = some pf := by
    cases hq : s.procs p with
    | none => rw [hq] at hnone; exact absurd rfl hnone
    | some pf => exact ⟨pf, rfl⟩
  have hcwd := h.cwd_held hp
  cases c with
  | «open» path omode =>
    obtain ⟨r, hr⟩ := Except.exists_of_toOption_map hn
    exact h.sys_open hp hr
  | mkdir path =>
    obtain ⟨r, hr⟩ := Except.exists_of_toOption_map hn
    exact h.of_inodes' (Inodes.sysCreate h.unique hcwd hr)
  | mknod path major minor =>
    obtain ⟨r, hr⟩ := Except.exists_of_toOption_map hn
    exact h.of_inodes' (Inodes.sysCreate h.unique hcwd hr)
  | link old new =>
    obtain ⟨r, hr⟩ := Except.exists_of_toOption_map hn
    exact h.of_inodes' (Inodes.sys_link h.unique hcwd hr)
  | unlink path =>
    obtain ⟨r, hr⟩ := Except.exists_of_toOption_map hn
    exact h.of_inodes' (Inodes.sys_unlink h.unique hcwd hr)
  | chdir path =>
    obtain ⟨r, hr⟩ := Except.exists_of_toOption_map hn
    exact h.sys_chdir hp hr
  | close fd =>
    obtain ⟨r, hr⟩ := Except.exists_of_toOption_map hn
    exact h.sys_close hp hr
  | fork np =>
    dsimp only at hn
    split_ifs at hn with hnp
    exact h.fork hp (Option.isNone_iff_eq_none.1 hnp.1) hnp.2 (Except.eq_ok_of_toOption hn)
  | exit => exact h.exit (Except.eq_ok_of_toOption hn)
  | dup fd =>
    obtain ⟨r, hr⟩ := Except.exists_of_toOption_map hn
    exact h.sys_dup hp hr
  | pipe pg =>
    dsimp only at hn
    split_ifs at hn with hpg
    obtain ⟨r, hr⟩ := Except.exists_of_toOption_map hn
    exact h.sys_pipe hpg hr
  | exec path => exact h.of_inodes' (Inodes.exec h.unique hcwd (Except.eq_ok_of_toOption hn))
  | wait =>
    cases hn
    exact h

/-- At boot the one reference is the root's, `init`'s working directory. -/
theorem boot : Counts Fs.boot 0 0 := by
  have hfile : ∀ f, Fs.boot.file f = ⟨.FD_NONE, 0, false, false, 0, 0, 0⟩ := by
    intro f
    simp only [file, Fs.boot, List.getD_eq_getElem?_getD, List.getElem?_replicate]
    split_ifs <;> rfl
  have hslot : ∀ k, k ≠ 0 → (Fs.boot.slot k).ref = 0 := by
    intro k hk
    obtain ⟨k, rfl⟩ := Nat.exists_eq_succ_of_ne_zero hk
    simp only [slot, Fs.boot, List.getD_eq_getElem?_getD, List.getElem?_cons_succ, List.getElem?_replicate]
    split_ifs <;> rfl
  refine ⟨fun p hp => if_neg (by unfold NPROC at hp; omega), fun f _ => by rw [hfile], fun j k _ _ hj hk _ => ?_,
    fun f => ?_, fun i => ?_, fun w pg => ?_, fun pg u hu => by cases hu⟩
  · have hj0 : j = 0 := by_contra fun hne => absurd (hslot j hne) (Nat.pos_iff_ne_zero.1 hj)
    have hk0 : k = 0 := by_contra fun hne => absurd (hslot k hne) (Nat.pos_iff_ne_zero.1 hk)
    rw [hj0, hk0]
  · -- no process has a descriptor
    rw [hfile, Multiset.count_zero, add_zero]
    refine (Finset.sum_eq_zero fun p _ => ?_).symm
    simp only [Fs.boot]
    split_ifs <;> simp [fdsOf, List.count_replicate]
  · -- the root: the cache's one reference, and `init`'s directory
    have hheld : Fs.boot.heldCount i = if ROOTINO = i then 1 else 0 := by
      rw [heldCount, Finset.sum_eq_single 0 (fun k _ hk => ?_) (fun hn => absurd (by simp [Fs.boot, NINODE]) hn)]
      · rfl
      · unfold Slot.refsTo
        rw [hslot k hk, ite_self]
    have hcwd : (∑ q ∈ Finset.range NPROC, isCwd (Fs.boot.procs q) i) = if ROOTINO = i then 1 else 0 := by
      rw [Finset.sum_eq_single 0 (fun q _ hq => ?_) (fun hn => absurd (by simp [NPROC]) hn)]
      · simp [isCwd, Fs.boot]
      · simp [isCwd, Fs.boot, hq]
    rw [hheld, holderCount, hcwd, Finset.sum_eq_zero fun f _ => by rw [hfile]; rfl]
    simp
  · rw [endCount, Finset.sum_eq_zero fun f _ => by rw [hfile]; rfl]
    rfl

end Counts

/-! ### The system -/

namespace FsState

/-- One call, by some process. -/
def Step (s s' : FsState) : Prop := ∃ p c, next s p c = some s'

/-- The states reached from boot by the calls of any processes. -/
def Reachable : FsState → Prop := Machine.Reachable (· = boot) Step

theorem Reachable.counts {s : FsState} (h : s.Reachable) : Counts s 0 0 :=
  Machine.Reachable.rec_inv (fun s => Counts s 0 0) (fun s (e : s = boot) => e ▸ Counts.boot)
    (fun _ _ hs ⟨_, _, hn⟩ => hs.step hn) h

end FsState

theorem Counts.not_mem_of_ref (h : Counts s 0 0) (hf : (s.file f).ref = 0) (hp : s.procs p = some pf) :
    some f ∉ pf.ofile := by
  have hlt := h.lt_of_procs hp
  have hsum : s.fdCount f = 0 := by
    have := h.files f
    rwa [hf, Multiset.count_zero, add_zero, eq_comm] at this
  have hp0 := Finset.sum_eq_zero_iff.1 hsum p (Finset.mem_range.2 hlt)
  simp only [fdsOf, hp, Option.elim_some, List.count_eq_zero] at hp0
  exact hp0

/-- Between calls the counts are exact: `f->ref` is the number of descriptors of `f` (and there are
descriptors only in the `NPROC` process slots), an entry with no reference is in no descriptor table,
`ip->ref` of each inode is its open files plus the processes whose directory it is, the `w` end of a
pipe is one open file while that end is open and none otherwise, and a pipe still allocated has an open
end. -/
theorem refcounts_exact (hs : s.Reachable) :
    (∀ p, NPROC ≤ p → s.procs p = none) ∧
    (∀ f, (s.file f).ref = s.fdCount f) ∧
    (∀ f p pf, (s.file f).ref = 0 → s.procs p = some pf → some f ∉ pf.ofile) ∧
    (∀ i, s.refOf i = s.holderCount i) ∧
    (∀ w pg, s.endCount w pg = if (s.pipes pg).any (endOpen · w) then 1 else 0) ∧
    (∀ pg pi, s.pipes pg = some pi → pi.readopen ∨ pi.writeopen) := by
  have h := hs.counts
  refine ⟨h.procs, fun f => ?_, fun f p pf hf hp => h.not_mem_of_ref hf hp, fun i => ?_, h.ends, h.pipes⟩
  · simpa using h.files f
  · simpa [refOf_eq_heldCount h.unique] using h.inodes i

/-- `init` creates and opens `a`, duplicates the descriptor and forks; the child makes a pipe and
closes its descriptor 0: three descriptors refer to the file of `a`. -/
theorem refcounts_exact_fork_pipe :
    ∃ s, Machine.run (fun s (pc : Nat × Call) => next s pc.1 pc.2) boot
        [(0, .open [97] (O_CREATE ||| O_RDWR)), (0, .dup 0), (0, .fork 1), (1, .pipe 8), (1, .close 0)] = some s ∧
      (s.file 0).ref = 3 ∧ s.pipes 8 ≠ none ∧
      (∀ p, NPROC ≤ p → s.procs p = none) ∧
      (∀ f, (s.file f).ref = s.fdCount f) ∧
      (∀ f p pf, (s.file f).ref = 0 → s.procs p = some pf → some f ∉ pf.ofile) ∧
      (∀ i, s.refOf i = s.holderCount i) ∧
      (∀ w pg, s.endCount w pg = if (s.pipes pg).any (endOpen · w) then 1 else 0) ∧
      (∀ pg pi, s.pipes pg = some pi → pi.readopen ∨ pi.writeopen) := by
  obtain ⟨s, hrun, hf, hpg⟩ := Option.exists_of_map_decide
    (o := Machine.run (fun s (pc : Nat × Call) => next s pc.1 pc.2) boot
      [(0, .open [97] (O_CREATE ||| O_RDWR)), (0, .dup 0), (0, .fork 1), (1, .pipe 8), (1, .close 0)])
    (p := fun s : FsState => (s.file 0).ref = 3 ∧ s.pipes 8 ≠ none) (by decide +kernel)
  exact ⟨s, hrun, hf, hpg,
    refcounts_exact (Machine.Reachable.of_run (fun _ pc _ h => ⟨pc.1, pc.2, h⟩) (.init rfl) hrun)⟩

end Fs

end Xv6
