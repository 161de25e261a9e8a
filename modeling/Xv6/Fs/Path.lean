import Xv6.Fs.Dir
import Xv6.Fs.Namespace
import Xv6.Fs.Refcount

/-!
# Path names

`namex` walks a path from the root or the working directory, one component at a time: it locks
the directory it holds, looks the next component up in it, and hands its reference on to what it
found. `walk` and `walkParent` say what that computes, on the inodes as they were when the call
began: the components are the nonempty `/`-separated parts of the path, each cut to `DIRSIZ`
bytes (`elems`), and each is looked up with `lookup`.

The walk drops references as it goes, and the `iput` that drops the last reference to an
unlinked directory frees it. `Freed` is what that does to the inodes; a freed inode is never met
again, since no entry of another directory names an inode without links (`WalkInv.entry`), and
the walk holds the directory it looks into. So with the file system's invariants `namei` and
`nameiparent` return the walk's result, or panic in `iget` when the inode cache has no free entry
(`namei_walk`); `namei_full_cache` is such a state.
-/

namespace Xv6

namespace Fs

open FsState

/-! ### The components of a path -/

/-- The maximal nonempty `/`-free parts of a path. -/
def segments (path : List UInt8) : List (List UInt8) :=
  (path.splitOn 47).filter fun e => !e.isEmpty

/-- The components of a path: its nonempty `/`-separated parts, each cut to `DIRSIZ` bytes. -/
def elems (path : List UInt8) : List (List UInt8) :=
  ((path.splitOn 47).filter fun e => !e.isEmpty).map (·.take DIRSIZ)

example : elems ([47, 47, 97, 47] ++ List.replicate 16 98 ++ [47, 47, 99]) =
    [[97], List.replicate 14 98, [99]] := by decide

theorem elems_eq_map (path : List UInt8) : elems path = (segments path).map (·.take DIRSIZ) := rfl

@[simp] theorem segments_nil : segments [] = [] := rfl

@[simp] theorem elems_nil : elems [] = [] := rfl

@[simp] theorem segments_slash (path : List UInt8) : segments (47 :: path) = segments path := by
  simp [segments, List.splitOn_eq_splitOnP, List.splitOnP_cons_eq_if_modifyHead]

@[simp] theorem elems_slash (path : List UInt8) : elems (47 :: path) = elems path := by
  rw [elems_eq_map, elems_eq_map, segments_slash]

theorem segments_dropWhile (path : List UInt8) : segments (path.dropWhile (· == 47)) = segments path := by
  induction path with
  | nil => rfl
  | cons b path ih =>
    by_cases hb : b = 47
    · subst hb
      simpa using ih
    · rw [List.dropWhile_cons_of_neg (by simpa using hb)]

theorem elems_dropWhile (path : List UInt8) : elems (path.dropWhile (· == 47)) = elems path := by
  rw [elems_eq_map, elems_eq_map, segments_dropWhile]

theorem segments_component {e r : List UInt8} (he : ∀ x ∈ e, (x == 47) = false) (hne : e ≠ [])
    (hr : ∀ c ∈ r.head?, c = 47) : segments (e ++ r) = e :: segments r := by
  rcases r with _ | ⟨c, r⟩
  · simp [segments, List.splitOn_eq_splitOnP, List.splitOnP_eq_singleton he, hne]
  · obtain rfl : c = 47 := hr c rfl
    rw [segments_slash]
    simp [segments, List.splitOn_eq_splitOnP, List.splitOnP_append_cons_of_forall_mem he 47 rfl r, hne]

theorem elems_component {e r : List UInt8} (he : ∀ x ∈ e, (x == 47) = false) (hne : e ≠ [])
    (hr : ∀ c ∈ r.head?, c = 47) : elems (e ++ r) = e.take DIRSIZ :: elems r := by
  rw [elems_eq_map, elems_eq_map, segments_component he hne hr, List.map_cons]

theorem segments_of_head {p : List UInt8} (h0 : p ≠ []) (hhead : ∀ b ∈ p.head?, (b == 47) = false) :
    segments p = p.takeWhile (· != 47) :: segments (p.dropWhile (· != 47)) := by
  obtain ⟨b, q, rfl⟩ := List.exists_cons_of_ne_nil h0
  have hb : (b != 47) = true := by simpa using hhead b rfl
  conv_lhs => rw [← List.takeWhile_append_dropWhile (p := (· != 47)) (l := b :: q)]
  refine segments_component (fun x hx => ?_) (by simp [hb]) (fun c hc => ?_)
  · simpa using List.mem_takeWhile_imp hx
  · have := List.head?_dropWhile_not (· != 47) (b :: q)
    rw [hc] at this
    simpa using this

theorem elems_of_head {p : List UInt8} (h0 : p ≠ []) (hhead : ∀ b ∈ p.head?, (b == 47) = false) :
    elems p = (p.takeWhile (· != 47)).take DIRSIZ :: elems (p.dropWhile (· != 47)) := by
  rw [elems_eq_map, elems_eq_map, segments_of_head h0 hhead, List.map_cons]

theorem head_dropWhile_slash (path : List UInt8) : ∀ b ∈ (path.dropWhile (· == 47)).head?, (b == 47) = false := by
  intro b hb
  have := List.head?_dropWhile_not (· == 47) path
  rw [hb] at this
  exact this

/-- The segment `skipelem` copies: from the first byte that is not a slash up to the next slash. -/
def component (path : List UInt8) : List UInt8 := (path.dropWhile (· == 47)).takeWhile (· != 47)

/-- `skipelem` takes the first segment off the path, and reports none when there is none. -/
theorem segments_of_skipelem (path : List UInt8) :
    segments path = match skipelem path with
      | none => []
      | some (_, rest) => component path :: segments rest := by
  rw [← segments_dropWhile path]
  have hhead := head_dropWhile_slash path
  unfold skipelem component
  dsimp only
  generalize path.dropWhile (· == 47) = p at hhead ⊢
  split_ifs with h0
  · rw [h0, segments_nil]
  · rw [segments_of_head h0 hhead]
    dsimp only
    rw [segments_dropWhile]

theorem elems_of_skipelem (path : List UInt8) :
    elems path = match skipelem path with
      | none => []
      | some (name, rest) => name :: elems rest := by
  rw [elems_eq_map, segments_of_skipelem]
  unfold skipelem component
  dsimp only
  split_ifs <;> rfl

theorem elems_of_skipelem_some {path name rest : List UInt8} (h : skipelem path = some (name, rest)) :
    elems path = name :: elems rest := by
  rw [elems_of_skipelem, h]

theorem elems_of_skipelem_none {path : List UInt8} (h : skipelem path = none) : elems path = [] := by
  rw [elems_of_skipelem, h]

theorem elems_eq_nil_iff_of_skipelem {path name rest : List UInt8} (h : skipelem path = some (name, rest)) :
    elems rest = [] ↔ rest = [] := by
  unfold skipelem at h
  dsimp only at h
  split_ifs at h
  obtain ⟨-, rfl⟩ := Prod.mk.inj (Option.some.inj h)
  refine ⟨fun he => ?_, fun he => by rw [he, elems_nil]⟩
  by_contra hne
  rw [elems_of_head hne (head_dropWhile_slash _)] at he
  cases he

/-! ### `skipelem` until it returns 0

`namex` calls `skipelem(path, name)` until it returns 0. Each call copies the next segment into the
`DIRSIZ` bytes of `name` and returns what follows it, past the slashes. -/

/-- The `DIRSIZ` bytes of `name` after `skipelem` has copied the segment `s` into it:
`memmove(name, s, DIRSIZ)` for a segment of `DIRSIZ` bytes or more, `memmove(name, s, len)` and
`name[len] = 0` for a shorter one. -/
def storeName (name s : List UInt8) : List UInt8 :=
  if s.length ≥ DIRSIZ then s.take DIRSIZ ++ name.drop DIRSIZ else s ++ 0 :: name.drop (s.length + 1)

/-- Call `skipelem` until it returns 0, with `k` calls left: the bytes of `name` and the suffix
after each call, or `none` if the calls run out. -/
def skipelemRun (name : List UInt8) : Nat → List UInt8 → Option (List (List UInt8 × List UInt8))
  | 0, _ => none
  | k + 1, path =>
    match skipelem path with
    | none => some []
    | some (_, rest) =>
      let name := storeName name (component path)
      (skipelemRun name k rest).map ((name, rest) :: ·)

/-- A short segment is stored with its terminator. -/
theorem storeName_short {name s : List UInt8} (h : s.length < DIRSIZ) :
    (storeName name s).take (s.length + 1) = s ++ [0] := by
  rw [storeName, if_neg (Nat.not_le.2 h), List.take_append, List.take_of_length_le (by omega),
    Nat.add_sub_cancel_left]
  rfl

/-- A long segment fills the field, with no terminator. -/
theorem storeName_long {name s : List UInt8} (h : DIRSIZ ≤ s.length) :
    (storeName name s).take DIRSIZ = s.take DIRSIZ := by
  rw [storeName, if_pos h, List.take_append_of_le_length (by simp; omega), List.take_take, Nat.min_self]

theorem skipelem_rest {path name rest : List UInt8} (h : skipelem path = some (name, rest)) :
    rest <:+ path ∧ rest.length < path.length ∧ rest.head? ≠ some 47 ∧ (rest = [] ↔ segments rest = []) := by
  have hnil : rest = [] ↔ segments rest = [] := by
    rw [← (elems_eq_nil_iff_of_skipelem h), elems_eq_map, List.map_eq_nil_iff]
  unfold skipelem at h
  dsimp only at h
  split_ifs at h with h0
  obtain ⟨-, rfl⟩ := Prod.mk.inj (Option.some.inj h)
  have hhead := head_dropWhile_slash path
  generalize hp : path.dropWhile (· == 47) = p at h0 hhead
  -- `p` starts with a byte that is not a slash, which the scan for the next slash passes
  obtain ⟨b, q, rfl⟩ := List.exists_cons_of_ne_nil h0
  have hb : (b != 47) = true := by simpa using hhead b rfl
  have hsuf : (q.dropWhile (· != 47)).dropWhile (· == 47) <:+ q :=
    (List.dropWhile_suffix _).trans (List.dropWhile_suffix _)
  have hbq : b :: q <:+ path := hp ▸ List.dropWhile_suffix _
  have hq : q <:+ path := (List.suffix_cons b q).trans hbq
  refine ⟨?_, ?_, ?_, ?_⟩
  · rw [List.dropWhile_cons_of_pos (p := fun x => x != 47) hb]
    exact hsuf.trans hq
  · rw [List.dropWhile_cons_of_pos (p := fun x => x != 47) hb]
    have := hsuf.length_le
    have hlen := hbq.length_le
    rw [List.length_cons] at hlen
    omega
  · intro he
    have := head_dropWhile_slash ((b :: q).dropWhile (· != 47)) 47 he
    simp at this
  · rw [hp] at hnil
    exact hnil

theorem component_subset (path : List UInt8) : component path ⊆ path :=
  fun _ hx => (List.dropWhile_suffix _).subset ((List.takeWhile_sublist _).subset hx)

/-- Calling `skipelem` on a path with no NUL, as `namex` does, stops within `path.length + 1` calls.
The calls take the path's maximal nonempty `/`-free segments, in order. Each call leaves its segment
in `name`: NUL-terminated when it is shorter than `DIRSIZ`, as its first `DIRSIZ` bytes and
unterminated otherwise. Each suffix returned starts with no slash, and it is empty exactly when no
segment is left after the one just taken. -/
theorem skipelem_splits (path name : List UInt8) (hnul : 0 ∉ path) :
    ∃ steps, skipelemRun name (path.length + 1) path = some steps ∧
      steps.length = (segments path).length ∧
      (∀ st ∈ steps.zip (segments path),
        (st.2.length < DIRSIZ → st.1.1.take (st.2.length + 1) = st.2 ++ [0]) ∧
        (DIRSIZ ≤ st.2.length → st.1.1.take DIRSIZ = st.2.take DIRSIZ ∧ 0 ∉ st.1.1.take DIRSIZ)) ∧
      ∀ st ∈ steps, st.2.head? ≠ some 47 ∧ (st.2 = [] ↔ segments st.2 = []) := by
  -- induction on the calls left, which outnumber the bytes of the path
  suffices h : ∀ (k : Nat) (path name : List UInt8), path.length < k → 0 ∉ path →
      ∃ steps, skipelemRun name k path = some steps ∧
        steps.length = (segments path).length ∧
        (∀ st ∈ steps.zip (segments path),
          (st.2.length < DIRSIZ → st.1.1.take (st.2.length + 1) = st.2 ++ [0]) ∧
          (DIRSIZ ≤ st.2.length → st.1.1.take DIRSIZ = st.2.take DIRSIZ ∧ 0 ∉ st.1.1.take DIRSIZ)) ∧
        ∀ st ∈ steps, st.2.head? ≠ some 47 ∧ (st.2 = [] ↔ segments st.2 = []) from
    h _ path name (Nat.lt_succ_self _) hnul
  intro k
  induction k with
  | zero => intro path name hk; omega
  | succ k ih =>
    intro path name hk hnul
    have hseg := segments_of_skipelem path
    rcases hsk : skipelem path with _ | ⟨nm, rest⟩
    · -- no segment left: no call copies anything
      rw [hsk] at hseg
      refine ⟨[], by simp only [skipelemRun, hsk], by simp [hseg], by simp, by simp⟩
    rw [hsk] at hseg
    obtain ⟨hsuf, hlt, hhead, hlast⟩ := skipelem_rest hsk
    obtain ⟨steps, hrun, hlen, hname, hrest⟩ :=
      ih rest (storeName name (component path)) (by omega) fun h0 => hnul (hsuf.subset h0)
    refine ⟨(storeName name (component path), rest) :: steps, ?_, ?_, ?_, ?_⟩
    · simp only [skipelemRun, hsk, hrun, Option.map_some]
    · simp [hseg, hlen]
    · rw [hseg, List.zip_cons_cons]
      rintro st (_ | ⟨_, hst⟩)
      · -- the segment this call copies
        have hc : 0 ∉ component path := fun h0 => hnul (component_subset path h0)
        refine ⟨storeName_short, fun hge => ⟨storeName_long hge, ?_⟩⟩
        rw [storeName_long hge]
        exact fun h0 => hc ((List.take_sublist _ _).subset h0)
      · exact hname st hst
    · rintro st (_ | ⟨_, hst⟩)
      · exact ⟨hhead, hlast⟩
      · exact hrest st hst

/-- `//a/b`: two segments after a run of slashes. -/
def slashPath : List UInt8 := [47, 47, 97, 47, 98]

theorem skipelem_splits_slashPath :
    0 ∉ slashPath ∧ ∃ steps, skipelemRun (List.replicate 14 1) (slashPath.length + 1) slashPath = some steps ∧
      steps.length = (segments slashPath).length ∧
      (∀ st ∈ steps.zip (segments slashPath),
        (st.2.length < DIRSIZ → st.1.1.take (st.2.length + 1) = st.2 ++ [0]) ∧
        (DIRSIZ ≤ st.2.length → st.1.1.take DIRSIZ = st.2.take DIRSIZ ∧ 0 ∉ st.1.1.take DIRSIZ)) ∧
      ∀ st ∈ steps, st.2.head? ≠ some 47 ∧ (st.2 = [] ↔ segments st.2 = []) :=
  ⟨by decide, skipelem_splits slashPath (List.replicate 14 1) (by decide)⟩

example : (skipelemRun (List.replicate 14 1) 6 slashPath).map (List.map Prod.snd) = some [[98], []] := by
  decide

/-! ### The walk -/

/-- Where a walk starts: the root for an absolute path, the working directory otherwise. -/
def start (cwd : Nat) (path : List UInt8) : Nat := if path.head? = some 47 then ROOTINO else cwd

/-- Follow the components from inode `ip` through the entries of `s`: `none` when a component is
missing, or when an inode the walk has to look into is not a directory. -/
def walk (s : FsState) : Nat → List (List UInt8) → Option Nat
  | ip, [] => some ip
  | ip, n :: ns =>
    if (s.dinode ip).type ≠ T_DIR then none
    else (lookup (s.dinode ip) n).bind fun e => walk s e.1 ns

/-- The directory that holds the last component, and that component; `none` for a path with no
component. -/
def walkParent (s : FsState) : Nat → List (List UInt8) → Option (Nat × List UInt8)
  | _, [] => none
  | ip, [n] => if (s.dinode ip).type ≠ T_DIR then none else some (ip, n)
  | ip, n :: m :: ns =>
    if (s.dinode ip).type ≠ T_DIR then none
    else (lookup (s.dinode ip) n).bind fun e => walkParent s e.1 (m :: ns)

/-- `namex`'s result agrees with the walk: the parent and the last component with `nameiparent`,
the inode reached without it. -/
def Walks (s : FsState) (np : Bool) (ip : Nat) (es : List (List UInt8)) (r : Option (Nat × List UInt8)) :
    Prop :=
  if np then r = walkParent s ip es else r.map Prod.fst = walk s ip es

/-- What a walk from the working directory `cwd` relies on. Directories are whole entries long; an
entry in use names an allocated inode, and one that names another inode than its directory
counts among that inode's links. -/
structure WalkInv (s : FsState) (cwd : Nat) : Prop where
  unique : s.Unique
  cwd_held : 0 < s.heldCount cwd
  root : (s.dinode ROOTINO).type ≠ 0
  cwd : (s.dinode cwd).type ≠ 0
  dir : ∀ d, (s.dinode d).type = T_DIR → (s.dinode d).size % DIRENT = 0
  entry : ∀ d, (s.dinode d).type = T_DIR → ∀ i ∈ entries (s.dinode d), i ≠ 0 →
    (s.dinode i).type ≠ 0 ∧ (i ≠ d → 0 < (s.dinode i).nlink)

theorem WalkInv.dirOk {s : FsState} {cwd ip : Nat} (hs : WalkInv s cwd) (h : (s.dinode ip).type = T_DIR) :
    DirOk (s.dinode ip) :=
  ⟨h, hs.dir ip h⟩

theorem WalkInv.lookup {s : FsState} {cwd ip next off : Nat} {name : List UInt8} (hs : WalkInv s cwd)
    (hdir : (s.dinode ip).type = T_DIR) (h : lookup (s.dinode ip) name = some (next, off)) :
    (s.dinode next).type ≠ 0 ∧ (next ≠ ip → 0 < (s.dinode next).nlink) := by
  obtain ⟨k, hk, hn, rfl, -⟩ := lookup_eq_some h
  refine hs.entry ip hdir _ (List.mem_map.2 ⟨k, List.mem_range.2 hk, rfl⟩) ?_
  simp only [named, Bool.and_eq_true, bne_iff_ne] at hn
  exact hn.1

/-! ### The walk, one component at a time -/

section Step

variable {s : FsState} {np : Bool} {ip : Nat} {n : List UInt8} {es : List (List UInt8)}

theorem walks_nil_none : Walks s true ip [] none := by
  simp [Walks, walkParent]

theorem walks_nil_some {name : List UInt8} : Walks s false ip [] (some (ip, name)) := by
  simp [Walks, walk]

theorem walks_not_dir (hdir : (s.dinode ip).type ≠ T_DIR) : Walks s np ip (n :: es) none := by
  cases np
  · simp [Walks, walk, hdir]
  · cases es <;> simp [Walks, walkParent, hdir]

theorem walks_last (hdir : (s.dinode ip).type = T_DIR) : Walks s true ip [n] (some (ip, n)) := by
  simp [Walks, walkParent, hdir]

theorem walks_missing (hdir : (s.dinode ip).type = T_DIR) (hl : lookup (s.dinode ip) n = none)
    (hes : np = true → es ≠ []) : Walks s np ip (n :: es) none := by
  cases np
  · simp [Walks, walk, hdir, hl]
  · obtain ⟨m, es, rfl⟩ := List.exists_cons_of_ne_nil (hes rfl)
    simp [Walks, walkParent, hdir, hl]

theorem walks_found {next off : Nat} {r : Option (Nat × List UInt8)} (hdir : (s.dinode ip).type = T_DIR)
    (hl : lookup (s.dinode ip) n = some (next, off)) (hes : np = true → es ≠ []) :
    Walks s np ip (n :: es) r ↔ Walks s np next es r := by
  cases np
  · simp [Walks, walk, hdir, hl]
  · obtain ⟨m, es, rfl⟩ := List.exists_cons_of_ne_nil (hes rfl)
    simp [Walks, walkParent, hdir, hl]

end Step

/-! ### What the walk does to the inodes -/

section Frame

variable {s s₁ s₂ : FsState} {i j : Nat}

@[simp] theorem bumpRef_dinode (s : FsState) (i : Nat) (up : Bool) : (s.bumpRef i up).dinode = s.dinode := by
  unfold FsState.bumpRef
  split <;> rfl

theorem iget_dinode (h : iget s i = .ok s₁) : s₁.dinode = s.dinode := by
  unfold iget at h
  split at h
  · cases h
    exact bumpRef_dinode s i true
  · split at h
    · cases h
      rfl
    · cases h

theorem iget_error {e : String} (h : iget s i = .error e) : e = "iget: no inodes" := by
  unfold iget at h
  split at h
  · cases h
  · split at h
    · cases h
    · exact (Except.error.inj h).symm

theorem iget_error_full {e : String} (h : iget s i = .error e) : ∀ k < s.icache.length, 0 < (s.slot k).ref := by
  unfold iget at h
  split at h
  · cases h
  · split at h
    · cases h
    · rename_i hnone
      intro k hk
      have hp := List.findIdx?_eq_none_iff.1 hnone _ (List.getElem_mem hk)
      simp only [slot, List.getD_eq_getElem?_getD, List.getElem?_eq_getElem hk, Option.getD_some]
      simpa [Nat.pos_iff_ne_zero] using hp

@[simp] theorem length_bumpRef (s : FsState) (i : Nat) (up : Bool) :
    (s.bumpRef i up).icache.length = s.icache.length := by
  unfold FsState.bumpRef
  split <;> simp

theorem iget_length (h : iget s i = .ok s₁) : s₁.icache.length = s.icache.length := by
  unfold iget at h
  split at h
  · cases h
    exact length_bumpRef s i true
  · split at h
    · cases h
      exact List.length_set ..
    · cases h

@[simp] theorem length_iput (s : FsState) (i : Nat) : (iput s i).icache.length = s.icache.length := by
  unfold iput
  rw [length_bumpRef]
  split_ifs <;> rfl

theorem iput_dinode (s : FsState) (i j : Nat) : (iput s i).dinode j =
    if j = i ∧ (s.dinode i).nlink = 0 ∧ s.refOf i = 1 then { s.dinode i with type := 0, data := [] }
    else s.dinode j := by
  unfold iput
  simp only [bumpRef_dinode]
  by_cases hj : j = i
  · subst hj
    split_ifs <;> simp_all [FsState.setDinode]
  · have hne : ¬(j = i ∧ (s.dinode i).nlink = 0 ∧ s.refOf i = 1) := fun h => hj h.1
    simp only [hne, if_false]
    split_ifs <;> simp [FsState.setDinode, hj]

theorem iput_dinode_of_ne (h : j ≠ i) : (iput s i).dinode j = s.dinode j := by
  rw [iput_dinode, if_neg (fun h' => h h'.1)]

theorem iput_dinode_of_two (hu : s.Unique) (h : 2 ≤ s.heldCount i) : (iput s i).dinode = s.dinode := by
  funext j
  rw [iput_dinode, if_neg]
  rintro ⟨-, -, h1⟩
  rw [refOf_eq_heldCount hu] at h1
  omega

/-- The inodes part of the way through a walk: each as it was, or freed, which only an inode with
no links can have been. -/
def Freed (s s₁ : FsState) : Prop :=
  ∀ i, s₁.dinode i = s.dinode i ∨ ((s₁.dinode i).type = 0 ∧ (s.dinode i).nlink = 0)

theorem Freed.refl (s : FsState) : Freed s s := fun _ => .inl rfl

theorem Freed.of_dinode (h : Freed s s₁) (he : s₂.dinode = s₁.dinode) : Freed s s₂ := by
  intro i
  rw [he]
  exact h i

theorem Freed.iput (h : Freed s s₁) (ip : Nat) : Freed s (iput s₁ ip) := by
  intro j
  rw [iput_dinode]
  split_ifs with hj
  · obtain ⟨rfl, h0, -⟩ := hj
    refine .inr ⟨rfl, ?_⟩
    rcases h j with he | ⟨-, hn⟩
    · rw [← he]
      exact h0
    · exact hn
  · exact h j

end Frame

/-! ### A full cache -/

/-- At most one entry of the inode cache is free. -/
def FsState.AlmostFull (s : FsState) : Prop :=
  ∀ j k, j < s.icache.length → k < s.icache.length → (s.slot j).ref = 0 → (s.slot k).ref = 0 → j = k

section Full

variable {s s₁ : FsState} {ip : Nat}

theorem card_held_inodes (hu : s.Unique) :
    (((Finset.range s.icache.length).filter fun k => 0 < (s.slot k).ref).image fun k => (s.slot k).inum).card =
      ((Finset.range s.icache.length).filter fun k => 0 < (s.slot k).ref).card :=
  Finset.card_image_of_injOn fun j hj k hk he => by
    simp only [Finset.coe_filter, Finset.mem_range, Set.mem_ofPred_eq] at hj hk
    exact hu j k hj.1 hk.1 hj.2 hk.2 he

/-- A state that holds one reference more than `s`, to `ip`, and has no free entry: `s` has at most
one. The count: `s₁`'s entries hold as many inodes as the cache has entries, all of them held in `s`
but `ip`, while two free entries would leave `s` holding two inodes fewer. -/
theorem Inodes.almostFull (hu : s.Unique) (h : Inodes s s₁ 0 {ip}) (hlen : s₁.icache.length = s.icache.length)
    (hfull : ∀ k < s₁.icache.length, 0 < (s₁.slot k).ref) : s.AlmostFull := by
  intro j k hj hk hj0 hk0
  by_contra hne
  have hsub : ((Finset.range s₁.icache.length).filter fun m => 0 < (s₁.slot m).ref).image
      (fun m => (s₁.slot m).inum) ⊆
      insert ip (((Finset.range s.icache.length).filter fun m => 0 < (s.slot m).ref).image fun m => (s.slot m).inum) := by
    intro i hi
    obtain ⟨m, hm, rfl⟩ := Finset.mem_image.1 hi
    obtain ⟨hml, hmr⟩ := Finset.mem_filter.1 hm
    have hpos : 0 < s₁.heldCount (s₁.slot m).inum :=
      Count.pos_of_term (Finset.mem_range.1 hml) (by rw [Slot.refsTo, if_pos rfl]; exact hmr)
    by_cases hip : (s₁.slot m).inum = ip
    · rw [hip]
      exact Finset.mem_insert_self _ _
    -- an inode other than `ip` that `s₁` holds, `s` holds in some entry
    have hheld := h.held (s₁.slot m).inum
    rw [Multiset.count_zero, add_zero, Multiset.count_singleton, if_neg hip, add_zero] at hheld
    obtain ⟨m', hm', hr⟩ := Count.exists_of_pos (hheld ▸ hpos)
    unfold Slot.refsTo at hr
    split_ifs at hr with he
    · exact Finset.mem_insert_of_mem
        (Finset.mem_image.2 ⟨m', Finset.mem_filter.2 ⟨Finset.mem_range.2 hm', hr⟩, he⟩)
    · exact absurd hr (Nat.lt_irrefl 0)
  have hall : ((Finset.range s₁.icache.length).filter fun m => 0 < (s₁.slot m).ref) =
      Finset.range s₁.icache.length :=
    Finset.filter_true_of_mem fun m hm => hfull m (Finset.mem_range.1 hm)
  have hmiss : ((Finset.range s.icache.length).filter fun m => 0 < (s.slot m).ref) ⊆
      ((Finset.range s.icache.length).erase j).erase k := by
    intro m hm
    obtain ⟨hml, hmr⟩ := Finset.mem_filter.1 hm
    refine Finset.mem_erase.2 ⟨fun e => ?_, Finset.mem_erase.2 ⟨fun e => ?_, hml⟩⟩
    · subst e
      omega
    · subst e
      omega
  have h₁ := Finset.card_le_card hsub
  have h₂ := Finset.card_insert_le ip
    (((Finset.range s.icache.length).filter fun m => 0 < (s.slot m).ref).image fun m => (s.slot m).inum)
  have h₃ := Finset.card_le_card hmiss
  rw [card_held_inodes h.unique, hall, Finset.card_range] at h₁
  rw [card_held_inodes hu] at h₂
  rw [Finset.card_erase_of_mem (Finset.mem_erase.2 ⟨Ne.symm hne, Finset.mem_range.2 hk⟩),
    Finset.card_erase_of_mem (Finset.mem_range.2 hj), Finset.card_range] at h₃
  omega

end Full

/-! ### `namex` computes the walk -/

section Namex

variable {s : FsState} {cwd : Nat} (hs : WalkInv s cwd)
include hs

/-- The loop, holding a directory `ip` it has not freed, either panics in `iget`, which needs a
cache entry when at most one was free at the start, or returns the walk's result on the inodes as
they were when `namex` began. The induction is on the passes left; what a pass keeps is `Freed`,
the one reference the walk holds, to `ip`, and `ip`'s inode. -/
theorem namexLoop_walks (np : Bool) : ∀ (k : Nat) (path name : List UInt8) (ip : Nat) (s₁ : FsState),
    path.length < k → Freed s s₁ → Inodes s s₁ 0 {ip} → s₁.icache.length = s.icache.length →
    s₁.dinode ip = s.dinode ip → (s.dinode ip).type ≠ 0 →
    (namexLoop np k path name ip s₁ = .error "iget: no inodes" ∧ s.AlmostFull) ∨
      ∃ r s', namexLoop np k path name ip s₁ = .ok (r, s') ∧ Walks s np ip (elems path) r
  | 0, _, _, _, _, hk, _, _, _, _, _ => absurd hk (Nat.not_lt_zero _)
  | k + 1, path, name, ip, s₁, hk, hf, hd, hlen, hkept, halloc => by
    unfold namexLoop
    rcases hsk : skipelem path with _ | ⟨name', path'⟩
    · -- no component is left
      rw [elems_of_skipelem_none hsk]
      right
      cases np
      · exact ⟨_, _, rfl, walks_nil_some⟩
      · exact ⟨_, _, rfl, walks_nil_none⟩
    rw [elems_of_skipelem_some hsk]
    have hlock : ilock s₁ ip = .ok () := by
      rw [ilock, hkept, if_neg halloc]
      rfl
    dsimp only
    rw [hlock, Except.ok_bind, hkept]
    by_cases hdir : (s.dinode ip).type = T_DIR
    swap
    · rw [if_pos hdir]
      exact .inr ⟨_, _, rfl, walks_not_dir hdir⟩
    rw [if_neg (not_not.2 hdir)]
    by_cases hlast : np = true ∧ path' = []
    · -- `nameiparent` stops at the last component
      obtain ⟨rfl, rfl⟩ := hlast
      exact .inr ⟨_, _, rfl, walks_last hdir⟩
    have hes : np = true → elems path' ≠ [] := fun hnp he =>
      hlast ⟨hnp, (elems_eq_nil_iff_of_skipelem hsk).1 he⟩
    rw [if_neg (by simpa using hlast)]
    rw [dirlookup_eq (by rw [hkept]; exact hs.dirOk hdir), hkept]
    rcases hl : lookup (s.dinode ip) name' with _ | ⟨next, off⟩
    · exact .inr ⟨_, _, rfl, walks_missing hdir hl hes⟩
    dsimp only
    rcases hg : iget s₁ next with e | s₂
    · left
      refine ⟨?_, Inodes.almostFull hs.unique hd hlen (iget_error_full hg)⟩
      rw [iget_error hg]
      rfl
    -- the walk goes on from `next`, which the lookup found in a directory it had not freed
    simp only [Except.ok_bind, Except.pure_eq_ok]
    have d := Inodes.iget hd.unique hg
    have hip : 0 < s₁.heldCount ip := hd.pos_of_mem (Multiset.mem_singleton_self ip)
    obtain ⟨d', -⟩ := Inodes.handOn d hip
    have hd' : Inodes s (iput s₂ ip) 0 {next} := hd.comp d' (by rw [zero_add, add_zero, add_comm])
    have hf₂ : Freed s s₂ := hf.of_dinode (iget_dinode hg)
    obtain ⟨halloc', hlinks⟩ := hs.lookup hdir hl
    have hkept' : (iput s₂ ip).dinode next = s.dinode next := by
      by_cases hni : next = ip
      · -- a second reference to `ip` keeps it
        subst hni
        have h2 : 2 ≤ s₂.heldCount next := by
          have := d.held next
          simp only [Multiset.count_zero, Multiset.count_singleton_self] at this
          omega
        rw [iput_dinode_of_two d.unique h2, iget_dinode hg, hkept]
      · -- an inode with links is never freed
        rw [iput_dinode_of_ne hni, iget_dinode hg]
        rcases hf next with he | ⟨-, h0⟩
        · exact he
        · exact absurd h0 (Nat.pos_iff_ne_zero.1 (hlinks hni))
    rcases namexLoop_walks np k path' name' next (iput s₂ ip) (by have := skipelem_length hsk; omega)
      (hf₂.iput ip) hd' (by rw [length_iput, iget_length hg, hlen]) hkept' halloc' with he | ⟨r, s', h, hw⟩
    · exact .inl he
    · exact .inr ⟨r, s', h, (walks_found hdir hl hes).2 hw⟩

/-- `namex` takes a reference to where the walk starts, then runs the loop from there. -/
theorem namex_walks (np : Bool) (path : List UInt8) :
    (namex s cwd path np = .error "iget: no inodes" ∧ s.AlmostFull) ∨
      ∃ r s', namex s cwd path np = .ok (r, s') ∧ Walks s np (start cwd path) (elems path) r := by
  unfold namex start
  dsimp only
  by_cases hroot : path.head? = some 47
  · -- an absolute path: `iget` of the root, which can find the cache full
    rw [if_pos hroot, if_pos hroot]
    rcases hg : iget s ROOTINO with e | s₁
    · left
      refine ⟨?_, fun j _ hj _ hj0 _ => absurd hj0 (Nat.pos_iff_ne_zero.1 (iget_error_full hg j hj))⟩
      rw [iget_error hg]
      rfl
    have d := Inodes.iget hs.unique hg
    rw [Except.ok_bind]
    exact namexLoop_walks hs np _ path [] ROOTINO s₁ (Nat.lt_succ_self _)
      ((Freed.refl s).of_dinode (iget_dinode hg)) d (iget_length hg) (by rw [iget_dinode hg]) hs.root
  · rw [if_neg hroot, if_neg hroot, Except.pure_eq_ok, Except.ok_bind]
    have d : Inodes s (idup s cwd) 0 {cwd} := Inodes.idup hs.unique hs.cwd_held
    exact namexLoop_walks hs np _ path [] cwd (idup s cwd) (Nat.lt_succ_self _)
      ((Freed.refl s).of_dinode (bumpRef_dinode s cwd true)) d (length_bumpRef s cwd true)
      (by rw [idup, bumpRef_dinode]) hs.cwd

end Namex

theorem Inodes.refOf_ret {s s' : FsState} {r : Option Nat} (hu : s.Unique) (d : Inodes s s' 0 (ret r)) (i : Nat) :
    s'.refOf i = s.refOf i + if r = some i then 1 else 0 := by
  rw [refOf_eq_heldCount d.unique, refOf_eq_heldCount hu]
  have := d.held i
  rw [Multiset.count_zero, add_zero] at this
  rw [this]
  cases r with
  | none => simp
  | some j => simp [Multiset.count_singleton, eq_comm]

/-- With the file system's invariants, `namei` and `nameiparent` either panic in `iget`, when the
walk needs an entry of the inode cache and none is free, which needs a cache with at most one free
entry at the start, or return what the walk reaches from the root or the working directory: the
inode, or the directory that holds the last component and that component, or 0. On return, every
inode's reference count but the returned one's is as it was. -/
theorem namei_walk {s : FsState} {cwd : Nat} (hs : WalkInv s cwd) (path : List UInt8) :
    ((namei s cwd path = .error "iget: no inodes" ∧ s.AlmostFull) ∨
      ∃ s', namei s cwd path = .ok (walk s (start cwd path) (elems path), s') ∧
        ∀ i, s'.refOf i = s.refOf i + if walk s (start cwd path) (elems path) = some i then 1 else 0) ∧
    ((nameiparent s cwd path = .error "iget: no inodes" ∧ s.AlmostFull) ∨
      ∃ s', nameiparent s cwd path = .ok (walkParent s (start cwd path) (elems path), s') ∧
        ∀ i, s'.refOf i = s.refOf i +
          if (walkParent s (start cwd path) (elems path)).map Prod.fst = some i then 1 else 0) := by
  constructor
  · rcases namex_walks hs false path with ⟨he, hfull⟩ | ⟨r, s', h, hw⟩
    · left
      refine ⟨?_, hfull⟩
      rw [namei, he]
      rfl
    · simp only [Walks, Bool.false_eq_true, if_false] at hw
      have hn : namei s cwd path = .ok (r.map Prod.fst, s') := by
        rw [namei, h]
        rfl
      refine .inr ⟨s', by rw [hn, hw], fun i => ?_⟩
      rw [← hw]
      exact (Inodes.namei hs.unique hs.cwd_held hn).refOf_ret hs.unique i
  · rcases namex_walks hs true path with he | ⟨r, s', h, hw⟩
    · exact .inl he
    · simp only [Walks, if_true] at hw
      subst hw
      exact .inr ⟨s', h, (Inodes.nameiparent hs.unique hs.cwd_held h).refOf_ret hs.unique⟩

theorem walkInv_boot : WalkInv boot ROOTINO where
  unique := Counts.boot.unique
  cwd_held := Counts.boot.cwd_held (p := 0) rfl
  root := by decide
  cwd := by decide
  dir d hd := by
    by_cases h : d = ROOTINO
    · subst h
      decide +kernel
    · simp [boot, h, T_DIR] at hd
  entry d hd i hi hi0 := by
    obtain rfl : d = ROOTINO := by
      by_contra h
      simp [boot, h, T_DIR] at hd
    -- the root's entries are `.` and `..`, both the root
    have hroot : ∀ j ∈ entries (boot.dinode ROOTINO), j ≠ 0 → j = ROOTINO := by decide +kernel
    obtain rfl := hroot i hi hi0
    exact ⟨by decide, fun h => absurd rfl h⟩

/-- From boot, `namei("/.")` returns the root, with one more reference to it and every other count
as it was. -/
theorem namei_walk_root :
    ∃ s', namei boot ROOTINO [47, 46] = .ok (some ROOTINO, s') ∧
      ∀ i, s'.refOf i = boot.refOf i + if i = ROOTINO then 1 else 0 := by
  have hw : walk boot (start ROOTINO [47, 46]) (elems [47, 46]) = some ROOTINO := by decide +kernel
  rcases (namei_walk walkInv_boot [47, 46]).1 with ⟨he, -⟩ | ⟨s', h, hr⟩
  · have hok : (namei boot ROOTINO [47, 46]).isOk = true := by decide +kernel
    rw [he] at hok
    cases hok
  · refine ⟨s', by rw [h, hw], fun i => ?_⟩
    rw [hr, hw]
    simp [eq_comm]

/-- The root of `fullCache`: `.`, `..` and `a`, inode 2. -/
def fullRoot : Dinode :=
  ⟨T_DIR, 0, 0, 1, encodeDirent ROOTINO [46] ++ encodeDirent ROOTINO [46, 46] ++ encodeDirent 2 [97]⟩

/-- An image whose root holds `a`, and whose inode cache is full: it holds the root and 49 files
that are open and unlinked. -/
def fullCache : FsState where
  dinode i := if i = ROOTINO then fullRoot else if i < NINODE + 2 then ⟨T_FILE, 0, 0, if i = 2 then 1 else 0, []⟩
    else ⟨0, 0, 0, 0, []⟩
  icache := ⟨ROOTINO, 1⟩ :: (List.range (NINODE - 1)).map fun k => ⟨k + 3, 1⟩
  ftable := boot.ftable
  procs := boot.procs
  pipes := boot.pipes

theorem fullCache_slot {k : Nat} (hk : k < fullCache.icache.length) :
    fullCache.slot k = if k = 0 then ⟨ROOTINO, 1⟩ else ⟨k + 2, 1⟩ := by
  rcases k with _ | k
  · rfl
  · have : k < NINODE - 1 := by simpa [fullCache] using hk
    simp [slot, fullCache, List.getD_eq_getElem?_getD, List.getElem?_range this]

/-- The file system's invariants hold in `fullCache`, and the walk of `/a` reaches inode 2, yet
`namei("/a")` panics: `iget` finds no free entry for it. -/
theorem namei_full_cache :
    WalkInv fullCache ROOTINO ∧ walk fullCache ROOTINO (elems [47, 97]) = some 2 ∧
      namei fullCache ROOTINO [47, 97] = .error "iget: no inodes" := by
  refine ⟨⟨fun j k hj hk _ _ he => ?_, ?_, by decide, by decide, fun d hd => ?_, fun d hd i hi hi0 => ?_⟩,
    by decide +kernel, ?_⟩
  · rw [fullCache_slot hj, fullCache_slot hk] at he
    split_ifs at he <;> simp [ROOTINO] at he <;> omega
  · exact Count.pos_of_term (i := 0) (by decide) (by rw [fullCache_slot (by decide)]; simp [Slot.refsTo])
  · by_cases h : d = ROOTINO
    · subst h
      decide +kernel
    · simp [fullCache, h] at hd
      split_ifs at hd <;> simp [T_DIR, T_FILE] at hd
  · obtain rfl : d = ROOTINO := by
      by_contra h
      simp [fullCache, h] at hd
      split_ifs at hd <;> simp [T_DIR, T_FILE] at hd
    have hroot : ∀ j ∈ entries (fullCache.dinode ROOTINO), j ≠ 0 → j = ROOTINO ∨ j = 2 := by decide +kernel
    rcases hroot i hi hi0 with rfl | rfl
    · exact ⟨by decide, fun h => absurd rfl h⟩
    · exact ⟨by decide, fun _ => by decide⟩
  · -- the state an `ok` carries has no decidable equality: compute the outcome with it erased
    have h : (namei fullCache ROOTINO [47, 97]).map (fun _ => ()) = .error "iget: no inodes" := by
      decide +kernel
    revert h
    cases namei fullCache ROOTINO [47, 97] with
    | error e => simp [Except.map]
    | ok _ => simp [Except.map]

end Fs

end Xv6
