import Xv6.Fs.Sysfile

/-!
# What names an inode

An inode is reachable when a chain of entries of allocated directories leads to it from the root.
An allocated inode that is not reachable can still be freed if it has no links and something in
memory holds it (an open file, a working directory): the `iput` that drops the last reference frees
it. One that is unreachable and linked can never be freed.

`sys_unlink` removes an empty directory even when it is some process's working directory, and
`create` still links new entries into it. `sys_open` with `O_CREATE` creates the file before it
allocates the file-table entry and the descriptor, and when either allocation fails it returns -1
with the new file left in its directory.
-/

namespace Xv6

namespace Fs

/-- The inode numbers of the whole entries of a directory, free entries included. -/
def entries (d : Dinode) : List Nat :=
  (List.range (d.size / DIRENT)).map fun k => deInum ((d.data.drop (k * DIRENT)).take DIRENT)

/-- Inodes reachable from the root through the entries of allocated directories. -/
inductive Reachable (s : FsState) : Nat → Prop
  | root : Reachable s ROOTINO
  | entry {d i : Nat} : Reachable s d → (s.dinode d).type = T_DIR → i ∈ entries (s.dinode d) → i ≠ 0 →
      Reachable s i

theorem Reachable.mem_of_closed {s : FsState} {S : Nat → Prop} (hroot : S ROOTINO)
    (hclosed : ∀ d, S d → (s.dinode d).type = T_DIR → ∀ i ∈ entries (s.dinode d), i ≠ 0 → S i)
    {i : Nat} (h : Reachable s i) : S i := by
  induction h with
  | root => exact hroot
  | entry _ hdir hi hi0 ih => exact hclosed _ ih hdir _ hi hi0

theorem Reachable.eq_root {s : FsState} (hroot : ∀ i ∈ entries (s.dinode ROOTINO), i ≠ 0 → i = ROOTINO)
    {i : Nat} (h : Reachable s i) : i = ROOTINO :=
  h.mem_of_closed (S := (· = ROOTINO)) rfl fun d hd _ i hi hi0 => by
    subst hd
    exact hroot i hi hi0

/-- Part (a) of the namespace law at inode `i`: allocated only while reachable, or while unlinked
and held in memory, so that the `iput` of its last reference frees it. -/
def Accounted (s : FsState) (i : Nat) : Prop :=
  (s.dinode i).type ≠ 0 → Reachable s i ∨ ((s.dinode i).nlink = 0 ∧ 0 < s.refOf i)

/-- `mkdir d; chdir d; unlink /d; mkdir x` from a fresh image: `x` (inode 3) is an allocated
directory with one link and no reference, named only by an entry of the removed `d`. Nothing
reaches it any more, so no call can free it. -/
theorem unlinked_cwd_leaks :
    ∃ s, run 0 [.mkdir [100], .chdir [100], .unlink [47, 100], .mkdir [120]] boot = some s ∧
      (s.dinode 3).type = T_DIR ∧ (s.dinode 3).nlink = 1 ∧ s.refOf 3 = 0 ∧ ¬ Accounted s 3 := by
  obtain ⟨s, hs, ht, hn, hr, hroot⟩ := Option.exists_of_map_decide
    (o := run 0 [.mkdir [100], .chdir [100], .unlink [47, 100], .mkdir [120]] boot)
    (p := fun s : FsState => (s.dinode 3).type = T_DIR ∧ (s.dinode 3).nlink = 1 ∧ s.refOf 3 = 0 ∧
      ∀ i ∈ entries (s.dinode ROOTINO), i ≠ 0 → i = ROOTINO)
    (by decide +kernel)
  refine ⟨s, hs, ht, hn, hr, fun ha => ?_⟩
  rcases ha (by rw [ht]; decide) with h | ⟨h0, -⟩
  · -- only the root is reachable
    exact absurd (Reachable.eq_root hroot h) (by decide)
  · rw [hn] at h0
    exact absurd h0 (by decide)

/-- A process with all `NOFILE` descriptors open calls `open("a", O_CREATE|O_RDWR)` in the root:
the call returns -1, yet inode 2, free before, is now a file with one link named by the root. -/
theorem open_create_fails_after_create :
    ∃ s s', run 0 (List.replicate NOFILE (.open [47] O_RDONLY)) boot = some s ∧
      sys_open s 0 [97] (O_CREATE ||| O_RDWR) = .ok (-1, s') ∧
      (s.dinode 2).type = 0 ∧ (s'.dinode 2).type = T_FILE ∧ (s'.dinode 2).nlink = 1 ∧
      2 ∈ entries (s'.dinode ROOTINO) := by
  obtain ⟨⟨s, r, s'⟩, h, hr, h0, ht, hn, he⟩ := Option.exists_of_map_decide
    (o := (run 0 (List.replicate NOFILE (.open [47] O_RDONLY)) boot).bind fun s =>
      (sys_open s 0 [97] (O_CREATE ||| O_RDWR)).toOption.map fun r => (s, r))
    (p := fun x => x.2.1 = -1 ∧ (x.1.dinode 2).type = 0 ∧ (x.2.2.dinode 2).type = T_FILE ∧
      (x.2.2.dinode 2).nlink = 1 ∧ 2 ∈ entries (x.2.2.dinode ROOTINO))
    (by decide +kernel)
  obtain ⟨s₀, hs₀, h⟩ := Option.bind_eq_some_iff.1 h
  obtain ⟨r', hr', h⟩ := Option.map_eq_some_iff.1 h
  obtain ⟨rfl, rfl⟩ := Prod.mk.inj h
  dsimp only at hr h0 ht hn he
  subst hr
  exact ⟨s₀, s', hs₀, Except.eq_ok_of_toOption hr', h0, ht, hn, he⟩

end Fs

end Xv6
