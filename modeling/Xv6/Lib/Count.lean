import Mathlib.Algebra.BigOperators.Group.Finset.Basic
import Mathlib.Algebra.Order.BigOperators.Group.Finset

/-!
# Counts over a table

A table is read through its entries `0 .. n - 1`, and a count over it is a sum of one term per
entry. Changing one entry changes the count by what the old and the new entry contribute; the
lemmas state it as an equation between sums, with no subtraction, so that `omega` can use it with
the sums as atoms.
-/

namespace Count

variable {M : Type _} [AddCommMonoid M]

theorem sum_range_update {n i : Nat} (hi : i < n) (g g' : Nat → M) (h : ∀ j, j ≠ i → g' j = g j) :
    (∑ j ∈ Finset.range n, g' j) + g i = (∑ j ∈ Finset.range n, g j) + g' i := by
  have hm : i ∈ Finset.range n := Finset.mem_range.2 hi
  rw [← Finset.add_sum_erase _ g' hm, ← Finset.add_sum_erase _ g hm,
    Finset.sum_congr rfl fun j hj => h j (Finset.ne_of_mem_erase hj)]
  ac_rfl

theorem pos_of_term {n i : Nat} {g : Nat → Nat} (hi : i < n) (hg : 0 < g i) : 0 < ∑ j ∈ Finset.range n, g j :=
  Nat.lt_of_lt_of_le hg (Finset.single_le_sum (fun _ _ => Nat.zero_le _) (Finset.mem_range.2 hi))

theorem exists_of_pos {n : Nat} {g : Nat → Nat} (h : 0 < ∑ j ∈ Finset.range n, g j) : ∃ i, i < n ∧ 0 < g i := by
  by_contra hne
  rw [Finset.sum_eq_zero fun j hj => Nat.eq_zero_of_not_pos fun hg => hne ⟨j, Finset.mem_range.1 hj, hg⟩] at h
  exact absurd h (Nat.lt_irrefl 0)

theorem count_set {α : Type _} [BEq α] [LawfulBEq α] [DecidableEq α] :
    ∀ (l : List α) {i : Nat} {a : α}, l[i]? = some a → ∀ b c : α,
      (l.set i b).count c + (if a = c then 1 else 0) = l.count c + (if b = c then 1 else 0)
  | [], _, _, hi, _, _ => by simp at hi
  | x :: xs, 0, a, hi, b, c => by
    obtain rfl : x = a := by simpa using hi
    simp only [List.set_cons_zero, List.count_cons, beq_iff_eq]
    omega
  | x :: xs, i + 1, a, hi, b, c => by
    have ih := count_set xs (by simpa using hi) b c
    simp only [List.set_cons_succ, List.count_cons]
    omega

end Count
