import Mathlib.Data.Nat.ModEq
import Mathlib.Logic.Function.Basic

/-!
# Ring buffers read through free-running counters

A ring of `N` cells is read from position `r` on, positions taken mod `N`: `contents N data r len`
lists the `len` cells a reader sees. Readers and writers keep counters that only ever grow (or
wrap at a multiple of `N`), so the lemmas are stated for an arbitrary starting position: writing
the cell after the last one appends it, reading the first one removes it, and two positions equal
mod `N` read the same cells.
-/

namespace Ring

variable {α : Type _} {N : Nat} {data : Nat → α} {r len : Nat}

/-- The `len` cells from position `r` on of a ring of `N` cells. -/
def contents (N : Nat) (data : Nat → α) (r : Nat) : Nat → List α
  | 0 => []
  | len + 1 => contents N data r len ++ [data ((r + len) % N)]

@[simp] theorem contents_zero : contents N data r 0 = [] := rfl

theorem contents_succ :
    contents N data r (len + 1) = contents N data r len ++ [data ((r + len) % N)] := rfl

@[simp] theorem length_contents : (contents N data r len).length = len := by
  induction len with
  | zero => rfl
  | succ len ih => simp [contents_succ, ih]

theorem contents_congr {r' : Nat} (h : r % N = r' % N) :
    contents N data r len = contents N data r' len := by
  induction len with
  | zero => rfl
  | succ len ih => rw [contents_succ, contents_succ, ih, Nat.add_mod r, h, ← Nat.add_mod]

theorem contents_update_of_ne {i : Nat} (h : ∀ k < len, (r + k) % N ≠ i) (v : α) :
    contents N (Function.update data i v) r len = contents N data r len := by
  induction len with
  | zero => rfl
  | succ len ih =>
    rw [contents_succ, contents_succ, ih fun k hk => h k (by omega),
      Function.update_of_ne (h len (by omega))]

theorem contents_add {a : Nat} :
    contents N data r (a + len) = contents N data r a ++ contents N data (r + a) len := by
  induction len with
  | zero => simp
  | succ len ih => rw [← Nat.add_assoc, contents_succ, ih, contents_succ, List.append_assoc, Nat.add_assoc]

theorem add_mod_ne {k : Nat} (hk : k < len) (hlen : len < N) : (r + k) % N ≠ (r + len) % N := by
  intro h
  have h' : k % N = len % N := Nat.ModEq.add_left_cancel' r h
  rw [Nat.mod_eq_of_lt (by omega), Nat.mod_eq_of_lt hlen] at h'
  omega

theorem contents_push (hlen : len < N) (v : α) :
    contents N (Function.update data ((r + len) % N) v) r (len + 1) = contents N data r len ++ [v] := by
  rw [contents_succ, contents_update_of_ne (fun k hk => add_mod_ne hk hlen), Function.update_self]

theorem contents_pop : contents N data r (len + 1) = data (r % N) :: contents N data (r + 1) len := by
  induction len with
  | zero => rfl
  | succ len ih =>
    rw [contents_succ, ih, contents_succ, List.cons_append, Nat.add_right_comm r 1 len, Nat.add_assoc]

end Ring
