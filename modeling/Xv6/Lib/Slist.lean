import Mathlib.Data.List.Nodup
import Mathlib.Logic.Function.Basic

/-!
# Null-terminated singly-linked lists

Nodes are values of a type `α` and `next` gives each node's successor, `none` for null. A list `l`
hangs off a pointer `p` (`Path next p l`) when following `next` from `p` visits the nodes of `l` in
order and then reaches null. Such a list has no cycle and no node twice (`Path.nodup`), and is the
only one that hangs off `p` (`Path.unique`).

`load head next pp` is C's `*pp` for a pointer `pp` to a pointer: to the head (`none`) or to the
`next` field of node `x` (`some x`). `lastSlot` is the loop `for(pp = &head; *pp; pp = &(*pp)->next);`
that finds the null pointer at the end of a list, given fuel; `lastSlot_eq` says it finds the end
of the list whenever the fuel exceeds its length, and `Path.snoc` says what storing a node there
makes of the list.
-/

namespace Slist

variable {α : Type _} {next next' : α → Option α} {p : Option α} {x : α} {l l' : List α}

/-- Following `next` from `p` visits the nodes of `l` in order and then reaches null. -/
def Path (next : α → Option α) : Option α → List α → Prop
  | p, [] => p = none
  | p, x :: l => p = some x ∧ Path next (next x) l

@[simp] theorem path_nil : Path next p [] ↔ p = none := Iff.rfl

@[simp] theorem path_cons : Path next p (x :: l) ↔ p = some x ∧ Path next (next x) l := Iff.rfl

theorem Path.unique (h : Path next p l) (h' : Path next p l') : l = l' := by
  induction l generalizing p l' with
  | nil =>
    cases l' with
    | nil => rfl
    | cons y l' => exact absurd (h.symm.trans h'.1) (by simp)
  | cons y l ih =>
    cases l' with
    | nil => exact absurd (h.1.symm.trans h') (by simp)
    | cons z l' =>
      obtain rfl : y = z := Option.some.inj (h.1.symm.trans h'.1)
      rw [ih h.2 h'.2]

theorem Path.mem_suffix (h : Path next p l) {y : α} (hy : y ∈ l) :
    ∃ l₁ l₂, l = l₁ ++ y :: l₂ ∧ Path next (some y) (y :: l₂) := by
  induction l generalizing p with
  | nil => cases hy
  | cons z l ih =>
    rcases List.mem_cons.1 hy with rfl | hy
    · exact ⟨[], l, rfl, rfl, h.2⟩
    · obtain ⟨l₁, l₂, rfl, hp⟩ := ih h.2 hy
      exact ⟨z :: l₁, l₂, rfl, hp⟩

/-- A list that ends at null has no cycle: no node occurs twice. -/
theorem Path.nodup (h : Path next p l) : l.Nodup := by
  induction l generalizing p with
  | nil => exact List.nodup_nil
  | cons y l ih =>
    refine List.nodup_cons.2 ⟨fun hy => ?_, ih h.2⟩
    -- the list after the second `y` would be the list after the first, and shorter
    obtain ⟨l₁, l₂, rfl, hp⟩ := h.2.mem_suffix hy
    have := (Path.unique h.2 (p := next y) hp.2)
    have hlen := congrArg List.length this
    simp at hlen
    omega

theorem path_congr (h : ∀ y ∈ l, next' y = next y) : Path next' p l ↔ Path next p l := by
  induction l generalizing p with
  | nil => rfl
  | cons y l ih =>
    simp only [path_cons, h y List.mem_cons_self]
    exact and_congr_right fun _ => ih fun z hz => h z (List.mem_cons_of_mem _ hz)

theorem Path.update_of_not_mem [DecidableEq α] (h : Path next p l) (hx : x ∉ l) (v : Option α) :
    Path (Function.update next x v) p l :=
  (path_congr fun y hy => by rw [Function.update_of_ne (show y ≠ x by rintro rfl; exact hx hy)]).2 h

theorem Path.snoc [DecidableEq α] (h : Path next p l) (hl : l ≠ []) (hx : x ∉ l) (hnx : next x = none) :
    Path (Function.update next (l.getLast hl) (some x)) p (l ++ [x]) := by
  induction l generalizing p with
  | nil => exact absurd rfl hl
  | cons y l ih =>
    refine ⟨h.1, ?_⟩
    cases l with
    | nil =>
      -- `y` is the last node
      have hxy : x ≠ y := fun e => hx (e ▸ List.mem_singleton_self y)
      simp [Function.update_of_ne hxy, hnx]
    | cons z l =>
      have hyl : y ≠ (z :: l).getLast (List.cons_ne_nil z l) := by
        intro e
        have hnd := (h.nodup)
        rw [List.nodup_cons] at hnd
        exact hnd.1 (e ▸ List.getLast_mem _)
      rw [List.getLast_cons (List.cons_ne_nil z l)]
      show Path _ (Function.update next _ (some x) y) (z :: l ++ [x])
      rw [Function.update_of_ne hyl]
      exact ih h.2 (List.cons_ne_nil z l) (fun hm => hx (List.mem_cons_of_mem _ hm))

/-! ### Pointers to pointers -/

/-- `*pp`: the head for `none`, the `next` field of `x` for `some x`. -/
def load (head : Option α) (next : α → Option α) : Option α → Option α
  | none => head
  | some x => next x

/-- `for(pp = &head; *pp; pp = &(*pp)->next);` with `k` turns of fuel. -/
def lastSlot (head : Option α) (next : α → Option α) : Nat → Option α → Option (Option α)
  | 0, _ => none
  | k + 1, pp =>
    match load head next pp with
    | none => some pp
    | some x => lastSlot head next k (some x)

/-- With more fuel than the list is long, the loop stops at the null pointer after its last node. -/
theorem lastSlot_eq {head : Option α} :
    ∀ {l : List α} {k : Nat} {pp : Option α}, Path next (load head next pp) l → l.length < k →
      lastSlot head next k pp = some (if h : l = [] then pp else some (l.getLast h))
  | [], k + 1, pp, h, _ => by simp [lastSlot, path_nil.1 h]
  | y :: l, k + 1, pp, h, hk => by
    rw [lastSlot, h.1]
    dsimp only
    rw [lastSlot_eq (show Path next (load head next (some y)) l from h.2) (by simp at hk; omega)]
    cases l with
    | nil => simp
    | cons z l => simp [List.getLast_cons]

end Slist
