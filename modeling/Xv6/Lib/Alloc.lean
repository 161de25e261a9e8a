import Mathlib.Data.List.Nodup
import Mathlib.Data.List.Pairwise
import Mathlib.Data.List.Perm.Basic
import Mathlib.Logic.Function.Basic

/-!
# Accounting for an allocator

An allocator keeps a mark per resource, used or free, and hands resources out to owners. The marks
are exact when the resources handed out, listed owner after owner in `owned`, are listed once each,
none of them is reserved, and, over the domain the marks cover, a resource is marked used exactly
when it is reserved or handed out (`Accounts`). Handing a free resource to an owner (`Accounts.alloc`)
and taking an owner's resources back (`Accounts.free`) keep the marks exact.

The owners' lists are read off a state one owner at a time, so `owned` is a `flatMap` over the
owners; `perm_flatMap_update` says how it changes when one owner's list does. A table's resources
are read off its entries, those that pass a test, so they are a `filter` and a `map`;
`perm_filter_map_insert` says how the list grows when one more entry passes.
-/

namespace Alloc

variable {α ι : Type _}

theorem perm_flatMap_update [DecidableEq ι] {xs : List ι} (hxs : xs.Nodup) {i : ι} (hi : i ∈ xs)
    (f : ι → List α) (l : List α) :
    (xs.flatMap (Function.update f i l)).Perm (l ++ xs.flatMap (Function.update f i [])) := by
  induction xs with
  | nil => cases hi
  | cons x xs ih =>
    obtain ⟨hx, hxs⟩ := List.nodup_cons.1 hxs
    simp only [List.flatMap_cons]
    by_cases hxi : x = i
    · -- the replaced owner: the rest of the list does not see the update
      subst hxi
      have hrest : xs.flatMap (Function.update f x l) = xs.flatMap (Function.update f x []) :=
        List.flatMap_congr fun y hy => by
          rw [Function.update_of_ne (ne_of_mem_of_not_mem hy hx),
            Function.update_of_ne (ne_of_mem_of_not_mem hy hx)]
      rw [Function.update_self, Function.update_self, hrest, List.nil_append]
    · have hi' : i ∈ xs := (List.mem_cons.1 hi).resolve_left (Ne.symm hxi)
      rw [Function.update_of_ne hxi, Function.update_of_ne hxi]
      exact ((ih hxs hi').append_left _).trans (List.perm_append_comm_assoc _ _ _)

theorem perm_flatMap_self [DecidableEq ι] {xs : List ι} (hxs : xs.Nodup) {i : ι} (hi : i ∈ xs)
    (f : ι → List α) : (xs.flatMap f).Perm (f i ++ xs.flatMap (Function.update f i [])) := by
  have h := perm_flatMap_update hxs hi f (f i)
  rwa [Function.update_eq_self] at h

theorem disjoint_of_nodup_flatMap {xs : List ι} {f : ι → List α} (h : (xs.flatMap f).Nodup)
    {i j : ι} (hi : i ∈ xs) (hj : j ∈ xs) (hij : i ≠ j) : (f i).Disjoint (f j) := by
  have : Std.Symm (Function.onFun List.Disjoint f) := ⟨fun _ _ h => List.disjoint_symm h⟩
  exact (List.nodup_flatMap.1 h).2.forall hi hj hij

theorem filter_map_congr {xs : List ι} {p p' : ι → Bool} {f f' : ι → α}
    (h : ∀ i ∈ xs, p' i = p i ∧ (p i = true → f' i = f i)) :
    (xs.filter p').map f' = (xs.filter p).map f := by
  rw [List.filter_congr fun i hi => (h i hi).1]
  exact List.map_congr_left fun i hi => (h i (List.mem_of_mem_filter hi)).2 (List.of_mem_filter hi)

theorem perm_take_middle (A T F L : List α) (q d : α) :
    (A ++ d :: (T ++ q :: F) ++ L).Perm (q :: A ++ d :: (T ++ F) ++ L) := by
  simp only [List.cons_append, List.append_assoc]
  have hin : (d :: (T ++ q :: (F ++ L))).Perm (q :: d :: (T ++ (F ++ L))) :=
    (List.perm_middle.cons d).trans (List.Perm.swap q d _)
  exact (hin.append_left A).trans List.perm_middle

theorem perm_filter_map_insert {xs : List ι} (hxs : xs.Nodup) {i : ι} (hi : i ∈ xs)
    {p p' : ι → Bool} {f f' : ι → α} (hp : p i = false) (hp' : p' i = true)
    (h : ∀ j ∈ xs, j ≠ i → p' j = p j ∧ (p j = true → f' j = f j)) :
    ((xs.filter p').map f').Perm (f' i :: (xs.filter p).map f) := by
  induction xs with
  | nil => cases hi
  | cons x xs ih =>
    obtain ⟨hx, hxs⟩ := List.nodup_cons.1 hxs
    by_cases hxi : x = i
    · -- the entry that starts to pass: the rest reads as before
      subst hxi
      have hrest := @filter_map_congr _ _ _ _ _ f f' fun j hj => h j (List.mem_cons_of_mem _ hj)
        (ne_of_mem_of_not_mem hj hx)
      rw [List.filter_cons_of_pos hp', List.filter_cons_of_neg (by simp [hp]), List.map_cons, hrest]
    · have hi' : i ∈ xs := (List.mem_cons.1 hi).resolve_left (Ne.symm hxi)
      have ih' := ih hxs hi' fun j hj => h j (List.mem_cons_of_mem _ hj)
      obtain ⟨hpx, hfx⟩ := h x List.mem_cons_self hxi
      rw [List.filter_cons, List.filter_cons, hpx]
      cases hpx' : p x
      · simpa using ih'
      · simp only [if_true, List.map_cons]
        rw [hfx hpx']
        exact (ih'.cons _).trans (List.Perm.swap _ _ _)

/-- The marks `used` are exact over `dom`, with `reserved` resources and the `owned` ones handed
out. -/
structure Accounts (dom used reserved : α → Prop) (owned : List α) : Prop where
  nodup : owned.Nodup
  mem : ∀ a ∈ owned, dom a ∧ ¬ reserved a
  used_iff : ∀ a, dom a → (used a ↔ reserved a ∨ a ∈ owned)

namespace Accounts

variable {dom used used' reserved : α → Prop} {owned owned' : List α}

theorem used_of_mem (h : Accounts dom used reserved owned) {a : α} (ha : a ∈ owned) : used a :=
  (h.used_iff a (h.mem a ha).1).2 (Or.inr ha)

theorem free_of_not_used (h : Accounts dom used reserved owned) {a : α} (hd : dom a) (hu : ¬ used a) :
    ¬ reserved a ∧ a ∉ owned := by
  rw [h.used_iff a hd, not_or] at hu
  exact hu

theorem congr (h : Accounts dom used reserved owned) (hp : owned.Perm owned')
    (hu : ∀ a, dom a → (used' a ↔ used a)) : Accounts dom used' reserved owned' where
  nodup := hp.nodup_iff.1 h.nodup
  mem a ha := h.mem a (hp.mem_iff.2 ha)
  used_iff a hd := by rw [hu a hd, h.used_iff a hd, hp.mem_iff]

theorem alloc (h : Accounts dom used reserved owned) {a : α} (hd : dom a) (hu : ¬ used a)
    (hp : owned'.Perm (a :: owned)) (hmark : ∀ b, dom b → (used' b ↔ used b ∨ b = a)) :
    Accounts dom used' reserved owned' := by
  obtain ⟨hr, hown⟩ := h.free_of_not_used hd hu
  refine ⟨hp.nodup_iff.2 (List.nodup_cons.2 ⟨hown, h.nodup⟩), fun b hb => ?_, fun b hb => ?_⟩
  · rcases List.mem_cons.1 (hp.mem_iff.1 hb) with rfl | hb
    · exact ⟨hd, hr⟩
    · exact h.mem b hb
  · rw [hmark b hb, h.used_iff b hb, hp.mem_iff, List.mem_cons]
    tauto

theorem free (h : Accounts dom used reserved owned) {xs : List α} (hp : owned.Perm (xs ++ owned'))
    (hmark : ∀ b, dom b → (used' b ↔ used b ∧ b ∉ xs)) : Accounts dom used' reserved owned' := by
  have hnd : (xs ++ owned').Nodup := hp.nodup_iff.1 h.nodup
  have hmem : ∀ b ∈ xs ++ owned', dom b ∧ ¬ reserved b := fun b hb => h.mem b (hp.mem_iff.2 hb)
  refine ⟨(List.nodup_append.1 hnd).2.1, fun b hb => hmem b (List.mem_append_right _ hb), fun b hb => ?_⟩
  rw [hmark b hb, h.used_iff b hb, hp.mem_iff, List.mem_append]
  have hx : b ∈ xs → ¬ reserved b ∧ b ∉ owned' := fun hx =>
    ⟨(hmem b (List.mem_append_left _ hx)).2, fun ho => List.disjoint_of_nodup_append hnd hx ho⟩
  tauto

end Accounts

end Alloc
