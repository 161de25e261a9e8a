import Mathlib.Data.List.Nodup

/-!
# Circular doubly-linked lists through a sentinel

Nodes are the values of a type `α`, and `next` and `prev` give each node its neighbours. A list
`l` of nodes hangs off the sentinel `h` as a circular doubly-linked list (`Circ`) when following
`next` from `h` visits `l` in order and comes back to `h`, no node occurs twice, and `prev` undoes
`next` on the ring. Such a list changes by two pointer updates: `unlink`, which takes a node out
with two writes, and `pushFront`, which puts a node after the sentinel with four. A scan that
follows `next` (or `prev`) from the sentinel until it comes back to it finds what `List.find?`
finds in `l` (or in its reverse).
-/

namespace Dlist

variable {α : Type _}

/-- Following `next` from `x` visits the nodes of `l` in order and then reaches `y`. -/
def Chain (next : α → α) : α → List α → α → Prop
  | x, [], y => next x = y
  | x, z :: l, y => next x = z ∧ Chain next z l y

section Chain

variable {next next' prev : α → α} {x x' y z : α} {l l₁ l₂ : List α}

@[simp] theorem chain_nil : Chain next x [] y ↔ next x = y := Iff.rfl

@[simp] theorem chain_cons : Chain next x (z :: l) y ↔ next x = z ∧ Chain next z l y := Iff.rfl

theorem chain_append : Chain next x (l₁ ++ z :: l₂) y ↔ Chain next x l₁ z ∧ Chain next z l₂ y := by
  induction l₁ generalizing x with
  | nil => simp
  | cons w l₁ ih => simp only [List.cons_append, chain_cons, ih, and_assoc]

theorem chain_congr (hx : next' x' = next x) (hl : ∀ s ∈ l, next' s = next s) :
    Chain next' x' l y ↔ Chain next x l y := by
  induction l generalizing x x' with
  | nil => simp [hx]
  | cons w l ih =>
    simp only [chain_cons, hx]
    exact and_congr_right fun _ =>
      ih (hl w List.mem_cons_self) fun s hs => hl s (List.mem_cons_of_mem _ hs)

theorem Chain.next_mem (h : Chain next x l y) : ∀ s ∈ x :: l, next s ∈ l ++ [y] := by
  induction l generalizing x with
  | nil =>
    intro s hs
    rw [List.mem_singleton.1 hs, chain_nil.1 h]
    exact List.mem_singleton_self y
  | cons w l ih =>
    obtain ⟨hw, h⟩ := h
    intro s hs
    rcases List.mem_cons.1 hs with rfl | hs
    · rw [hw]
      exact List.mem_cons_self
    · exact List.mem_cons_of_mem _ (ih h s hs)

theorem Chain.reverse (h : Chain next x l y) (hinv : ∀ s ∈ x :: l, prev (next s) = s) :
    Chain prev y l.reverse x := by
  induction l generalizing x with
  | nil =>
    have hx := hinv x List.mem_cons_self
    rw [chain_nil.1 h] at hx
    exact hx
  | cons w l ih =>
    obtain ⟨hw, h⟩ := h
    rw [List.reverse_cons, chain_append]
    refine ⟨ih h fun s hs => hinv s (List.mem_cons_of_mem _ hs), ?_⟩
    rw [chain_nil, ← hw]
    exact hinv x List.mem_cons_self

theorem Chain.exists_pred {t : α} (h : Chain next x l y) (ht : t ∈ l) :
    ∃ s ∈ x :: l, next s = t := by
  induction l generalizing x with
  | nil => exact absurd ht List.not_mem_nil
  | cons w l ih =>
    obtain ⟨hw, h⟩ := h
    rcases List.mem_cons.1 ht with rfl | ht
    · exact ⟨x, List.mem_cons_self, hw⟩
    · obtain ⟨s, hs, e⟩ := ih h ht
      exact ⟨s, List.mem_cons_of_mem _ hs, e⟩

end Chain

/-- The circular doubly-linked list through the sentinel `h` with the nodes `l`, first to last. -/
structure Circ (next prev : α → α) (h : α) (l : List α) : Prop where
  nodup : (h :: l).Nodup
  chain : Chain next h l h
  inv : ∀ s ∈ h :: l, prev (next s) = s

variable {next prev : α → α} {h b : α} {l : List α}

theorem circ_nil (hn : next h = h) (hp : prev h = h) : Circ next prev h [] := by
  refine ⟨List.nodup_singleton h, hn, fun s hs => ?_⟩
  rw [List.mem_singleton.1 hs, hn, hp]

theorem Circ.next_inj (hc : Circ next prev h l) {s t : α} (hs : s ∈ h :: l) (ht : t ∈ h :: l)
    (e : next s = next t) : s = t := by
  rw [← hc.inv s hs, ← hc.inv t ht, e]

theorem Circ.next_mem (hc : Circ next prev h l) {s : α} (hs : s ∈ h :: l) : next s ∈ h :: l := by
  have := hc.chain.next_mem s hs
  rw [List.mem_append, List.mem_singleton] at this
  rcases this with hm | rfl
  · exact List.mem_cons_of_mem _ hm
  · exact List.mem_cons_self

theorem Circ.chain_prev (hc : Circ next prev h l) : Chain prev h l.reverse h :=
  hc.chain.reverse hc.inv

section Find

variable {p p' : α → Bool} {j k : α}

theorem find?_erase_of_neg [DecidableEq α] (hk : p k = false) : (l.erase k).find? p = l.find? p := by
  induction l with
  | nil => rfl
  | cons x l ih =>
    by_cases e : x = k
    · subst e
      rw [List.erase_cons_head, List.find?_cons_of_neg (by simp [hk])]
    · rw [List.erase_cons_tail (by simpa using e), List.find?_cons, List.find?_cons, ih]

theorem find?_of_imp (h : l.find? p = some j) (hj : p' j = true)
    (himp : ∀ x ∈ l, x ≠ j → p' x = true → p x = true) : l.find? p' = some j := by
  obtain ⟨hpj, as, bs, rfl, has⟩ := List.find?_eq_some_iff_append.1 h
  refine List.find?_eq_some_iff_append.2 ⟨hj, as, bs, rfl, fun a ha => ?_⟩
  have hpa := has a ha
  -- the nodes before `j` are rejected by the old test, and `j` is not
  have haj : a ≠ j := fun e => by simp [e, hpj] at hpa
  cases hp' : p' a
  · rfl
  · simp [himp a (by simp [ha]) haj hp'] at hpa

theorem find?_eq_some_of_unique (hk : k ∈ l) (hp : p k = true) (hu : ∀ x ∈ l, p x = true → x = k) :
    l.find? p = some k := by
  obtain ⟨x, hx⟩ := Option.isSome_iff_exists.1 (List.find?_isSome.2 ⟨k, hk, hp⟩)
  rw [hx, hu x (List.mem_of_find?_eq_some hx) (List.find?_some hx)]

end Find

variable [DecidableEq α]

/-- `b->next->prev = b->prev; b->prev->next = b->next`. -/
def unlink (next prev : α → α) (b : α) : (α → α) × (α → α) :=
  let prev := Function.update prev (next b) (prev b)
  let next := Function.update next (prev b) (next b)
  (next, prev)

/-- `b->next = h->next; b->prev = h; h->next->prev = b; h->next = b`. -/
def pushFront (next prev : α → α) (h b : α) : (α → α) × (α → α) :=
  let next := Function.update next b (next h)
  let prev := Function.update prev b h
  let prev := Function.update prev (next h) b
  let next := Function.update next h b
  (next, prev)

/-- Taking a node out of the list, whose neighbours are then linked to each other. -/
theorem Circ.unlink (hc : Circ next prev h l) (hb : b ∈ l) :
    Circ (Dlist.unlink next prev b).1 (Dlist.unlink next prev b).2 h (l.erase b) := by
  obtain ⟨A, B, rfl⟩ := List.append_of_mem hb
  have hnd := hc.nodup
  rw [List.nodup_cons, List.nodup_append, List.nodup_cons] at hnd
  obtain ⟨hh, hAn, ⟨hbB, -⟩, hAB⟩ := hnd
  have hhA : h ∉ A := fun m => hh (List.mem_append_left _ m)
  have hhb : h ≠ b := fun e => hh (e ▸ List.mem_append_right _ List.mem_cons_self)
  have hhB : h ∉ B := fun m => hh (List.mem_append_right _ (List.mem_cons_of_mem _ m))
  have hbA : b ∉ A := fun m => hAB b m b List.mem_cons_self rfl
  have hbr : b ∈ h :: (A ++ b :: B) := List.mem_cons_of_mem _ hb
  obtain ⟨hA, hB⟩ := chain_append.1 hc.chain
  -- the node after `b`, in `B` or the sentinel
  have hnb : next b ∈ B ++ [h] := hB.next_mem b List.mem_cons_self
  have hnbb : next b ≠ b := fun e => by
    rw [e, List.mem_append, List.mem_singleton] at hnb
    exact hnb.elim hbB (fun e' => hhb e'.symm)
  -- the node `z` before `b`: the sentinel or the last of `A`
  obtain ⟨z, hz, hzb, hchain⟩ : ∃ z ∈ h :: A, next z = b ∧
      ∀ next' : α → α, next' z = next b → (∀ s ∈ h :: (A ++ B), s ≠ z → next' s = next s) →
        Chain next' h (A ++ B) h := by
    rcases List.eq_nil_or_concat' A with rfl | ⟨A₀, w, rfl⟩
    · refine ⟨h, List.mem_cons_self, hA, fun next' hz hs => ?_⟩
      exact (chain_congr hz fun s hs' => hs s (List.mem_cons_of_mem _ hs') fun e => hhB (e ▸ hs')).2 hB
    · obtain ⟨hA₀, hw⟩ := chain_append.1 hA
      refine ⟨w, List.mem_cons_of_mem _ (List.mem_append_right _ List.mem_cons_self), hw, fun next' hz hs => ?_⟩
      have hwA₀ : w ∉ A₀ := fun m => (List.nodup_append.1 hAn).2.2 w m w (List.mem_singleton_self w) rfl
      have hwB : w ∉ B := fun m =>
        hAB w (List.mem_append_right _ (List.mem_singleton_self w)) w (List.mem_cons_of_mem _ m) rfl
      have hhw : h ≠ w := fun e => hhA (by rw [e]; exact List.mem_append_right _ (List.mem_singleton_self w))
      rw [List.append_assoc, List.singleton_append, chain_append]
      refine ⟨(chain_congr (hs h List.mem_cons_self hhw) fun s hs' => ?_).2 hA₀,
        (chain_congr hz fun s hs' => ?_).2 hB⟩
      · exact hs s (by simp [hs']) fun e => hwA₀ (e ▸ hs')
      · exact hs s (by simp [hs']) fun e => hwB (e ▸ hs')
  have hpb : prev b = z := hzb ▸ hc.inv z (List.mem_cons.2 ((List.mem_cons.1 hz).imp_right (List.mem_append_left _)))
  -- what the two writes leave
  have hnext : (Dlist.unlink next prev b).1 = Function.update next z (next b) := by
    simp only [unlink, Function.update_of_ne hnbb.symm, hpb]
  have hprev : (Dlist.unlink next prev b).2 = Function.update prev (next b) z := by
    simp only [unlink, hpb]
  rw [List.erase_append_right _ hbA, List.erase_cons_head, hnext, hprev]
  have hring : ∀ s ∈ h :: (A ++ B), s ∈ h :: (A ++ b :: B) ∧ s ≠ b := by
    intro s hs
    rcases List.mem_cons.1 hs with rfl | hs
    · exact ⟨List.mem_cons_self, hhb⟩
    · rcases List.mem_append.1 hs with hs | hs
      · exact ⟨by simp [hs], fun e => hbA (e ▸ hs)⟩
      · exact ⟨by simp [hs], fun e => hbB (e ▸ hs)⟩
  refine ⟨?_, hchain _ (Function.update_self ..) fun s _ e => Function.update_of_ne e _ _, fun s hs => ?_⟩
  · exact hc.nodup.sublist (((List.Sublist.refl A).append (List.sublist_cons_self b B)).cons_cons h)
  · by_cases e : s = z
    · subst e
      rw [Function.update_self, Function.update_self]
    · rw [Function.update_of_ne e]
      have hne : next s ≠ next b := fun e' => (hring s hs).2 (hc.next_inj (hring s hs).1 hbr e')
      rw [Function.update_of_ne hne]
      exact hc.inv s (hring s hs).1

/-- Putting a node that is not on the ring right after the sentinel. -/
theorem Circ.pushFront (hc : Circ next prev h l) (hb : b ∉ h :: l) :
    Circ (Dlist.pushFront next prev h b).1 (Dlist.pushFront next prev h b).2 h (b :: l) := by
  have hhb : h ≠ b := fun e => hb (e ▸ List.mem_cons_self)
  have hbl : b ∉ l := fun m => hb (List.mem_cons_of_mem _ m)
  -- the old first node, or the sentinel, is on the ring and so is not `b`
  have hfb : next h ≠ b := fun e => hb (e ▸ hc.next_mem List.mem_cons_self)
  have hnext : (Dlist.pushFront next prev h b).1 = Function.update (Function.update next b (next h)) h b := rfl
  have hprev : (Dlist.pushFront next prev h b).2 = Function.update (Function.update prev b h) (next h) b := by
    show Function.update (Function.update prev b h) (Function.update next b (next h) h) b = _
    rw [Function.update_of_ne hhb]
  rw [hnext, hprev]
  have hnd := List.nodup_cons.1 hc.nodup
  refine ⟨List.nodup_cons.2 ⟨?_, List.nodup_cons.2 ⟨hbl, hnd.2⟩⟩, ?_, fun s hs => ?_⟩
  · rw [List.mem_cons, not_or]
    exact ⟨hhb, hnd.1⟩
  · refine ⟨Function.update_self .., (chain_congr ?_ fun s hs => ?_).2 hc.chain⟩
    · rw [Function.update_of_ne hhb.symm, Function.update_self]
    · have hsh : s ≠ h := fun e => hnd.1 (e ▸ hs)
      rw [Function.update_of_ne hsh, Function.update_of_ne fun (e : s = b) => hbl (e ▸ hs)]
  · rcases List.mem_cons.1 hs with rfl | hs
    · -- the sentinel now leads to `b`, which leads back
      rw [Function.update_self, Function.update_of_ne hfb.symm, Function.update_self]
    rcases List.mem_cons.1 hs with rfl | hs
    · rw [Function.update_of_ne hhb.symm, Function.update_self, Function.update_self]
    · have hsr : s ∈ h :: l := List.mem_cons_of_mem _ hs
      have hsh : s ≠ h := fun e => hnd.1 (e ▸ hs)
      have hns : next s ≠ next h := fun e => hsh (hc.next_inj hsr List.mem_cons_self e)
      have hnsb : next s ≠ b := fun e => hb (e ▸ hc.next_mem hsr)
      rw [Function.update_of_ne hsh, Function.update_of_ne fun (e : s = b) => hbl (e ▸ hs), Function.update_of_ne hns,
        Function.update_of_ne hnsb]
      exact hc.inv s hsr

theorem Circ.foldl_pushFront {xs : List α} (hc : Circ next prev h l) (hxs : xs.Nodup) (hx : ∀ b ∈ xs, b ∉ h :: l) :
    Circ (xs.foldl (fun np b => Dlist.pushFront np.1 np.2 h b) (next, prev)).1
      (xs.foldl (fun np b => Dlist.pushFront np.1 np.2 h b) (next, prev)).2 h (xs.reverse ++ l) := by
  induction xs generalizing next prev l with
  | nil => exact hc
  | cons b xs ih =>
    obtain ⟨hbxs, hxs⟩ := List.nodup_cons.1 hxs
    have hb := hx b List.mem_cons_self
    rw [List.foldl_cons, List.reverse_cons, List.append_assoc, List.singleton_append]
    refine ih (hc.pushFront hb) hxs fun x hx' => ?_
    -- a later node is neither `b` nor on the ring `b` joined
    have hxb : x ≠ b := fun e => hbxs (e ▸ hx')
    have hxr := hx x (List.mem_cons_of_mem _ hx')
    simp only [List.mem_cons, not_or] at hxr ⊢
    exact ⟨hxr.1, hxb, hxr.2⟩

/-- `for(b = start; b != h; b = step(b)) if(p(b)) return b;`, for at most `k` passes. -/
def scan (step : α → α) (h : α) (p : α → Bool) : Nat → α → Option α
  | 0, _ => none
  | k + 1, b => if b = h then none else if p b then some b else scan step h p k (step b)

/-- A scan along a chain that ends at the sentinel finds what `List.find?` finds. -/
theorem Chain.scan {step : α → α} {x : α} (hc : Chain step x l h) (hh : h ∉ l) (p : α → Bool) :
    ∀ {k : Nat}, l.length < k → Dlist.scan step h p k (step x) = l.find? p := by
  induction l generalizing x with
  | nil =>
    intro k hk
    obtain ⟨k, rfl⟩ : ∃ k', k = k' + 1 := ⟨k - 1, by simp at hk; omega⟩
    rw [chain_nil.1 hc, Dlist.scan, if_pos rfl, List.find?_nil]
  | cons w l ih =>
    intro k hk
    obtain ⟨hw, hc⟩ := hc
    obtain ⟨k, rfl⟩ : ∃ k', k = k' + 1 := ⟨k - 1, by simp at hk; omega⟩
    have hwh : w ≠ h := fun e => hh (e ▸ List.mem_cons_self)
    rw [hw, Dlist.scan, if_neg hwh]
    by_cases hp : p w
    · rw [if_pos hp, List.find?_cons_of_pos hp]
    · rw [if_neg hp, List.find?_cons_of_neg hp]
      exact ih hc (fun m => hh (List.mem_cons_of_mem _ m)) (by simp at hk; omega)

theorem scan_some {step : α → α} {p : α → Bool} :
    ∀ {k : Nat} {x b : α}, Dlist.scan step h p k x = some b → p b = true
  | 0, _, _, e => absurd e (by simp [Dlist.scan])
  | k + 1, x, b, e => by
    rw [Dlist.scan] at e
    split_ifs at e with hx hp
    · exact Option.some.inj e ▸ hp
    · exact scan_some e

end Dlist
