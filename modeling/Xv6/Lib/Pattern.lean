import Mathlib.Data.List.Basic

/-!
# Patterns of single-symbol items

A pattern is a list of items, each a class of symbols matched once (`one p`) or any number of
times (`star p`). `Lang ps w` is the language of the pattern, given by its four rules, with no
reference to any matching procedure. `Lead ps whole w` says that `w` begins with a word of the
language, and is one when `whole` holds: what a matcher that reads a pattern at the front of a
text decides. The three `lead_*_iff` lemmas peel one item off the pattern; a backtracking matcher
is proved correct by following its recursion through them.
-/

namespace Pattern

/-- One item of a pattern: a class of symbols matched once, or any number of times. -/
inductive Item (α : Type) where
  | one (p : α → Bool)
  | star (p : α → Bool)

/-- The words of a pattern. -/
inductive Lang {α : Type} : List (Item α) → List α → Prop where
  | nil : Lang [] []
  | one {p ps x w} : p x = true → Lang ps w → Lang (.one p :: ps) (x :: w)
  | skip {p ps w} : Lang ps w → Lang (.star p :: ps) w
  | more {p ps x w} : p x = true → Lang (.star p :: ps) w → Lang (.star p :: ps) (x :: w)

variable {α : Type} {p : α → Bool} {ps : List (Item α)} {w : List α} {whole : Bool}

@[simp] theorem lang_nil_iff : Lang ([] : List (Item α)) w ↔ w = [] := by
  constructor
  · rintro ⟨⟩
    rfl
  · rintro rfl
    exact .nil

theorem lang_one_iff : Lang (.one p :: ps) w ↔ ∃ x w', w = x :: w' ∧ p x = true ∧ Lang ps w' := by
  constructor
  · rintro (_ | ⟨hx, hw⟩)
    exact ⟨_, _, rfl, hx, hw⟩
  · rintro ⟨x, w', rfl, hx, hw⟩
    exact .one hx hw

theorem lang_star_iff :
    Lang (.star p :: ps) w ↔ ∃ u v, w = u ++ v ∧ (∀ x ∈ u, p x = true) ∧ Lang ps v := by
  constructor
  · -- on the derivation: each `more` adds one symbol to the run
    intro h
    generalize hq : (Item.star p :: ps) = q at h
    induction h with
    | nil => cases hq
    | one _ _ => cases hq
    | skip hw => cases hq; exact ⟨[], _, rfl, by simp, hw⟩
    | more hx _ ih =>
      cases hq
      obtain ⟨u, v, rfl, hu, hv⟩ := ih rfl
      refine ⟨_ :: u, v, rfl, ?_, hv⟩
      simpa [hx] using hu
  · -- on the run
    rintro ⟨u, v, rfl, hu, hv⟩
    induction u with
    | nil => exact .skip hv
    | cons x u ih =>
      simp only [List.mem_cons, forall_eq_or_imp] at hu
      exact .more hu.1 (ih hu.2)

/-- `w` begins with a word of the pattern, and is one when `whole` holds. -/
def Lead (ps : List (Item α)) (whole : Bool) (w : List α) : Prop :=
  ∃ u v, w = u ++ v ∧ Lang ps u ∧ (whole = true → v = [])

theorem lead_nil_iff : Lead ([] : List (Item α)) whole w ↔ (whole = true → w = []) := by
  simp [Lead]

theorem lead_one_iff :
    Lead (.one p :: ps) whole w ↔ ∃ x w', w = x :: w' ∧ p x = true ∧ Lead ps whole w' := by
  simp only [Lead, lang_one_iff]
  constructor
  · rintro ⟨_, v, rfl, ⟨x, u, rfl, hx, hu⟩, hv⟩
    exact ⟨x, u ++ v, rfl, hx, u, v, rfl, hu, hv⟩
  · rintro ⟨x, _, rfl, hx, u, v, rfl, hu, hv⟩
    exact ⟨x :: u, v, rfl, ⟨x, u, rfl, hx, hu⟩, hv⟩

theorem lead_star_iff :
    Lead (.star p :: ps) whole w ↔
      ∃ u v, w = u ++ v ∧ (∀ x ∈ u, p x = true) ∧ Lead ps whole v := by
  simp only [Lead, lang_star_iff]
  constructor
  · rintro ⟨_, v, rfl, ⟨u₁, u₂, rfl, hu₁, hu₂⟩, hv⟩
    exact ⟨u₁, u₂ ++ v, by simp, hu₁, u₂, v, rfl, hu₂, hv⟩
  · rintro ⟨u₁, _, rfl, hu₁, u₂, v, rfl, hu₂, hv⟩
    exact ⟨u₁ ++ u₂, v, by simp, ⟨u₁, u₂, rfl, hu₁, hu₂⟩, hv⟩

end Pattern
