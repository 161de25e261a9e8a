import Mathlib.Logic.Function.Basic
import Mathlib.Data.List.Basic

/-!
# Sequences of writes to a store

A store is a function from locations to values, and a write replaces one location's value.
`applyWrites ws d` performs the writes `ws` in order. The lemmas say which write a location ends up
with: the last one to it, or none, in which case it keeps its old value.
-/

namespace Writes

variable {α β : Type _} [DecidableEq α]

/-- Perform the writes `ws` on `d`, first to last. -/
def applyWrites (ws : List (α × β)) (d : α → β) : α → β :=
  ws.foldl (fun d w => Function.update d w.1 w.2) d

@[simp] theorem applyWrites_nil (d : α → β) : applyWrites [] d = d := rfl

@[simp] theorem applyWrites_cons (w : α × β) (ws : List (α × β)) (d : α → β) :
    applyWrites (w :: ws) d = applyWrites ws (Function.update d w.1 w.2) := rfl

theorem applyWrites_append (ws vs : List (α × β)) (d : α → β) :
    applyWrites (ws ++ vs) d = applyWrites vs (applyWrites ws d) := by
  simp [applyWrites, List.foldl_append]

theorem applyWrites_of_not_mem {ws : List (α × β)} {a : α} (h : ∀ w ∈ ws, w.1 ≠ a) (d : α → β) :
    applyWrites ws d a = d a := by
  induction ws generalizing d with
  | nil => rfl
  | cons w ws ih =>
    rw [applyWrites_cons, ih (fun w' hw' => h w' (List.mem_cons_of_mem _ hw'))]
    exact Function.update_of_ne (h w List.mem_cons_self).symm _ _

theorem applyWrites_congr (ws : List (α × β)) {d d' : α → β} {a : α}
    (h : (∃ w ∈ ws, w.1 = a) ∨ d a = d' a) : applyWrites ws d a = applyWrites ws d' a := by
  induction ws generalizing d d' with
  | nil =>
    rcases h with ⟨w, hw, _⟩ | h
    · simp at hw
    · exact h
  | cons w ws ih =>
    simp only [applyWrites_cons]
    apply ih
    by_cases hw : w.1 = a
    · subst hw; right; simp
    · rcases h with ⟨w', hw', hwa⟩ | h
      · rcases List.mem_cons.1 hw' with rfl | hw'
        · exact absurd hwa hw
        · exact .inl ⟨w', hw', hwa⟩
      · right; simp [Function.update_of_ne (Ne.symm hw), h]

end Writes
