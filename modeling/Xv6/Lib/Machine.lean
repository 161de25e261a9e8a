import Mathlib.Logic.Basic

/-!
# Transition systems

A system is a predicate on initial states and a step relation. `Reachable init step` collects the
states reached from an initial state by finitely many steps, and `Reachable.rec_inv` is the rule
every safety result of the development goes through: a property that holds initially and that
every step keeps holds in every reachable state. `run` replays a list of labels with a partial step
function; concrete traces are stated with it and turned into reachable states
by `Reachable.of_run`.
-/

namespace Machine

variable {σ ι : Type _}

/-- The states reachable from a state satisfying `init` by finitely many `step`s. -/
inductive Reachable (init : σ → Prop) (step : σ → σ → Prop) : σ → Prop
  | init {s : σ} : init s → Reachable init step s
  | step {s s' : σ} : Reachable init step s → step s s' → Reachable init step s'

/-- Replay the labels `ls` from `s` with the partial step function `next`. -/
def run (next : σ → ι → Option σ) : σ → List ι → Option σ
  | s, [] => some s
  | s, l :: ls => (next s l).bind fun s' => run next s' ls

@[simp] theorem run_nil (next : σ → ι → Option σ) (s : σ) : run next s [] = some s := rfl

theorem run_cons (next : σ → ι → Option σ) (s : σ) (l : ι) (ls : List ι) :
    run next s (l :: ls) = (next s l).bind fun s' => run next s' ls := rfl

theorem run_append (next : σ → ι → Option σ) (s : σ) (ls₁ ls₂ : List ι) :
    run next s (ls₁ ++ ls₂) = (run next s ls₁).bind fun s' => run next s' ls₂ := by
  induction ls₁ generalizing s with
  | nil => rfl
  | cons l ls ih =>
    rw [List.cons_append, run_cons, run_cons]
    cases next s l with
    | none => rfl
    | some s₁ => exact ih s₁

theorem run_of_fixed {next : σ → ι → Option σ} {s : σ} :
    ∀ {ls : List ι}, (∀ l ∈ ls, next s l = some s) → run next s ls = some s
  | [], _ => rfl
  | l :: ls, h => by
    rw [run_cons, h l List.mem_cons_self, Option.bind_some]
    exact run_of_fixed fun l' hl' => h l' (List.mem_cons_of_mem _ hl')

namespace Reachable

variable {init : σ → Prop} {step : σ → σ → Prop}

/-- The invariant rule, with the reachability of the pre-state available to the step case. -/
theorem rec_inv' (inv : σ → Prop) (h0 : ∀ s, init s → inv s)
    (h1 : ∀ s s', Reachable init step s → inv s → step s s' → inv s') {s : σ}
    (h : Reachable init step s) : inv s := by
  induction h with
  | init hs => exact h0 _ hs
  | step hr hst ih => exact h1 _ _ hr ih hst

/-- The invariant rule: what holds initially and is kept by every step holds everywhere. -/
theorem rec_inv (inv : σ → Prop) (h0 : ∀ s, init s → inv s)
    (h1 : ∀ s s', inv s → step s s' → inv s') {s : σ} (h : Reachable init step s) : inv s :=
  rec_inv' inv h0 (fun s s' _ => h1 s s') h

theorem trans {s s' : σ} (hs : Reachable init step s) (h : Reachable (· = s) step s') :
    Reachable init step s' := by
  induction h with
  | init e => exact e ▸ hs
  | step _ hst ih => exact ih.step hst

/-- A run of a step function that refines `step` stays among the reachable states. -/
theorem of_run {next : σ → ι → Option σ} (hnext : ∀ s l s', next s l = some s' → step s s') :
    ∀ {s s' : σ} {ls : List ι}, Reachable init step s → run next s ls = some s' →
      Reachable init step s'
  | s, s', [], hs, h => by
    simp only [run_nil, Option.some.injEq] at h
    exact h ▸ hs
  | s, s', l :: ls, hs, h => by
    rw [run_cons] at h
    cases hn : next s l with
    | none => simp [hn] at h
    | some s₁ =>
      rw [hn, Option.bind_some] at h
      exact of_run hnext (hs.step (hnext s l s₁ hn)) h

end Reachable

end Machine
