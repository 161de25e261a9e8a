/-!
# Computations that can fail

Code that can stop with an error (a kernel `panic`, a failed check) is a computation in
`Except ε`. These are the equations that evaluate its `do` blocks on a known outcome, and the
inversion rule that takes a successful bind apart.
-/

namespace Except

variable {ε α β : Type _}

@[simp] theorem ok_bind (a : α) (f : α → Except ε β) : (Except.ok a >>= f) = f a := rfl

@[simp] theorem error_bind (e : ε) (f : α → Except ε β) : (Except.error e >>= f) = .error e := rfl

@[simp] theorem pure_eq_ok (a : α) : (pure a : Except ε α) = .ok a := rfl

@[simp] theorem throw_eq_error (e : ε) : (throw e : Except ε α) = .error e := rfl

theorem bind_eq_ok {x : Except ε α} {f : α → Except ε β} {b : β} :
    (x >>= f) = .ok b ↔ ∃ a, x = .ok a ∧ f a = .ok b := by
  cases x with
  | error e => simp
  | ok a => simp

theorem discard_throw_ne_ok {γ : Type _} (x : Except ε γ) (e : ε) (f : PUnit → Except ε β) (b : β) :
    (discard x >>= fun _ => throw e >>= f) ≠ .ok b := by
  cases x <;> simp [discard, Functor.mapConst, Except.map]

theorem eq_ok_of_toOption {x : Except ε α} {a : α} (h : x.toOption = some a) : x = .ok a := by
  cases x with
  | error e => simp [Except.toOption] at h
  | ok b =>
    simp only [Except.toOption, Option.some.injEq] at h
    rw [h]

theorem exists_of_toOption_map {σ : Type _} {x : Except ε (α × σ)} {s : σ} (h : x.toOption.map Prod.snd = some s) :
    ∃ a, x = .ok (a, s) := by
  obtain ⟨⟨a, s'⟩, hx, rfl⟩ := Option.map_eq_some_iff.1 h
  exact ⟨a, eq_ok_of_toOption hx⟩

end Except

namespace Option

variable {α : Type _}

theorem exists_of_map_decide {o : Option α} {p : α → Prop} [DecidablePred p]
    (h : o.map (fun a => decide (p a)) = some true) : ∃ a, o = some a ∧ p a := by
  cases o with
  | none => simp at h
  | some a => exact ⟨a, rfl, by simpa using h⟩

end Option
