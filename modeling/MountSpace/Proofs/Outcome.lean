import MountSpace.Action
import Mathlib.Data.List.Forall2

/-!
# Outcomes

What the outcome of several steps says of each of them.  Steps that only fail or succeed are taken
apart from a success, actions from whatever comes of them.

Main statements: `bind_eq_ok`, `forall₂_of_mapM`, `Action.eval_bind_cases`.
-/

namespace MountSpace

section Except

variable {ε δ α β : Type} {x : Except ε α} {a : α} {b : β}

theorem bind_eq_ok {f : α → Except ε β} : x >>= f = .ok b ↔ ∃ a, x = .ok a ∧ f a = .ok b := by
  cases x <;> simp [bind, Except.bind]

theorem bind_eq_error {f : α → Except ε β} {e : ε} : x >>= f = .error e ↔
    x = .error e ∨ ∃ a, x = .ok a ∧ f a = .error e := by
  cases x <;> simp [bind, Except.bind]

theorem map_eq_ok {f : α → β} : f <$> x = .ok b ↔ ∃ a, x = .ok a ∧ f a = b := by
  cases x <;> simp [Functor.map, Except.map]

theorem map_eq_error {f : α → β} {e : ε} : f <$> x = .error e ↔ x = .error e := by
  cases x <;> simp [Functor.map, Except.map]

theorem mapError_eq_ok {f : ε → δ} : x.mapError f = .ok a ↔ x = .ok a := by
  cases x <;> simp [Except.mapError]

theorem mapError_eq_error {f : ε → δ} {e : δ} :
    x.mapError f = .error e ↔ ∃ cause, x = .error cause ∧ f cause = e := by
  cases x <;> simp [Except.mapError]

/-- A list that is gone through to its end is answered item by item. -/
theorem forall₂_of_mapM {f : α → Except ε β} {xs : List α} {ys : List β}
    (h : xs.mapM f = .ok ys) : List.Forall₂ (fun x y => f x = .ok y) xs ys := by
  induction xs generalizing ys with
  | nil => cases h; exact .nil
  | cons x xs ih =>
    rw [List.mapM_cons] at h
    obtain ⟨y, hy, h⟩ := bind_eq_ok.mp h
    obtain ⟨rest, hrest, h⟩ := bind_eq_ok.mp h
    cases h
    exact .cons hy (ih hrest)

/-- Where going through a list ends early, an item is to blame. -/
theorem exists_error_of_mapM {f : α → Except ε β} {xs : List α} {e : ε}
    (h : xs.mapM f = .error e) : ∃ x ∈ xs, f x = .error e := by
  induction xs with
  | nil => cases h
  | cons x xs ih =>
    rw [List.mapM_cons] at h
    cases hx : f x with
    | error cause =>
      rw [hx] at h
      cases h
      exact ⟨x, List.mem_cons_self, hx⟩
    | ok y =>
      rw [hx] at h
      cases hrest : xs.mapM f with
      | error cause =>
        simp only [hrest, bind, Except.bind] at h
        cases h
        obtain ⟨x', hmem, hfail⟩ := ih hrest
        exact ⟨x', List.mem_cons_of_mem _ hmem, hfail⟩
      | ok ys =>
        simp only [hrest, bind, Except.bind] at h
        cases h

end Except

namespace Action

variable {ε σ α β : Type}

@[simp] theorem eval_get (s : σ) : (get : Action ε σ σ).eval s = (.ok s, s) := rfl

@[simp] theorem eval_modify (f : σ → σ) (s : σ) :
    (modify f : Action ε σ Unit).eval s = (.ok (), f s) := rfl

/-- An action after another has run when the first failed, or ran from where the first ended. -/
theorem eval_bind_cases {a : Action ε σ α} {f : α → Action ε σ β} {s t : σ} {r : Except ε β}
    (h : (a >>= f).eval s = (r, t)) :
    (∃ e, a.eval s = (.error e, t) ∧ r = .error e) ∨
      ∃ x u, a.eval s = (.ok x, u) ∧ (f x).eval u = (r, t) := by
  rw [eval_bind] at h
  rcases ha : a.eval s with ⟨e | x, u⟩ <;> rw [ha] at h
  · cases h
    exact .inl ⟨e, rfl, rfl⟩
  · exact .inr ⟨x, u, rfl, h⟩

theorem eval_ofExcept_cases {x : Except ε α} {f : α → Action ε σ β} {s t : σ} {r : Except ε β}
    (h : (ofExcept x >>= f).eval s = (r, t)) :
    (∃ e, x = .error e ∧ r = .error e ∧ t = s) ∨ ∃ a, x = .ok a ∧ (f a).eval s = (r, t) := by
  cases x with
  | error e => cases h; exact .inl ⟨e, rfl, rfl, rfl⟩
  | ok a => exact .inr ⟨a, rfl, h⟩

/-- A check fails at once or lets the rest run. -/
theorem eval_check_cases {c : Prop} [Decidable c] {e : ε} {f : Unit → Action ε σ β} {s t : σ}
    {r : Except ε β} (h : (if c then throw e >>= f else f () : Action ε σ β).eval s = (r, t)) :
    (c ∧ r = .error e ∧ t = s) ∨ (¬c ∧ (f ()).eval s = (r, t)) := by
  split at h
  · rename_i hc
    cases h
    exact .inl ⟨hc, rfl, rfl⟩
  · rename_i hc
    exact .inr ⟨hc, h⟩

theorem eval_bind_eq_ok {a : Action ε σ α} {f : α → Action ε σ β} {s t : σ} {b : β}
    (h : (a >>= f).eval s = (.ok b, t)) :
    ∃ x u, a.eval s = (.ok x, u) ∧ (f x).eval u = (.ok b, t) := by
  rcases eval_bind_cases h with ⟨e, -, hf⟩ | hrest
  · cases hf
  · exact hrest

theorem eval_ofExcept_eq_ok {x : Except ε α} {f : α → Action ε σ β} {s t : σ} {b : β}
    (h : (ofExcept x >>= f).eval s = (.ok b, t)) :
    ∃ a, x = .ok a ∧ (f a).eval s = (.ok b, t) := by
  rcases eval_ofExcept_cases h with ⟨e, -, hf, -⟩ | hrest
  · cases hf
  · exact hrest

theorem eval_check_eq_ok {c : Prop} [Decidable c] {e : ε} {f : Unit → Action ε σ β} {s t : σ}
    {b : β} (h : (if c then throw e >>= f else f () : Action ε σ β).eval s = (.ok b, t)) :
    ¬c ∧ (f ()).eval s = (.ok b, t) := by
  rcases eval_check_cases h with ⟨-, hf, -⟩ | hrest
  · cases hf
  · exact hrest

theorem eval_map (f : α → β) (a : Action ε σ α) (s : σ) :
    (f <$> a).eval s = ((a.eval s).1.map f, (a.eval s).2) := by
  have h : (f <$> a) = a >>= fun x => pure (f x) := rfl
  rw [h, eval_bind]
  rcases a.eval s with ⟨e | x, u⟩ <;> rfl

theorem eval_map_eq_ok {f : α → β} {a : Action ε σ α} {s t : σ} {y : β}
    (h : (f <$> a).eval s = (.ok y, t)) : ∃ x, a.eval s = (.ok x, t) ∧ y = f x := by
  rw [eval_map] at h
  rcases ha : a.eval s with ⟨e | x, u⟩ <;> rw [ha] at h <;> cases h
  exact ⟨x, rfl, rfl⟩

/-- Handing on what an action gives back changes nothing else. -/
theorem eval_return_cases {f : α → β} {a : Action ε σ α} {s t : σ} {r : Except ε β}
    (h : (do let x ← a; return f x : Action ε σ β).eval s = (r, t)) :
    ∃ done, a.eval s = (done, t) ∧ r = done.map f := by
  rcases eval_bind_cases h with ⟨e, ha, rfl⟩ | ⟨x, u, ha, hret⟩
  · exact ⟨_, ha, rfl⟩
  · cases hret
    exact ⟨_, ha, rfl⟩

end Action

end MountSpace
