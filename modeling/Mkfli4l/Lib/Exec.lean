import Mathlib.Logic.Relation
import Mathlib.Tactic

/-!
# Computations that change a state or end in a fault

`Exec ε σ α` is a computation over a state `σ` which either returns a value
together with a new state or ends in a fault of type `ε` and leaves no state
behind.  The module supplies the rules by which the rest of the development
takes such computations apart:

* `bind_ok_iff` and its companions invert a successful run, one bind at a time;
* `Steps R` says that every successful run relates the state before to the state
  after by `R`, and is closed under the constructs of the monad as soon as `R`
  is reflexive and transitive;
* `Spares e` says that no run ends in the fault `e`;
* `Below x y` says that `y` returns at least where `x` does, with the same outcome.
-/

namespace Mkfli4l
namespace Lib

/-- A computation with state `σ` that may end in a fault of type `ε`. -/
abbrev Exec (ε σ α : Type) := StateT σ (Except ε) α

namespace Exec

variable {ε σ α β : Type}

/-! ### Inversion of successful runs -/

theorem bind_ok_iff {x : Exec ε σ α} {f : α → Exec ε σ β} {s s'' : σ} {b : β} :
    (x >>= f) s = .ok (b, s'') ↔
      ∃ a s', x s = .ok (a, s') ∧ f a s' = .ok (b, s'') := by
  change (x s >>= fun p => f p.1 p.2) = .ok (b, s'') ↔ _
  cases hx : x s with
  | error e => simp [bind, Except.bind]
  | ok p =>
      obtain ⟨a, s'⟩ := p
      simp [bind, Except.bind]

theorem bind_error_iff {x : Exec ε σ α} {f : α → Exec ε σ β} {s : σ} {e : ε} :
    (x >>= f) s = .error e ↔
      x s = .error e ∨ ∃ a s', x s = .ok (a, s') ∧ f a s' = .error e := by
  change (x s >>= fun p => f p.1 p.2) = .error e ↔ _
  cases hx : x s with
  | error e' => simp [bind, Except.bind]
  | ok p =>
      obtain ⟨a, s'⟩ := p
      simp [bind, Except.bind]

theorem bind_of_ok {x : Exec ε σ α} {f : α → Exec ε σ β} {s s' : σ} {a : α}
    (hx : x s = .ok (a, s')) : (x >>= f) s = f a s' := by
  change (x s >>= fun p => f p.1 p.2) = f a s'
  rw [hx]
  rfl

@[simp] theorem pure_ok_iff {a b : α} {s s' : σ} :
    (pure a : Exec ε σ α) s = .ok (b, s') ↔ a = b ∧ s = s' := by
  change Except.ok (a, s) = .ok (b, s') ↔ _
  simp

@[simp] theorem get_ok_iff {s t s' : σ} :
    (get : Exec ε σ σ) s = .ok (t, s') ↔ s = t ∧ s = s' := by
  change Except.ok (s, s) = .ok (t, s') ↔ _
  simp

@[simp] theorem modify_ok_iff {f : σ → σ} {u : PUnit} {s s' : σ} :
    (modify f : Exec ε σ PUnit) s = .ok (u, s') ↔ f s = s' := by
  change Except.ok (PUnit.unit, f s) = .ok (u, s') ↔ _
  simp

@[simp] theorem throw_ok_iff {e : ε} {a : α} {s s' : σ} :
    (throw e : Exec ε σ α) s = .ok (a, s') ↔ False := by
  change Except.error e = .ok (a, s') ↔ _
  simp

@[simp] theorem pure_error_iff {a : α} {s : σ} {e : ε} :
    (pure a : Exec ε σ α) s = .error e ↔ False := by
  change Except.ok (a, s) = .error e ↔ _
  simp

@[simp] theorem get_error_iff {s : σ} {e : ε} :
    (get : Exec ε σ σ) s = .error e ↔ False := by
  change Except.ok (s, s) = .error e ↔ _
  simp

@[simp] theorem modify_error_iff {f : σ → σ} {s : σ} {e : ε} :
    (modify f : Exec ε σ PUnit) s = .error e ↔ False := by
  change Except.ok (PUnit.unit, f s) = .error e ↔ _
  simp

@[simp] theorem throw_error_iff {e e' : ε} {s : σ} :
    (throw e : Exec ε σ α) s = .error e' ↔ e = e' := by
  change Except.error e = .error e' ↔ _
  simp

/-! ### Running -/

theorem bind_apply {x : Exec ε σ α} {f : α → Exec ε σ β} {s : σ} :
    (x >>= f) s = match x s with
      | .ok (a, s') => f a s'
      | .error e => .error e := by
  cases hx : x s with
  | ok p => exact bind_of_ok hx
  | error e => exact bind_error_iff.mpr (Or.inl hx)

theorem pure_apply (a : α) (s : σ) : (pure a : Exec ε σ α) s = .ok (a, s) := rfl

theorem get_apply (s : σ) : (get : Exec ε σ σ) s = .ok (s, s) := rfl

theorem modify_apply (f : σ → σ) (s : σ) : (modify f : Exec ε σ PUnit) s = .ok (⟨⟩, f s) := rfl

theorem throw_apply (e : ε) (s : σ) : (throw e : Exec ε σ α) s = .error e := rfl

/-! ### Evaluating a run -/

/-- The value that a run returns, if it returns. -/
def result (x : Exec ε σ α) (s : σ) : Option α :=
  match x s with
  | .ok (a, _) => some a
  | .error _ => none

/-- The state after a run; a run that ends in a fault counts as leaving the state alone. -/
def stateAfter (x : Exec ε σ α) (s : σ) : σ :=
  match x s with
  | .ok (_, s') => s'
  | .error _ => s

theorem stateAfter_eq {x : Exec ε σ α} {s s' : σ} {a : α} (h : x s = .ok (a, s')) : x.stateAfter s = s' := by
  unfold stateAfter
  rw [h]

theorem ok_of_result {x : Exec ε σ α} {s : σ} {a : α} (h : x.result s = some a) :
    x s = .ok (a, x.stateAfter s) := by
  unfold result at h
  unfold stateAfter
  cases hx : x s with
  | error e =>
      rw [hx] at h
      contradiction
  | ok p =>
      obtain ⟨b, s'⟩ := p
      rw [hx] at h
      obtain rfl := Option.some.inj h
      rfl

theorem result_eq_some_iff {x : Exec ε σ α} {s : σ} {a : α} :
    x.result s = some a ↔ ∃ s', x s = .ok (a, s') := by
  unfold result
  cases hx : x s with
  | error e => simp
  | ok p =>
      obtain ⟨b, s'⟩ := p
      simp

/-! ### Computations that do at least as much -/

/-- Whatever `x` returns, `y` returns as well. -/
def Below (x y : Exec ε σ α) : Prop := ∀ ⦃s : σ⦄ ⦃r : α × σ⦄, x s = .ok r → y s = .ok r

namespace Below

protected theorem refl (x : Exec ε σ α) : Below x x := fun _ _ h => h

protected theorem bind {x y : Exec ε σ α} {f g : α → Exec ε σ β} (hx : Below x y)
    (hf : ∀ a, Below (f a) (g a)) : Below (x >>= f) (y >>= g) := by
  intro s r h
  obtain ⟨b, s''⟩ := r
  obtain ⟨a, s', hrun, hrest⟩ := bind_ok_iff.mp h
  exact bind_ok_iff.mpr ⟨a, s', hx hrun, hf a hrest⟩

theorem result {x y : Exec ε σ α} (h : Below x y) {s : σ} {a : α} (hx : x.result s = some a) :
    y.result s = some a := by
  obtain ⟨s', hrun⟩ := result_eq_some_iff.mp hx
  exact result_eq_some_iff.mpr ⟨s', h hrun⟩

end Below

/-! ### What every successful run does to the state -/

/-- Every successful run of `x` relates the state before to the state after. -/
def Steps (R : σ → σ → Prop) (x : Exec ε σ α) : Prop :=
  ∀ ⦃s : σ⦄ ⦃a : α⦄ ⦃s' : σ⦄, x s = .ok (a, s') → R s s'

namespace Steps

variable {R : σ → σ → Prop} {x : Exec ε σ α}

theorem mono {R' : σ → σ → Prop} (h : Steps R x) (hR : ∀ s s', R s s' → R' s s') :
    Steps R' x :=
  fun _ _ _ hrun => hR _ _ (h hrun)

protected theorem pure (hrefl : ∀ s, R s s) (a : α) : Steps R (pure a : Exec ε σ α) := by
  intro s b s' h
  obtain ⟨-, rfl⟩ := pure_ok_iff.mp h
  exact hrefl s

protected theorem get (hrefl : ∀ s, R s s) : Steps R (get : Exec ε σ σ) := by
  intro s t s' h
  obtain ⟨-, rfl⟩ := get_ok_iff.mp h
  exact hrefl s

protected theorem modify {f : σ → σ} (hf : ∀ s, R s (f s)) :
    Steps R (modify f : Exec ε σ PUnit) := by
  intro s u s' h
  obtain rfl := modify_ok_iff.mp h
  exact hf s

protected theorem throw (e : ε) : Steps R (throw e : Exec ε σ α) := by
  intro s a s' h
  exact (throw_ok_iff.mp h).elim

protected theorem bind (htrans : ∀ s t u, R s t → R t u → R s u)
    {f : α → Exec ε σ β} (hx : Steps R x) (hf : ∀ a, Steps R (f a)) :
    Steps R (x >>= f) := by
  intro s b s'' h
  obtain ⟨a, s', hrun, hrest⟩ := bind_ok_iff.mp h
  exact htrans _ _ _ (hx hrun) (hf a hrest)

/-- A loop over a list relates the states by `R` when its body does. -/
protected theorem forM (hrefl : ∀ s, R s s) (htrans : ∀ s t u, R s t → R t u → R s u)
    {f : α → Exec ε σ PUnit} (l : List α) (hf : ∀ a ∈ l, Steps R (f a)) :
    Steps R (forM l f) := by
  induction l with
  | nil => exact Steps.pure hrefl _
  | cons a l ih =>
      rw [List.forM_cons]
      refine Steps.bind htrans (hf a List.mem_cons_self) fun _ => ih ?_
      intro b hb
      exact hf b (List.mem_cons_of_mem a hb)

theorem forM_mem (hrefl : ∀ s, R s s) (htrans : ∀ s t u, R s t → R t u → R s u)
    {f : α → Exec ε σ PUnit} {l : List α} (hf : ∀ a ∈ l, Steps R (f a)) {s s' : σ} {u : PUnit}
    (h : (forM l f : Exec ε σ PUnit) s = .ok (u, s')) {a : α} (ha : a ∈ l) :
    ∃ s₁ s₂, R s s₁ ∧ f a s₁ = .ok (⟨⟩, s₂) ∧ R s₂ s' := by
  induction l generalizing s with
  | nil => exact absurd ha List.not_mem_nil
  | cons b l ih =>
      rw [List.forM_cons] at h
      obtain ⟨_, t, hrun, hrest⟩ := bind_ok_iff.mp h
      have hl : ∀ c ∈ l, Steps R (f c) := fun c hc => hf c (List.mem_cons_of_mem b hc)
      rcases List.mem_cons.mp ha with rfl | ha
      · exact ⟨s, t, hrefl s, hrun, Steps.forM hrefl htrans l hl hrest⟩
      · obtain ⟨s₁, s₂, hbefore, hround, hafter⟩ := ih hl hrest ha
        exact ⟨s₁, s₂, htrans _ _ _ (hf b List.mem_cons_self hrun) hbefore, hround, hafter⟩

end Steps

/-! ### Faults that cannot occur -/

/-- No run of `x` ends in the fault `e`. -/
def Spares (e : ε) (x : Exec ε σ α) : Prop :=
  ∀ s, x s ≠ .error e

namespace Spares

variable {e : ε} {x : Exec ε σ α}

protected theorem pure (a : α) : Spares e (pure a : Exec ε σ α) := by
  intro s h
  exact pure_error_iff.mp h

protected theorem throw {e' : ε} (hne : e' ≠ e) : Spares e (throw e' : Exec ε σ α) := by
  intro s h
  exact hne (throw_error_iff.mp h)

protected theorem bind {f : α → Exec ε σ β} (hx : Spares e x) (hf : ∀ a, Spares e (f a)) :
    Spares e (x >>= f) := by
  intro s h
  rcases bind_error_iff.mp h with h | ⟨a, s', -, h⟩
  · exact hx s h
  · exact hf a s' h

protected theorem forM {f : α → Exec ε σ PUnit} (l : List α)
    (hf : ∀ a ∈ l, Spares e (f a)) : Spares e (forM l f) := by
  induction l with
  | nil => exact Spares.pure _
  | cons a l ih =>
      rw [List.forM_cons]
      refine Spares.bind (hf a List.mem_cons_self) fun _ => ih ?_
      intro b hb
      exact hf b (List.mem_cons_of_mem a hb)

end Spares

end Exec
end Lib
end Mkfli4l
