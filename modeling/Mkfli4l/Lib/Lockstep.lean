import Mkfli4l.Lib.Exec

/-!
# Computations that run in lockstep

Two computations over the same state run in lockstep if from every state they end in the
same fault, or they end in the same state with related results.  The rules follow the
constructs of the monad, so a lockstep proof follows the text of the two programs.
-/

namespace Mkfli4l
namespace Lib
namespace Exec

variable {ε σ α β α' β' : Type}

/-- From every state, the computations end in the same fault, or in the same state with results
that are related. -/
def Lockstep (Q : α → β → Prop) (x : Exec ε σ α) (y : Exec ε σ β) : Prop :=
  ∀ s, (∃ e, x s = .error e ∧ y s = .error e) ∨
    ∃ a b s', x s = .ok (a, s') ∧ y s = .ok (b, s') ∧ Q a b

namespace Lockstep

protected theorem pure {Q : α → β → Prop} {a : α} {b : β} (h : Q a b) :
    Lockstep Q (pure a : Exec ε σ α) (pure b) :=
  fun s => Or.inr ⟨a, b, s, rfl, rfl, h⟩

protected theorem throw {Q : α → β → Prop} (e : ε) :
    Lockstep Q (throw e : Exec ε σ α) (throw e) :=
  fun _ => Or.inl ⟨e, rfl, rfl⟩

protected theorem refl (x : Exec ε σ α) : Lockstep Eq x x := by
  intro s
  cases hx : x s with
  | error e => exact Or.inl ⟨e, rfl, rfl⟩
  | ok r => exact Or.inr ⟨r.1, r.1, r.2, rfl, rfl, rfl⟩

protected theorem bind {Q : α → β → Prop} {Q' : α' → β' → Prop} {x : Exec ε σ α}
    {y : Exec ε σ β} {f : α → Exec ε σ α'} {g : β → Exec ε σ β'} (hx : Lockstep Q x y)
    (hf : ∀ a b, Q a b → Lockstep Q' (f a) (g b)) : Lockstep Q' (x >>= f) (y >>= g) := by
  intro s
  rcases hx s with ⟨e, hxs, hys⟩ | ⟨a, b, s', hxs, hys, hab⟩
  · exact Or.inl ⟨e, bind_error_iff.mpr (Or.inl hxs), bind_error_iff.mpr (Or.inl hys)⟩
  · rw [bind_of_ok hxs, bind_of_ok hys]
    exact hf a b hab s'

theorem bind_same {Q : α' → β' → Prop} (x : Exec ε σ α) {f : α → Exec ε σ α'}
    {g : α → Exec ε σ β'} (hf : ∀ a, Lockstep Q (f a) (g a)) :
    Lockstep Q (x >>= f) (x >>= g) :=
  (Lockstep.refl x).bind fun a _ hab => hab ▸ hf a

theorem eq {x y : Exec ε σ α} (h : Lockstep Eq x y) : x = y := by
  funext s
  rcases h s with ⟨e, hxs, hys⟩ | ⟨a, b, s', hxs, hys, rfl⟩
  · rw [hxs, hys]
  · rw [hxs, hys]

end Lockstep
end Exec
end Lib
end Mkfli4l
