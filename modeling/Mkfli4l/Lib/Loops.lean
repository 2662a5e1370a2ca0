import Mathlib.Data.List.Basic

/-!
# Loops that may fail

A loop over a list whose body may fail.  What holds before a round is given with the number of the
round, so that it can say which elements have had their turn.
-/

namespace Mkfli4l
namespace Lib

variable {α σ : Type} {body : σ → α → Option σ} {I : Nat → σ → Prop} {L : List α} {s s' : σ}

/-- A loop whose rounds keep the invariant, so far as they succeed. -/
theorem foldlM_keeps
    (hstep : ∀ k (hk : k < L.length) s s', I k s → body s (L.get ⟨k, hk⟩) = some s' → I (k + 1) s')
    (hstart : I 0 s) (hloop : L.foldlM body s = some s') : I L.length s' := by
  induction L generalizing I s with
  | nil =>
      obtain rfl := Option.some.inj hloop
      exact hstart
  | cons a L ih =>
      rw [List.foldlM_cons] at hloop
      obtain ⟨s₁, hfirst, hrest⟩ := Option.bind_eq_some_iff.mp hloop
      exact ih (I := fun k => I (k + 1)) (fun k hk => hstep (k + 1) (Nat.succ_lt_succ hk))
        (hstep 0 (Nat.succ_pos _) s s₁ hstart hfirst) hrest

/-- An invariant that speaks about the elements that have had their turn. -/
theorem foldlM_history {I : List α → σ → Prop}
    (hstep : ∀ past a s s', a ∈ L → I past s → body s a = some s' → I (past ++ [a]) s')
    (hstart : I [] s) (hloop : L.foldlM body s = some s') : I L s' := by
  have hround : ∀ k (hk : k < L.length) s s', I (L.take k) s →
      body s (L.get ⟨k, hk⟩) = some s' → I (L.take (k + 1)) s' := by
    intro k hk s s' hI hbody
    rw [List.take_add_one, List.getElem?_eq_getElem hk]
    exact hstep _ _ s s' (List.get_mem L ⟨k, hk⟩) hI hbody
  have hend := foldlM_keeps (I := fun k => I (L.take k)) hround hstart hloop
  rw [List.take_length] at hend
  exact hend

theorem foldlM_round
    (hstep : ∀ k (hk : k < L.length) s s', I k s → body s (L.get ⟨k, hk⟩) = some s' → I (k + 1) s')
    (hstart : I 0 s) (hloop : L.foldlM body s = some s') {k : Nat} (hk : k < L.length) :
    ∃ t t', I k t ∧ body t (L.get ⟨k, hk⟩) = some t' := by
  induction L generalizing I s k with
  | nil => exact absurd hk (Nat.not_lt_zero k)
  | cons a L ih =>
      rw [List.foldlM_cons] at hloop
      obtain ⟨s₁, hfirst, hrest⟩ := Option.bind_eq_some_iff.mp hloop
      cases k with
      | zero => exact ⟨s, s₁, hstart, hfirst⟩
      | succ k =>
          exact ih (I := fun k => I (k + 1)) (fun k hk => hstep (k + 1) (Nat.succ_lt_succ hk))
            (hstep 0 (Nat.succ_pos _) s s₁ hstart hfirst) hrest (Nat.lt_of_succ_lt_succ hk)

/-- A loop whose rounds succeed as long as the invariant holds. -/
theorem foldlM_succeeds
    (hstep : ∀ k (hk : k < L.length) s, I k s →
      ∃ s', body s (L.get ⟨k, hk⟩) = some s' ∧ I (k + 1) s') (hstart : I 0 s) :
    ∃ s', L.foldlM body s = some s' := by
  induction L generalizing I s with
  | nil => exact ⟨s, rfl⟩
  | cons a L ih =>
      obtain ⟨s₁, hfirst, hnext⟩ := hstep 0 (Nat.succ_pos _) s hstart
      obtain ⟨s', hrest⟩ := ih (I := fun k => I (k + 1))
        (fun k hk => hstep (k + 1) (Nat.succ_lt_succ hk)) hnext
      refine ⟨s', ?_⟩
      rw [List.foldlM_cons]
      exact Option.bind_eq_some_iff.mpr ⟨s₁, hfirst, hrest⟩

end Lib
end Mkfli4l
