import Mathlib.Data.List.TakeWhile
import Mathlib.Tactic

/-!
# Pieces and runs

Two ways to cut a list at the elements that are separators.  `piecesOf` gives what stands between the
separators, empty pieces included, except that nothing is looked for behind the last separator if the
list ends there.  `runsOf` gives the maximal runs of elements between them, none of which is empty.
Each can be computed from the front: `piecesOf_of_ne_nil` and `runsOf_cons_of_not`.
-/

namespace Mkfli4l
namespace Lib

variable {α : Type*} {p : α → Bool} {l : List α}

/-- The pieces between separators; an empty piece behind the last separator is not counted. -/
def piecesOf (p : α → Bool) (l : List α) : List (List α) :=
  if (l.splitOnP p).getLast?.any List.isEmpty then (l.splitOnP p).dropLast else l.splitOnP p

/-- The maximal runs of elements that are no separators. -/
def runsOf (p : α → Bool) (l : List α) : List (List α) := (l.splitOnP p).filter fun w => !w.isEmpty

theorem takeWhile_eq_self_of_dropWhile_nil {q : α → Bool} (h : l.dropWhile q = []) : l.takeWhile q = l := by
  have happend := List.takeWhile_append_dropWhile (p := q) (l := l)
  rwa [h, List.append_nil] at happend

theorem splitOnP_of_dropWhile_cons {sep : α} {rest : List α}
    (h : l.dropWhile (fun a => !p a) = sep :: rest) :
    l.splitOnP p = l.takeWhile (fun a => !p a) :: rest.splitOnP p := by
  have hsep : p sep = true := by
    have hhead := List.head_dropWhile_not (fun a => !p a) (by rw [h]; exact List.cons_ne_nil _ _)
    simpa [h] using hhead
  have hfront : ∀ a ∈ l.takeWhile (fun a => !p a), p a = false := by
    intro a ha
    simpa using List.mem_takeWhile_imp ha
  have happend := List.takeWhile_append_dropWhile (p := fun a => !p a) (l := l)
  rw [h] at happend
  calc l.splitOnP p = (l.takeWhile (fun a => !p a) ++ sep :: rest).splitOnP p := by rw [happend]
    _ = _ := List.splitOnP_append_cons_of_forall_mem hfront sep hsep rest

theorem splitOnP_of_dropWhile_nil (h : l.dropWhile (fun a => !p a) = []) : l.splitOnP p = [l] := by
  apply List.splitOnP_eq_singleton
  intro a ha
  rw [List.dropWhile_eq_nil_iff] at h
  simpa using h a ha

@[simp] theorem piecesOf_nil : piecesOf p [] = [] := by
  simp [piecesOf]

theorem piecesOf_of_ne_nil (hl : l ≠ []) : piecesOf p l =
    l.takeWhile (fun a => !p a) :: piecesOf p ((l.dropWhile fun a => !p a).drop 1) := by
  cases hrest : l.dropWhile fun a => !p a with
  | nil =>
      rw [List.drop_nil, piecesOf_nil, takeWhile_eq_self_of_dropWhile_nil hrest, piecesOf,
        splitOnP_of_dropWhile_nil hrest, if_neg (by simpa using hl)]
  | cons sep rest =>
      obtain ⟨w, ws, hws⟩ := List.exists_cons_of_ne_nil (List.splitOnP_ne_nil p rest)
      rw [List.drop_one, List.tail_cons, piecesOf, piecesOf, splitOnP_of_dropWhile_cons hrest, hws,
        List.getLast?_cons_cons, List.dropLast_cons_cons]
      split
      · rfl
      · rfl

@[simp] theorem runsOf_nil : runsOf p [] = [] := by
  simp [runsOf]

theorem runsOf_cons_of_sep {a : α} (ha : p a = true) (l : List α) : runsOf p (a :: l) = runsOf p l := by
  unfold runsOf
  rw [List.splitOnP_cons_eq_if_modifyHead, if_pos ha]
  rfl

theorem runsOf_dropWhile (l : List α) : runsOf p (l.dropWhile p) = runsOf p l := by
  induction l with
  | nil => rfl
  | cons a l ih =>
      rw [List.dropWhile_cons]
      split
      · next ha => rw [ih, runsOf_cons_of_sep ha]
      · rfl

theorem runsOf_cons_of_not {a : α} (ha : p a = false) (l : List α) : runsOf p (a :: l) =
    (a :: l).takeWhile (fun a => !p a) :: runsOf p ((a :: l).dropWhile fun a => !p a) := by
  have hne : ((a :: l).takeWhile fun a => !p a).isEmpty = false := by
    simp [ha]
  cases hrest : (a :: l).dropWhile fun a => !p a with
  | nil =>
      rw [runsOf_nil, takeWhile_eq_self_of_dropWhile_nil hrest, runsOf, splitOnP_of_dropWhile_nil hrest]
      rfl
  | cons sep rest =>
      have hsep : p sep = true := by
        have hhead := List.head_dropWhile_not (fun a => !p a) (by rw [hrest]; exact List.cons_ne_nil _ _)
        simpa [hrest] using hhead
      rw [runsOf_cons_of_sep hsep, runsOf, splitOnP_of_dropWhile_cons hrest, List.filter_cons, hne]
      rfl

theorem runsOf_append_sep {a : α} (ha : p a = true) (l r : List α) :
    runsOf p (l ++ a :: r) = runsOf p l ++ runsOf p r := by
  unfold runsOf
  rw [List.splitOnP_append_cons l r ha, List.filter_append]

theorem length_runsOf_le (l t : List α) : (runsOf p l).length ≤ (runsOf p (l ++ t)).length := by
  induction hn : l.length using Nat.strong_induction_on generalizing l with
  | _ n ih =>
    cases l with
    | nil => simp
    | cons a l =>
        rw [List.length_cons] at hn
        by_cases ha : p a = true
        · rw [List.cons_append, runsOf_cons_of_sep ha, runsOf_cons_of_sep ha]
          exact ih l.length (by omega) l rfl
        · have ha : p a = false := by simpa using ha
          have hdrop : (a :: l).dropWhile (fun a => !p a) = l.dropWhile fun a => !p a :=
            List.dropWhile_cons_of_pos (by simp [ha])
          have hdrop' : (a :: (l ++ t)).dropWhile (fun a => !p a) = (l ++ t).dropWhile fun a => !p a :=
            List.dropWhile_cons_of_pos (by simp [ha])
          rw [List.cons_append, runsOf_cons_of_not ha, runsOf_cons_of_not ha, hdrop, hdrop',
            List.length_cons, List.length_cons]
          by_cases hend : l.dropWhile (fun a => !p a) = []
          · rw [hend, runsOf_nil]
            exact Nat.succ_le_succ (Nat.zero_le _)
          · have hle := (List.dropWhile_sublist (fun a => !p a) (l := l)).length_le
            rw [List.dropWhile_append, if_neg (by simpa using hend)]
            exact Nat.succ_le_succ (ih _ (by omega) _ rfl)

/-! ### Elements behind gaps -/

theorem getElem?_takeWhile_of_pairwise (h : l.Pairwise fun a b => p b = true → p a = true) {k : ℕ} {a : α}
    (hk : l[k]? = some a) (ha : p a = true) : (l.takeWhile p)[k]? = some a := by
  induction l generalizing k with
  | nil => exact nomatch hk
  | cons x l ih =>
      obtain ⟨hx, hl⟩ := List.pairwise_cons.mp h
      cases k with
      | zero =>
          obtain rfl : x = a := by simpa using hk
          simp [ha]
      | succ k =>
          have hk : l[k]? = some a := by simpa using hk
          have hpx : p x = true := hx a (List.mem_of_getElem? hk) ha
          rw [List.takeWhile_cons, if_pos hpx, List.getElem?_cons_succ]
          exact ih hl hk

theorem pairwise_of_getElem?_takeWhile
    (h : ∀ k a, l[k]? = some a → p a = true → k < (l.takeWhile p).length) :
    l.Pairwise fun a b => p b = true → p a = true := by
  induction l with
  | nil => exact List.Pairwise.nil
  | cons x l ih =>
      have hstep : ∀ k a, l[k]? = some a → p a = true → p x = true ∧ k < (l.takeWhile p).length := by
        intro k a hk ha
        have hlt := h (k + 1) a (by simpa using hk) ha
        rw [List.takeWhile_cons] at hlt
        split at hlt
        · next hx =>
            rw [List.length_cons] at hlt
            exact ⟨hx, by omega⟩
        · exact absurd hlt (Nat.not_lt_zero _)
      refine List.pairwise_cons.mpr ⟨fun a ha hpa => ?_, ih fun k a hk ha => (hstep k a hk ha).2⟩
      obtain ⟨k, hk⟩ := List.mem_iff_getElem?.mp ha
      exact (hstep k a hk hpa).1

theorem takeWhile_sublist_filter (p : α → Bool) (l : List α) : (l.takeWhile p).Sublist (l.filter p) := by
  induction l with
  | nil => exact List.Sublist.refl _
  | cons x l ih =>
      rw [List.takeWhile_cons]
      split
      · next hx =>
          rw [List.filter_cons, if_pos hx]
          exact ih.cons_cons x
      · exact List.nil_sublist _

theorem takeWhile_eq_filter_iff :
    l.takeWhile p = l.filter p ↔ l.Pairwise fun a b => p b = true → p a = true := by
  constructor
  · intro heq
    induction l with
    | nil => exact List.Pairwise.nil
    | cons x l ih =>
        by_cases hx : p x = true
        · rw [List.takeWhile_cons, if_pos hx, List.filter_cons, if_pos hx] at heq
          exact List.pairwise_cons.mpr ⟨fun _ _ _ => hx, ih (List.cons.inj heq).2⟩
        · rw [List.takeWhile_cons, if_neg hx, List.filter_cons, if_neg hx] at heq
          have hnone : ∀ a ∈ l, ¬ p a = true := List.filter_eq_nil_iff.mp heq.symm
          refine List.pairwise_cons.mpr ⟨fun a ha hpa => absurd hpa (hnone a ha), ?_⟩
          exact List.pairwise_of_forall_mem_list fun _ _ a ha hpa => absurd hpa (hnone a ha)
  · intro hpairwise
    induction l with
    | nil => rfl
    | cons x l ih =>
        obtain ⟨hx, hl⟩ := List.pairwise_cons.mp hpairwise
        by_cases hpx : p x = true
        · rw [List.takeWhile_cons, if_pos hpx, List.filter_cons, if_pos hpx, ih hl]
        · have hnone : l.filter p = [] := List.filter_eq_nil_iff.mpr fun a ha hpa => hpx (hx a ha hpa)
          rw [List.takeWhile_cons, if_neg hpx, List.filter_cons, if_neg hpx, hnone]

theorem ne_nil_of_mem_runsOf {w : List α} (h : w ∈ runsOf p l) : w ≠ [] := by
  have hfilter := (List.mem_filter.mp h).2
  simpa using hfilter

theorem infix_of_mem_runsOf {w : List α} (h : w ∈ runsOf p l) : w <:+: l ∧ ∀ a ∈ w, p a = false := by
  induction hn : l.length using Nat.strong_induction_on generalizing l with
  | _ n ih =>
    cases l with
    | nil => simp at h
    | cons a l =>
        rw [List.length_cons] at hn
        by_cases ha : p a = true
        · rw [runsOf_cons_of_sep ha] at h
          obtain ⟨hwithin, hsep⟩ := ih l.length (by omega) h rfl
          exact ⟨hwithin.trans (List.suffix_cons a l).isInfix, hsep⟩
        · have ha : p a = false := by simpa using ha
          rw [runsOf_cons_of_not ha] at h
          rcases List.mem_cons.mp h with rfl | hrest
          · refine ⟨(List.takeWhile_prefix _).isInfix, ?_⟩
            intro b hb
            simpa using List.mem_takeWhile_imp hb
          · have hdrop : (a :: l).dropWhile (fun a => !p a) = l.dropWhile fun a => !p a :=
              List.dropWhile_cons_of_pos (by simp [ha])
            rw [hdrop] at hrest
            have hle := (List.dropWhile_sublist (fun a => !p a) (l := l)).length_le
            obtain ⟨hwithin, hsep⟩ := ih _ (by omega) hrest rfl
            have hsuffix := (List.dropWhile_suffix (fun a => !p a) (l := l)).trans (List.suffix_cons a l)
            exact ⟨hwithin.trans hsuffix.isInfix, hsep⟩

end Lib
end Mkfli4l
