import Mathlib.Data.List.Basic
import Mathlib.Tactic

/-!
# Texts with marks

The marks of a text are placeholders.  `fill` replaces them from left to right, each by its own text.
Filling one mark after the other comes to the same as filling all of them at once, so far as the replacements
have no marks themselves.
-/

namespace Mkfli4l
namespace Lib

variable {α : Type*} [DecidableEq α] {mark sep : α} {s x : List α} {xs ys : List (List α)}

/-- The marks are replaced as long as there are replacements. -/
def fill (mark : α) : List α → List (List α) → List α
  | [], _ => []
  | c :: s, [] => c :: s
  | c :: s, x :: xs => if c = mark then x ++ fill mark s xs else c :: fill mark s (x :: xs)

@[simp] theorem fill_nil (mark : α) (s : List α) : fill mark s [] = s := by
  cases s <;> rfl

theorem fill_mark (mark : α) (s x : List α) (xs : List (List α)) :
    fill mark (mark :: s) (x :: xs) = x ++ fill mark s xs := if_pos rfl

theorem fill_of_ne {c : α} (hc : c ≠ mark) (s : List α) (xs : List (List α)) :
    fill mark (c :: s) xs = c :: fill mark s xs := by
  cases xs with
  | nil => rw [fill_nil, fill_nil]
  | cons x xs => exact if_neg hc

theorem fill_of_notMem (h : mark ∉ s) (xs : List (List α)) : fill mark s xs = s := by
  induction s with
  | nil => rfl
  | cons c s ih =>
      rw [List.mem_cons, not_or] at h
      rw [fill_of_ne (Ne.symm h.1), ih h.2]

theorem fill_append (h : mark ∉ x) (s : List α) (xs : List (List α)) :
    fill mark (x ++ s) xs = x ++ fill mark s xs := by
  induction x with
  | nil => rfl
  | cons c x ih =>
      rw [List.mem_cons, not_or] at h
      rw [List.cons_append, fill_of_ne (Ne.symm h.1), ih h.2, List.cons_append]

theorem fill_fill (hx : mark ∉ x) (s : List α) (xs : List (List α)) :
    fill mark (fill mark s [x]) xs = fill mark s (x :: xs) := by
  induction s with
  | nil => rfl
  | cons c s ih =>
      by_cases hc : c = mark
      · rw [hc, fill_mark, fill_mark, fill_nil, fill_append hx]
      · rw [fill_of_ne hc, fill_of_ne hc, fill_of_ne hc, ih]

theorem length_fill_singleton (h : mark ∈ s) (x : List α) :
    (fill mark s [x]).length + 1 = s.length + x.length := by
  induction s with
  | nil => exact absurd h List.not_mem_nil
  | cons c s ih =>
      by_cases hc : c = mark
      · rw [hc, fill_mark, fill_nil, List.length_append, List.length_cons]
        omega
      · have hlength := ih ((List.mem_cons.mp h).resolve_left (Ne.symm hc))
        rw [fill_of_ne hc, List.length_cons, List.length_cons]
        omega

theorem count_fill_singleton (h : mark ∈ s) (hx : mark ∉ x) :
    (fill mark s [x]).count mark + 1 = s.count mark := by
  induction s with
  | nil => exact absurd h List.not_mem_nil
  | cons c s ih =>
      by_cases hc : c = mark
      · rw [hc, fill_mark, fill_nil, List.count_append, List.count_eq_zero_of_not_mem hx, List.count_cons_self,
          Nat.zero_add]
      · rw [fill_of_ne hc, List.count_cons_of_ne hc, List.count_cons_of_ne hc]
        exact ih ((List.mem_cons.mp h).resolve_left (Ne.symm hc))

theorem notMem_fill {c : α} (hs : c ∉ s) (hx : ∀ x ∈ xs, c ∉ x) : c ∉ fill mark s xs := by
  induction s generalizing xs with
  | nil => exact List.not_mem_nil
  | cons d s ih =>
      rw [List.mem_cons, not_or] at hs
      cases xs with
      | nil =>
          rw [fill_nil, List.mem_cons, not_or]
          exact hs
      | cons x xs =>
          have hrest := fun y hy => hx y (List.mem_cons_of_mem x hy)
          by_cases hd : d = mark
          · rw [hd, fill_mark, List.mem_append, not_or]
            exact ⟨hx x List.mem_cons_self, ih hs.2 hrest⟩
          · rw [fill_of_ne hd, List.mem_cons, not_or]
            exact ⟨hs.1, ih hs.2 hx⟩

theorem fill_singleton_eq (h : mark ∈ s) (x : List α) :
    fill mark s [x] = s.takeWhile (· ≠ mark) ++ x ++ (s.dropWhile (· ≠ mark)).drop 1 := by
  induction s with
  | nil => exact absurd h List.not_mem_nil
  | cons c s ih =>
      by_cases hc : c = mark
      · rw [hc, fill_mark, fill_nil, List.takeWhile_cons, List.dropWhile_cons, if_neg (by simp),
          if_neg (by simp)]
        rfl
      · rw [fill_of_ne hc, ih ((List.mem_cons.mp h).resolve_left (Ne.symm hc)), List.takeWhile_cons,
          List.dropWhile_cons, if_pos (by simpa using hc), if_pos (by simpa using hc)]
        rfl

/-- Behind every mark there is a separator, or nothing. -/
def FollowedBy (mark sep : α) (s : List α) : Prop :=
  ∀ front rest, s = front ++ mark :: rest → ∀ c ∈ rest.head?, c = sep

omit [DecidableEq α] in
theorem FollowedBy.tail {c : α} (h : FollowedBy mark sep (c :: s)) : FollowedBy mark sep s :=
  fun front rest hsplit => h (c :: front) rest (congrArg (List.cons c) hsplit)

omit [DecidableEq α] in
theorem followedBy_nil : FollowedBy mark sep ([] : List α) := by
  intro front rest hsplit
  exact absurd hsplit.symm (by simp)

omit [DecidableEq α] in
theorem followedBy_cons {c : α} :
    FollowedBy mark sep (c :: s) ↔ (c = mark → ∀ d ∈ s.head?, d = sep) ∧ FollowedBy mark sep s := by
  refine ⟨fun h => ⟨?_, h.tail⟩, ?_⟩
  · rintro rfl
    exact h [] s rfl
  · rintro ⟨hfirst, hrest⟩ front rest hsplit
    cases front with
    | nil =>
        obtain ⟨rfl, rfl⟩ := List.cons.inj hsplit
        exact hfirst rfl
    | cons d front => exact hrest front rest (List.cons.inj hsplit).2

omit [DecidableEq α] in
theorem FollowedBy.append {t : List α} (hs : FollowedBy mark sep s) (hlast : s.getLast? ≠ some mark)
    (ht : FollowedBy mark sep t) : FollowedBy mark sep (s ++ t) := by
  intro front rest hsplit c hc
  rcases List.append_eq_append_iff.mp hsplit with ⟨middle, rfl, hmiddle⟩ | ⟨middle, hmiddle, hrest⟩
  · exact ht middle rest hmiddle c hc
  · cases middle with
    | nil => exact ht [] rest (by simpa using hrest.symm) c hc
    | cons d middle =>
        obtain ⟨rfl, rfl⟩ := List.cons.inj hrest
        cases middle with
        | nil => exact absurd (by rw [hmiddle, List.getLast?_concat]) hlast
        | cons e middle => exact hs front (e :: middle) hmiddle c hc

omit [DecidableEq α] in
theorem FollowedBy.of_notMem (h : mark ∉ s) : FollowedBy mark sep s := by
  rintro front rest rfl
  exact absurd (List.mem_append_right front List.mem_cons_self) h

omit [DecidableEq α] in
theorem FollowedBy.map {f : α → α} (hs : FollowedBy mark sep s) (hmark : ∀ c, f c = mark → c = mark)
    (hsep : f sep = sep) : FollowedBy mark sep (s.map f) := by
  intro front rest hsplit c hc
  obtain ⟨front', tail, rfl, -, htail⟩ := List.map_eq_append_iff.mp hsplit
  obtain ⟨d, rest', rfl, hd, rfl⟩ := List.map_eq_cons_iff.mp htail
  obtain rfl := hmark d hd
  rw [List.head?_map] at hc
  obtain ⟨e, he, rfl⟩ := Option.map_eq_some_iff.mp hc
  rw [hs front' rest' rfl e he, hsep]

omit [DecidableEq α] in
theorem append_sep_inj {y t t' : List α} (hx : sep ∉ x) (hy : sep ∉ y)
    (h : x ++ sep :: t = y ++ sep :: t') : x = y ∧ t = t' := by
  induction x generalizing y with
  | nil =>
      cases y with
      | nil => exact ⟨rfl, (List.cons.inj h).2⟩
      | cons d y => exact absurd ((List.cons.inj h).1 ▸ List.mem_cons_self) hy
  | cons c x ih =>
      rw [List.mem_cons, not_or] at hx
      cases y with
      | nil => exact absurd (List.cons.inj h).1.symm hx.1
      | cons d y =>
          obtain ⟨rfl, hrest⟩ := List.cons.inj h
          obtain ⟨rfl, ht⟩ := ih hx.2 (fun hmem => hy (List.mem_cons_of_mem c hmem)) hrest
          exact ⟨rfl, ht⟩

theorem fill_injective (hs : FollowedBy mark sep s) (hsep : sep ≠ mark) (hxs : xs.length = s.count mark)
    (hys : ys.length = s.count mark) (hx : ∀ x ∈ xs, sep ∉ x) (hy : ∀ y ∈ ys, sep ∉ y)
    (h : fill mark s xs = fill mark s ys) : xs = ys := by
  induction s generalizing xs ys with
  | nil => rw [List.eq_nil_of_length_eq_zero hxs, List.eq_nil_of_length_eq_zero hys]
  | cons c s ih =>
      by_cases hc : c = mark
      · subst hc
        rw [List.count_cons_self] at hxs hys
        obtain ⟨x, xs, rfl⟩ := List.exists_cons_of_length_eq_add_one hxs
        obtain ⟨y, ys, rfl⟩ := List.exists_cons_of_length_eq_add_one hys
        rw [fill_mark, fill_mark] at h
        have hrest : x = y ∧ fill c s xs = fill c s ys := by
          cases s with
          | nil => exact ⟨by simpa [fill] using h, rfl⟩
          | cons d s =>
              obtain rfl : d = sep := hs [] (d :: s) rfl d rfl
              rw [fill_of_ne hsep, fill_of_ne hsep] at h ⊢
              obtain ⟨hhead, htail⟩ := append_sep_inj (hx x List.mem_cons_self) (hy y List.mem_cons_self) h
              exact ⟨hhead, congrArg (List.cons d) htail⟩
        rw [hrest.1, ih hs.tail (Nat.succ.inj hxs) (Nat.succ.inj hys)
          (fun x' hx' => hx x' (List.mem_cons_of_mem x hx')) (fun y' hy' => hy y' (List.mem_cons_of_mem y hy'))
          hrest.2]
      · rw [List.count_cons_of_ne hc] at hxs hys
        rw [fill_of_ne hc, fill_of_ne hc] at h
        exact ih hs.tail hxs hys hx hy (List.cons.inj h).2

end Lib
end Mkfli4l
