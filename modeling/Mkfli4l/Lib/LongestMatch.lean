import Mathlib.Data.List.Basic
import Mathlib.Data.List.TakeWhile
import Mathlib.Tactic

/-!
# Longest match

A scanner has a list of rules.  At every place of its input it takes the rule that matches most, and
of several such rules the first one.  `longest` chooses it; `len` gives the length of what a rule
matches.
-/

namespace Mkfli4l
namespace Lib

variable {R : Type}

/-- The first of the rules that match most, with the length of the match. -/
def longest (len : R → Option Nat) : List R → Option (R × Nat)
  | [] => none
  | rule :: rules =>
      match len rule, longest len rules with
      | none, best => best
      | some n, none => some (rule, n)
      | some n, some (rule', n') => if n < n' then some (rule', n') else some (rule, n)

variable {len : R → Option Nat} {rules : List R} {rule : R} {n : Nat}

theorem longest_some (h : longest len rules = some (rule, n)) : rule ∈ rules ∧ len rule = some n := by
  induction rules with
  | nil => exact nomatch h
  | cons first rules ih =>
      simp only [longest] at h
      split at h
      · obtain ⟨hmem, hlen⟩ := ih h
        exact ⟨List.mem_cons_of_mem first hmem, hlen⟩
      · next hfirst _ =>
          obtain ⟨rfl, rfl⟩ := Prod.mk.inj (Option.some.inj h)
          exact ⟨List.mem_cons_self, hfirst⟩
      · next hfirst hrest =>
          split at h
          · obtain ⟨rfl, rfl⟩ := Prod.mk.inj (Option.some.inj h)
            obtain ⟨hmem, hlen⟩ := ih hrest
            exact ⟨List.mem_cons_of_mem first hmem, hlen⟩
          · obtain ⟨rfl, rfl⟩ := Prod.mk.inj (Option.some.inj h)
            exact ⟨List.mem_cons_self, hfirst⟩

theorem longest_none (h : longest len rules = none) (hrule : rule ∈ rules) : len rule = none := by
  induction rules with
  | nil => exact nomatch hrule
  | cons first rules ih =>
      simp only [longest] at h
      split at h
      · next hfirst =>
          rcases List.mem_cons.mp hrule with rfl | hrule
          · exact hfirst
          · exact ih h hrule
      · exact nomatch h
      · split at h
        · exact nomatch h
        · exact nomatch h

theorem longest_max {rule' : R} {n' : Nat} (h : longest len rules = some (rule, n))
    (hrule : rule' ∈ rules) (hlen : len rule' = some n') : n' ≤ n := by
  induction rules generalizing rule n with
  | nil => exact nomatch h
  | cons first rules ih =>
      simp only [longest] at h
      split at h
      · next hfirst =>
          rcases List.mem_cons.mp hrule with rfl | hrule
          · exact nomatch hlen.symm.trans hfirst
          · exact ih h hrule
      · next hfirst hrest =>
          obtain ⟨rfl, rfl⟩ := Prod.mk.inj (Option.some.inj h)
          rcases List.mem_cons.mp hrule with rfl | hrule
          · exact Nat.le_of_eq (Option.some.inj (hlen.symm.trans hfirst))
          · exact nomatch hlen.symm.trans (longest_none hrest hrule)
      · next m best m' hfirst hrest =>
          have hle : (len first = some n' → n' ≤ m) ∧ (rule' ∈ rules → n' ≤ m') :=
            ⟨fun hlen => Nat.le_of_eq (Option.some.inj (hlen.symm.trans hfirst)), ih hrest⟩
          have hn : n = max m m' := by
            split at h
            · next hless =>
                obtain ⟨-, rfl⟩ := Prod.mk.inj (Option.some.inj h)
                exact (Nat.max_eq_right (Nat.le_of_lt hless)).symm
            · next hless =>
                obtain ⟨-, rfl⟩ := Prod.mk.inj (Option.some.inj h)
                exact (Nat.max_eq_left (Nat.not_lt.mp hless)).symm
          rw [hn]
          rcases List.mem_cons.mp hrule with rfl | hrule
          · exact (hle.1 hlen).trans (Nat.le_max_left m m')
          · exact (hle.2 hrule).trans (Nat.le_max_right m m')

theorem longest_eq (hrule : rule ∈ rules) (hlen : len rule = some n)
    (hless : ∀ rule' ∈ rules, rule' ≠ rule → ∀ n', len rule' = some n' → n' < n) :
    longest len rules = some (rule, n) := by
  cases hlongest : longest len rules with
  | none => exact nomatch hlen.symm.trans (longest_none hlongest hrule)
  | some best =>
      obtain ⟨rule', n'⟩ := best
      obtain ⟨hmem, hlen'⟩ := longest_some hlongest
      have hle := longest_max hlongest hrule hlen
      by_cases hsame : rule' = rule
      · subst hsame
        rw [Option.some.inj (hlen'.symm.trans hlen)]
      · have := hless rule' hmem hsame n' hlen'
        omega

end Lib
end Mkfli4l
