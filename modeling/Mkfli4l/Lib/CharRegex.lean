import Mathlib.Computability.Language
import Mathlib.Tactic

/-!
# Regular expressions over characters

The patterns of a scanner: character sets, sequences, alternatives and repetition.  `test` decides
with derivatives whether a text matches, `lang` is the language of a pattern, and `matchLength` is
the length of the longest match at the beginning of a text, which is never empty.
-/

namespace Mkfli4l
namespace Lib

/-- Regular expressions over characters. -/
inductive CharRegex
  | none
  | empty
  | set (p : Char → Bool)
  | seq (a b : CharRegex)
  | alt (a b : CharRegex)
  | star (a : CharRegex)

namespace CharRegex

/-- A single character. -/
def char (c : Char) : CharRegex := set fun d => d == c

/-- All characters except some. -/
def except (cs : List Char) : CharRegex := set fun d => !cs.contains d

/-- One repetition or more. -/
def plus (a : CharRegex) : CharRegex := seq a (star a)

/-- One repetition or none. -/
def opt (a : CharRegex) : CharRegex := alt a empty

/-- A fixed text. -/
def text : List Char → CharRegex
  | [] => empty
  | c :: s => seq (char c) (text s)

/-- The pattern matches the empty text. -/
def nullable : CharRegex → Bool
  | none => false
  | empty => true
  | set _ => false
  | seq a b => a.nullable && b.nullable
  | alt a b => a.nullable || b.nullable
  | star _ => true

/-- What a pattern matches after a character. -/
def deriv (c : Char) : CharRegex → CharRegex
  | none => none
  | empty => none
  | set p => if p c then empty else none
  | seq a b => if a.nullable then alt (seq (a.deriv c) b) (b.deriv c) else seq (a.deriv c) b
  | alt a b => alt (a.deriv c) (b.deriv c)
  | star a => seq (a.deriv c) (star a)

/-- The pattern matches a text. -/
def test (r : CharRegex) (s : List Char) : Bool := (s.foldl (fun r c => r.deriv c) r).nullable

/-- The length of the longest match at the beginning of a text. -/
def matchLength : CharRegex → List Char → Option Nat
  | _, [] => Option.none
  | r, c :: s =>
      match (r.deriv c).matchLength s with
      | some n => some (n + 1)
      | Option.none => if (r.deriv c).nullable then some 1 else Option.none

/-- The language of a pattern. -/
def lang : CharRegex → Language Char
  | none => 0
  | empty => 1
  | set p => {w | ∃ c, p c = true ∧ w = [c]}
  | seq a b => a.lang * b.lang
  | alt a b => a.lang + b.lang
  | star a => KStar.kstar a.lang

variable {r a b : CharRegex} {c : Char} {s : List Char}

variable {p : Char → Bool} {n : Nat} {t : List Char}

theorem mem_set_lang : s ∈ (set p).lang ↔ ∃ c, p c = true ∧ s = [c] := Iff.rfl

theorem nil_mem_lang : [] ∈ r.lang ↔ r.nullable = true := by
  induction r with
  | none => simp [lang, nullable, Language.notMem_zero]
  | empty => simp [lang, nullable]
  | set p => simp [mem_set_lang, nullable]
  | seq a b iha ihb => simp [lang, nullable, Language.mem_mul, iha, ihb]
  | alt a b iha ihb => simp [lang, nullable, Language.mem_add, iha, ihb]
  | star a ih => simp [lang, nullable, Language.nil_mem_kstar]

theorem cons_mem_mul {l m : Language Char} :
    c :: s ∈ l * m ↔ (∃ u, c :: u ∈ l ∧ ∃ v ∈ m, u ++ v = s) ∨ ([] ∈ l ∧ c :: s ∈ m) := by
  rw [Language.mem_mul]
  constructor
  · rintro ⟨u, hu, v, hv, huv⟩
    cases u with
    | nil => exact .inr ⟨hu, huv ▸ hv⟩
    | cons d u =>
        obtain ⟨rfl, rfl⟩ := List.cons.inj huv
        exact .inl ⟨u, hu, v, hv, rfl⟩
  · rintro (⟨u, hu, v, hv, rfl⟩ | ⟨hnil, hs⟩)
    · exact ⟨c :: u, hu, v, hv, rfl⟩
    · exact ⟨[], hnil, c :: s, hs, rfl⟩

theorem cons_mem_kstar {l : Language Char} :
    c :: s ∈ KStar.kstar l ↔ ∃ u, c :: u ∈ l ∧ ∃ v ∈ KStar.kstar l, u ++ v = s := by
  constructor
  · rw [Language.mem_kstar_iff_exists_nonempty]
    rintro ⟨words, hwords, hmem⟩
    cases words with
    | nil => exact nomatch hwords
    | cons word words =>
        obtain ⟨hword, hne⟩ := hmem word List.mem_cons_self
        cases word with
        | nil => exact absurd rfl hne
        | cons d u =>
            obtain ⟨rfl, rfl⟩ := List.cons.inj hwords
            refine ⟨u, hword, words.flatten, ?_, rfl⟩
            exact Language.mem_kstar.mpr ⟨words, rfl, fun y hy => (hmem y (List.mem_cons_of_mem _ hy)).1⟩
  · rintro ⟨u, hu, v, hv, rfl⟩
    obtain ⟨words, rfl, hmem⟩ := Language.mem_kstar.mp hv
    refine Language.mem_kstar.mpr ⟨(c :: u) :: words, rfl, fun y hy => ?_⟩
    rcases List.mem_cons.mp hy with rfl | hy
    · exact hu
    · exact hmem y hy

theorem cons_mem_lang : c :: s ∈ r.lang ↔ s ∈ (r.deriv c).lang := by
  induction r generalizing s with
  | none => simp [lang, deriv, Language.notMem_zero]
  | empty => simp [lang, deriv, Language.notMem_zero]
  | set p =>
      rw [mem_set_lang]
      by_cases hp : p c = true
      · simp [deriv, hp, lang]
      · simp [deriv, hp, lang, Language.notMem_zero]
  | alt a b iha ihb => simp only [lang, deriv, Language.mem_add, iha, ihb]
  | seq a b iha ihb =>
      simp only [lang, cons_mem_mul, iha, ihb, nil_mem_lang, deriv]
      by_cases hnull : a.nullable = true
      · simp only [hnull, if_true, lang, Language.mem_add, Language.mem_mul, true_and]
      · simp [hnull, lang, Language.mem_mul]
  | star a ih => simp only [lang, cons_mem_kstar, ih, deriv, Language.mem_mul]

theorem test_iff : r.test s = true ↔ s ∈ r.lang := by
  induction s generalizing r with
  | nil => exact nil_mem_lang.symm
  | cons c s ih => exact ih.trans cons_mem_lang.symm

theorem matchLength_some (h : r.matchLength s = some n) :
    0 < n ∧ n ≤ s.length ∧ s.take n ∈ r.lang := by
  induction s generalizing r n with
  | nil => exact nomatch h
  | cons c s ih =>
      rw [matchLength] at h
      split at h
      · next m hm =>
          obtain rfl := Option.some.inj h
          obtain ⟨-, hle, hmem⟩ := ih hm
          refine ⟨Nat.succ_pos m, Nat.succ_le_succ hle, ?_⟩
          rw [List.take_succ_cons, cons_mem_lang]
          exact hmem
      · split at h
        · next hnull =>
            obtain rfl := Option.some.inj h
            refine ⟨Nat.one_pos, Nat.succ_le_succ (Nat.zero_le _), ?_⟩
            rw [List.take_succ_cons, List.take_zero, cons_mem_lang]
            exact nil_mem_lang.mpr hnull
        · exact nomatch h

theorem matchLength_max (hpos : 0 < n) (hle : n ≤ s.length) (h : s.take n ∈ r.lang) :
    ∃ k, n ≤ k ∧ r.matchLength s = some k := by
  induction s generalizing r n with
  | nil =>
      rw [List.length_nil] at hle
      omega
  | cons c s ih =>
      obtain ⟨n, rfl⟩ : ∃ m, n = m + 1 := ⟨n - 1, by omega⟩
      rw [List.take_succ_cons, cons_mem_lang] at h
      rw [matchLength]
      rcases Nat.eq_zero_or_pos n with rfl | hn
      · rw [List.take_zero, nil_mem_lang] at h
        cases (r.deriv c).matchLength s with
        | none => exact ⟨1, Nat.le_refl _, if_pos h⟩
        | some m => exact ⟨m + 1, Nat.succ_le_succ (Nat.zero_le m), rfl⟩
      · obtain ⟨k, hk, hmatch⟩ := ih hn (Nat.le_of_succ_le_succ hle) h
        exact ⟨k + 1, Nat.succ_le_succ hk, by rw [hmatch]⟩

theorem matchLength_eq (hpos : 0 < n) (hle : n ≤ s.length) (h : s.take n ∈ r.lang)
    (hmax : ∀ m, m ≤ s.length → s.take m ∈ r.lang → m ≤ n) : r.matchLength s = some n := by
  obtain ⟨k, hk, hmatch⟩ := matchLength_max hpos hle h
  obtain ⟨-, hlength, hmem⟩ := matchLength_some hmatch
  rw [hmatch, Nat.le_antisymm (hmax k hlength hmem) hk]

/-! ## First characters -/

/-- A match of the pattern may begin with a character. -/
def starts (c : Char) : CharRegex → Bool
  | none => false
  | empty => false
  | set p => p c
  | seq a b => a.starts c || (a.nullable && b.starts c)
  | alt a b => a.starts c || b.starts c
  | star a => a.starts c

theorem starts_of_mem (h : c :: s ∈ r.lang) : r.starts c = true := by
  induction r generalizing s with
  | none => exact absurd h (Language.notMem_zero _)
  | empty => exact nomatch (Language.mem_one _).mp h
  | set p =>
      obtain ⟨d, hd, hs⟩ := mem_set_lang.mp h
      obtain ⟨rfl, -⟩ := List.cons.inj hs
      exact hd
  | seq a b iha ihb =>
      rcases cons_mem_mul.mp h with ⟨u, hu, -⟩ | ⟨hnil, hs⟩
      · simp [starts, iha hu]
      · simp [starts, nil_mem_lang.mp hnil, ihb hs]
  | alt a b iha ihb =>
      rcases h with h | h
      · simp [starts, iha h]
      · simp [starts, ihb h]
  | star a ih =>
      obtain ⟨u, hu, -⟩ := cons_mem_kstar.mp h
      exact ih hu

theorem matchLength_eq_none (h : r.starts c = false) : r.matchLength (c :: s) = Option.none := by
  cases hmatch : r.matchLength (c :: s) with
  | none => rfl
  | some n =>
      obtain ⟨hpos, -, hmem⟩ := matchLength_some hmatch
      obtain ⟨m, rfl⟩ : ∃ m, n = m + 1 := ⟨n - 1, by omega⟩
      rw [List.take_succ_cons] at hmem
      exact nomatch h.symm.trans (starts_of_mem hmem)

/-! ## Characters that do not occur -/

/-- No match of the pattern has a character in it. -/
def avoids (c : Char) : CharRegex → Bool
  | none => true
  | empty => true
  | set p => !p c
  | seq a b => a.avoids c && b.avoids c
  | alt a b => a.avoids c && b.avoids c
  | star a => a.avoids c

theorem notMem_of_avoids (hr : r.avoids c = true) (h : s ∈ r.lang) : c ∉ s := by
  induction r generalizing s with
  | none => exact absurd h (Language.notMem_zero _)
  | empty =>
      rw [(Language.mem_one _).mp h]
      exact List.not_mem_nil
  | set p =>
      obtain ⟨d, hd, rfl⟩ := mem_set_lang.mp h
      rw [List.mem_singleton]
      rintro rfl
      simp [avoids, hd] at hr
  | seq a b iha ihb =>
      obtain ⟨ha, hb⟩ := Bool.and_eq_true_iff.mp hr
      obtain ⟨u, hu, v, hv, rfl⟩ := Language.mem_mul.mp h
      rw [List.mem_append, not_or]
      exact ⟨iha ha hu, ihb hb hv⟩
  | alt a b iha ihb =>
      obtain ⟨ha, hb⟩ := Bool.and_eq_true_iff.mp hr
      rcases h with h | h
      · exact iha ha h
      · exact ihb hb h
  | star a ih =>
      obtain ⟨words, rfl, hwords⟩ := Language.mem_kstar.mp h
      rw [List.mem_flatten]
      rintro ⟨word, hword, hc⟩
      exact ih hr (hwords word hword) hc

theorem mem_star_of_flatten {words : List (List Char)} (h : ∀ word ∈ words, word ∈ r.lang) :
    words.flatten ∈ (star r).lang :=
  Language.mem_kstar.mpr ⟨words, rfl, h⟩

theorem nil_mem_star : [] ∈ (star r).lang := Language.nil_mem_kstar _

theorem append_mem_seq (hs : s ∈ a.lang) (ht : t ∈ b.lang) : s ++ t ∈ (seq a b).lang :=
  Language.mem_mul.mpr ⟨s, hs, t, ht, rfl⟩

theorem char_mem : [c] ∈ (char c).lang := mem_set_lang.mpr ⟨c, beq_self_eq_true c, rfl⟩

/-! ## Characters, fixed texts and runs -/

theorem matchLength_set (h : (set p).matchLength s = some n) : n = 1 := by
  obtain ⟨-, hle, hmem⟩ := matchLength_some h
  obtain ⟨c, -, hc⟩ := mem_set_lang.mp hmem
  have hlength := congrArg List.length hc
  rwa [List.length_take_of_le hle] at hlength

theorem mem_text_lang : s ∈ (text t).lang ↔ s = t := by
  induction t generalizing s with
  | nil => exact Language.mem_one s
  | cons d t ih =>
      constructor
      · intro h
        obtain ⟨x, hx, y, hy, rfl⟩ := Language.mem_mul.mp h
        obtain ⟨c, hc, rfl⟩ := mem_set_lang.mp hx
        rw [beq_iff_eq.mp hc, ih.mp hy]
        rfl
      · rintro rfl
        exact append_mem_seq (s := [d]) char_mem (ih.mpr rfl)

end CharRegex
end Lib
end Mkfli4l
