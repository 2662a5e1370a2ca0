import Mathlib.Data.Finset.Card
import Mathlib.Logic.Function.Basic
import Mathlib.Logic.Relation
import Mathlib.Tactic
import Mkfli4l.Lib.CNumber

/-!
# Expansion of variable types

A variable type is a regular expression which may refer to other types, and further expressions may
extend it under a condition.  `vartype_get_regex` puts the text together and follows the references;
the flag `expansion_in_progress` of a type stops it when it comes back to a type it is working on.

The types refer to each other by pointers, so nothing keeps the graph of the references from having
cycles or ends that are not defined.  The last theorem says what the function returns for every such
graph.
-/

namespace Mkfli4l
namespace Vartype

open Lib Function Relation

/-- `vartype_regex_part_t`: a piece of text or a reference to a type. -/
inductive RegexPart (T : Type)
  | str (s : CString)
  | ref (t : T)
deriving DecidableEq

/-- The parts of an expression.  The list is reversed, as in the source. -/
abbrev Regex (T : Type) := List (RegexPart T)

/-- `vartype_extension_t`.  The field `enabled` tells whether the condition is valid and evaluates to
`TRUE`. -/
structure Extension (T : Type) where
  expr : Regex T
  enabled : Bool
deriving DecidableEq

/-- `vartype_t`.  A type without an expression is one that has only been mentioned so far. -/
structure VarType (T : Type) where
  name : CString
  expr : Option (Regex T)
  extensions : List (Extension T)
  predefined : Bool
  compiled : Bool
deriving DecidableEq

/-- Finitely many defined types that refer to each other. -/
structure TypeGraph (T : Type) where
  type : T → VarType T
  domain : Finset T
  mem_domain : ∀ t, (type t).expr ≠ none → t ∈ domain

/-- The flags `expansion_in_progress` of all types. -/
abbrev Flags (T : Type) := T → Bool

/-- What a call returns, `none` standing for `NULL`, and the flags it leaves behind.  The outer
`none` says that the fuel was not enough. -/
abbrev Outcome (T : Type) := Option (Option CString × Flags T)

variable {T : Type}

/-- `vartype_regex_assemble`, where `getRegex` is `vartype_get_regex` for the types referred to. -/
def vartypeRegexAssemble (getRegex : T → Flags T → Outcome T) (name : T → CString) (expand : Bool) :
    Regex T → Flags T → Outcome T
  | [], flags => some (some [], flags)
  | part :: next, flags =>
      match vartypeRegexAssemble getRegex name expand next flags with
      | none => none
      | some (none, flags) => some (none, flags)
      | some (some result, flags) =>
          match part with
          | .str s => some (some (result ++ s), flags)
          | .ref t =>
              if expand then
                match getRegex t flags with
                | none => none
                | some (none, flags) => some (none, flags)
                | some (some regex, flags) =>
                    some (some (result ++ "(".toList ++ regex ++ ")".toList), flags)
              else
                some (some (result ++ "(RE:".toList ++ name t ++ ")".toList), flags)

def vartypeExtensionAppendRegex (getRegex : T → Flags T → Outcome T) (name : T → CString)
    (expand : Bool) : List (Extension T) → CString → Flags T → Outcome T
  | [], expr, flags => some (some expr, flags)
  | ext :: exts, expr, flags =>
      if ext.enabled then
        match vartypeRegexAssemble getRegex name expand ext.expr flags with
        | none => none
        | some (none, flags) => some (none, flags)
        | some (some regex, flags) =>
            vartypeExtensionAppendRegex getRegex name expand exts
              ("(".toList ++ expr ++ ")|(".toList ++ regex ++ ")".toList) flags
      else
        vartypeExtensionAppendRegex getRegex name expand exts expr flags

section Code

variable [DecidableEq T]

def vartypeGetRegex (type : T → VarType T) : Nat → Bool → T → Flags T → Outcome T
  | 0, _, _, _ => none
  | fuel + 1, expand, t, flags =>
      match (type t).expr with
      | none => some (none, flags)
      | some expr =>
          if flags t then
            some (none, flags)
          else
            let getRegex := vartypeGetRegex type fuel true
            let name := fun u => (type u).name
            match vartypeRegexAssemble getRegex name expand expr (update flags t true) with
            | none => none
            | some (none, flags) => some (none, update flags t false)
            | some (some result, flags) =>
                match vartypeExtensionAppendRegex getRegex name expand (type t).extensions result
                    flags with
                | none => none
                | some (result, flags) => some (result, update flags t false)

end Code

/-! ## What the expansion is -/

/-- The text of a part, where `val` gives the expansions of the types. -/
def RegexPart.text (val : T → CString) : RegexPart T → CString
  | .str s => s
  | .ref t => "(".toList ++ val t ++ ")".toList

/-- The text of an expression. -/
def regexText (val : T → CString) (regex : Regex T) : CString :=
  (regex.reverse.map (RegexPart.text val)).flatten

/-- An extension `e` turns the text `old` into `(old)|(e)`. -/
def extendedText (val : T → CString) (old : CString) (ext : Extension T) : CString :=
  "(".toList ++ old ++ ")|(".toList ++ regexText val ext.expr ++ ")".toList

/-- The text of a type: the expression, then the enabled extensions in their order. -/
def fullText (val : T → CString) (expr : Regex T) (exts : List (Extension T)) : CString :=
  (exts.filter Extension.enabled).foldl (extendedText val) (regexText val expr)

namespace TypeGraph

variable (g : TypeGraph T)

/-- The expression of a type or one of its enabled extensions refers to another type. -/
def Refers (t u : T) : Prop :=
  (∃ expr, (g.type t).expr = some expr ∧ .ref u ∈ expr) ∨
    ∃ ext ∈ (g.type t).extensions, ext.enabled = true ∧ .ref u ∈ ext.expr

/-- The full textual expansion of a type. -/
inductive Expands : T → CString → Prop
  | intro {t : T} {expr : Regex T} (val : T → CString) (hexpr : (g.type t).expr = some expr)
      (hrefs : ∀ u, g.Refers t u → Expands u (val u)) :
      Expands t (fullText val expr (g.type t).extensions)

end TypeGraph

/-! ## The expansion and its obstacles -/

section Abstract

variable {g : TypeGraph T}

theorem TypeGraph.Expands.acc {t : T} {s : CString} (h : g.Expands t s) :
    Acc (fun u t => g.Refers t u) t := by
  induction h with
  | intro val hexpr hrefs ih => exact ⟨_, fun u hu => ih u hu⟩

theorem regexText_congr {val val' : T → CString} {regex : Regex T}
    (h : ∀ u, .ref u ∈ regex → val u = val' u) : regexText val regex = regexText val' regex := by
  unfold regexText
  congr 1
  refine List.map_congr_left fun part hpart => ?_
  cases part with
  | str s => rfl
  | ref u => simp only [RegexPart.text, h u (List.mem_reverse.mp hpart)]

theorem fullText_congr {val val' : T → CString} {expr : Regex T} {exts : List (Extension T)}
    (hexpr : ∀ u, .ref u ∈ expr → val u = val' u)
    (hexts : ∀ ext ∈ exts, ext.enabled = true → ∀ u, .ref u ∈ ext.expr → val u = val' u) :
    fullText val expr exts = fullText val' expr exts := by
  unfold fullText
  rw [regexText_congr hexpr]
  refine List.foldl_ext _ _ _ fun old ext hext => ?_
  obtain ⟨hmem, henabled⟩ := List.mem_filter.mp hext
  simp only [extendedText, regexText_congr (hexts ext hmem henabled)]

theorem TypeGraph.Expands.unique {t : T} {s s' : CString} (h : g.Expands t s)
    (h' : g.Expands t s') : s = s' := by
  induction h generalizing s' with
  | intro val hexpr hrefs ih =>
      cases h' with
      | intro val' hexpr' hrefs' =>
          obtain rfl := Option.some.inj (hexpr.symm.trans hexpr')
          have hval : ∀ u, g.Refers _ u → val u = val' u := fun u hu => ih u hu (hrefs' u hu)
          exact fullText_congr (fun u hu => hval u (.inl ⟨_, hexpr, hu⟩))
            fun ext hext henabled u hu => hval u (.inr ⟨ext, hext, henabled, hu⟩)

end Abstract

/-! ## One level of the recursion -/

section Assemble

variable {getRegex : T → Flags T → Outcome T} {flags : Flags T} {val : T → CString}
  (name : T → CString)

theorem regexText_cons (part : RegexPart T) (next : Regex T) :
    regexText val (part :: next) = regexText val next ++ part.text val := by
  simp [regexText]

theorem vartypeRegexAssemble_text {regex : Regex T}
    (hget : ∀ u, .ref u ∈ regex → getRegex u flags = some (some (val u), flags)) :
    vartypeRegexAssemble getRegex name true regex flags = some (some (regexText val regex), flags) := by
  induction regex with
  | nil => rfl
  | cons part next ih =>
      have hnext := ih fun u hu => hget u (List.mem_cons_of_mem part hu)
      rw [regexText_cons]
      cases part with
      | str s => simp only [vartypeRegexAssemble, hnext, RegexPart.text]
      | ref u =>
          have hu := hget u List.mem_cons_self
          simp only [vartypeRegexAssemble, hnext, hu, if_true, RegexPart.text, List.append_assoc]

theorem vartypeRegexAssemble_null {regex : Regex T}
    (hget : ∀ u, .ref u ∈ regex → ∃ result, getRegex u flags = some (result, flags))
    (hnull : ∃ u, .ref u ∈ regex ∧ getRegex u flags = some (none, flags)) :
    vartypeRegexAssemble getRegex name true regex flags = some (none, flags) := by
  classical
  induction regex with
  | nil =>
      obtain ⟨u, hu, -⟩ := hnull
      exact nomatch hu
  | cons part next ih =>
      have hget' : ∀ u, .ref u ∈ next → ∃ result, getRegex u flags = some (result, flags) :=
        fun u hu => hget u (List.mem_cons_of_mem part hu)
      by_cases hearlier : ∃ u, .ref u ∈ next ∧ getRegex u flags = some (none, flags)
      · simp only [vartypeRegexAssemble, ih hget' hearlier]
      · have hsome : ∀ u, .ref u ∈ next → ∃ s, getRegex u flags = some (some s, flags) := by
          intro u hu
          obtain ⟨result, hresult⟩ := hget' u hu
          cases result with
          | none => exact absurd ⟨u, hu, hresult⟩ hearlier
          | some s => exact ⟨s, hresult⟩
        choose! val hval using hsome
        have hnext := vartypeRegexAssemble_text name hval
        obtain ⟨u, hu, hnone⟩ := hnull
        rcases List.mem_cons.mp hu with rfl | hu
        · simp only [vartypeRegexAssemble, hnext, hnone, if_true]
        · exact absurd ⟨u, hu, hnone⟩ hearlier

theorem vartypeExtensionAppendRegex_text {exts : List (Extension T)} (old : CString)
    (hget : ∀ ext ∈ exts, ext.enabled = true → ∀ u, .ref u ∈ ext.expr →
      getRegex u flags = some (some (val u), flags)) :
    vartypeExtensionAppendRegex getRegex name true exts old flags =
      some (some ((exts.filter Extension.enabled).foldl (extendedText val) old), flags) := by
  induction exts generalizing old with
  | nil => rfl
  | cons ext exts ih =>
      have hget' : ∀ e ∈ exts, e.enabled = true → ∀ u, .ref u ∈ e.expr →
          getRegex u flags = some (some (val u), flags) :=
        fun e he => hget e (List.mem_cons_of_mem ext he)
      cases henabled : ext.enabled with
      | false =>
          simp only [vartypeExtensionAppendRegex, henabled, Bool.false_eq_true, if_false, ih _ hget',
            List.filter_cons]
      | true =>
          have htext := vartypeRegexAssemble_text name
            (hget ext List.mem_cons_self henabled)
          simp only [vartypeExtensionAppendRegex, henabled, if_true, htext, ih _ hget',
            List.filter_cons, List.foldl_cons, extendedText]

theorem vartypeExtensionAppendRegex_null {exts : List (Extension T)} (old : CString)
    (hget : ∀ ext ∈ exts, ext.enabled = true → ∀ u, .ref u ∈ ext.expr →
      ∃ result, getRegex u flags = some (result, flags))
    (hnull : ∃ ext ∈ exts, ext.enabled = true ∧ ∃ u, .ref u ∈ ext.expr ∧
      getRegex u flags = some (none, flags)) :
    vartypeExtensionAppendRegex getRegex name true exts old flags = some (none, flags) := by
  classical
  induction exts generalizing old with
  | nil =>
      obtain ⟨ext, hext, -⟩ := hnull
      exact nomatch hext
  | cons ext exts ih =>
      have hget' : ∀ e ∈ exts, e.enabled = true → ∀ u, .ref u ∈ e.expr →
          ∃ result, getRegex u flags = some (result, flags) :=
        fun e he => hget e (List.mem_cons_of_mem ext he)
      by_cases hhere : ext.enabled = true ∧ ∃ u, .ref u ∈ ext.expr ∧
          getRegex u flags = some (none, flags)
      · obtain ⟨henabled, hfirst⟩ := hhere
        have htext := vartypeRegexAssemble_null name
          (hget ext List.mem_cons_self henabled) hfirst
        simp only [vartypeExtensionAppendRegex, henabled, if_true, htext]
      · have hlater : ∃ e ∈ exts, e.enabled = true ∧ ∃ u, .ref u ∈ e.expr ∧
            getRegex u flags = some (none, flags) := by
          obtain ⟨e, he, henabled, hfirst⟩ := hnull
          rcases List.mem_cons.mp he with rfl | he
          · exact absurd ⟨henabled, hfirst⟩ hhere
          · exact ⟨e, he, henabled, hfirst⟩
        cases henabled : ext.enabled with
        | false =>
            simp only [vartypeExtensionAppendRegex, henabled, Bool.false_eq_true, if_false,
              ih _ hget' hlater]
        | true =>
            have hsome : ∀ u, .ref u ∈ ext.expr → ∃ s, getRegex u flags = some (some s, flags) := by
              intro u hu
              obtain ⟨result, hresult⟩ := hget ext List.mem_cons_self henabled u hu
              cases result with
              | none => exact absurd ⟨henabled, u, hu, hresult⟩ hhere
              | some s => exact ⟨s, hresult⟩
            choose! val hval using hsome
            have htext := vartypeRegexAssemble_text name hval
            simp only [vartypeExtensionAppendRegex, henabled, if_true, htext, ih _ hget' hlater]

end Assemble

/-! ## The whole recursion -/

section Whole

variable [DecidableEq T] (g : TypeGraph T)

/-- The types that may still be entered. -/
def TypeGraph.unflagged (flags : Flags T) : Finset T := g.domain.filter fun t => flags t = false

theorem TypeGraph.unflagged_update {t : T} {flags : Flags T} (ht : t ∈ g.domain)
    (hflag : flags t = false) :
    (g.unflagged (update flags t true)).card < (g.unflagged flags).card := by
  apply Finset.card_lt_card
  rw [Finset.ssubset_iff_of_subset]
  · refine ⟨t, ?_, ?_⟩
    · simp [unflagged, ht, hflag]
    · simp [unflagged]
  · intro u hu
    obtain ⟨hdomain, hu⟩ := Finset.mem_filter.mp hu
    refine Finset.mem_filter.mpr ⟨hdomain, ?_⟩
    by_cases hut : u = t
    · rw [hut, hflag]
    · rwa [update_of_ne hut] at hu

/-- The references lead to a type that is not defined or is being expanded, or into a cycle. -/
def TypeGraph.BrokenAt (flags : Flags T) (t : T) : Prop :=
  ∃ u, ReflTransGen g.Refers t u ∧
    ((g.type u).expr = none ∨ flags u = true ∨ TransGen g.Refers u u)

variable {g}

theorem TypeGraph.BrokenAt.of_refers {flags : Flags T} {t u : T} (htu : g.Refers t u)
    (hu : g.BrokenAt (update flags t true) u) : g.BrokenAt flags t := by
  obtain ⟨w, huw, hw⟩ := hu
  have htw : TransGen g.Refers t w := TransGen.head' htu huw
  rcases hw with hnone | hflag | hcycle
  · exact ⟨w, htw.to_reflTransGen, .inl hnone⟩
  · by_cases hwt : w = t
    · subst hwt
      exact ⟨w, .refl, .inr (.inr htw)⟩
    · rw [update_of_ne hwt] at hflag
      exact ⟨w, htw.to_reflTransGen, .inr (.inl hflag)⟩
  · exact ⟨w, htw.to_reflTransGen, .inr (.inr hcycle)⟩

section Level

variable {t : T} {fuel : Nat} {flags : Flags T} {expr : Regex T} {answer : T → Option CString}

theorem vartypeGetRegex_null (hexpr : (g.type t).expr = some expr) (hflag : flags t = false)
    (hanswer : ∀ u, vartypeGetRegex g.type fuel true u (update flags t true) =
      some (answer u, update flags t true))
    (hnull : ∃ u, g.Refers t u ∧ answer u = none) :
    vartypeGetRegex g.type (fuel + 1) true t flags = some (none, flags) := by
  have hrestored : update (update flags t true) t false = flags := by
    rw [update_idem, ← hflag, update_eq_self]
  have hget : ∀ u, ∃ result, vartypeGetRegex g.type fuel true u (update flags t true) =
      some (result, update flags t true) := fun u => ⟨answer u, hanswer u⟩
  by_cases hbase : ∃ u, .ref u ∈ expr ∧ answer u = none
  · obtain ⟨u, hu, hnone⟩ := hbase
    have hassemble := vartypeRegexAssemble_null (fun u => (g.type u).name) (fun u _ => hget u)
      ⟨u, hu, hnone ▸ hanswer u⟩
    simp only [vartypeGetRegex, hexpr, hflag, Bool.false_eq_true, if_false, hassemble, hrestored]
  · have hval : ∀ u, .ref u ∈ expr → vartypeGetRegex g.type fuel true u
        (update flags t true) =
          some (some ((answer u).getD []), update flags t true) := by
      intro u hu
      rw [hanswer u]
      cases hanswered : answer u with
      | none => exact absurd ⟨u, hu, hanswered⟩ hbase
      | some s => rfl
    have hassemble := vartypeRegexAssemble_text (fun u => (g.type u).name) hval
    have hext : ∃ ext ∈ (g.type t).extensions, ext.enabled = true ∧ ∃ u, .ref u ∈ ext.expr ∧
        vartypeGetRegex g.type fuel true u (update flags t true) =
          some (none, update flags t true) := by
      obtain ⟨u, hrefers | ⟨ext, hext, henabled, hu⟩, hnone⟩ := hnull
      · obtain ⟨expr', hexpr', hu⟩ := hrefers
        obtain rfl : expr = expr' := Option.some.inj (hexpr.symm.trans hexpr')
        exact absurd ⟨u, hu, hnone⟩ hbase
      · exact ⟨ext, hext, henabled, u, hu, hnone ▸ hanswer u⟩
    have happend := vartypeExtensionAppendRegex_null (fun u => (g.type u).name)
      (regexText (fun u => (answer u).getD []) expr) (fun _ _ _ u _ => hget u) hext
    simp only [vartypeGetRegex, hexpr, hflag, Bool.false_eq_true, if_false, hassemble, happend,
      hrestored]

theorem vartypeGetRegex_text {val : T → CString} (hexpr : (g.type t).expr = some expr)
    (hflag : flags t = false)
    (hval : ∀ u, g.Refers t u → vartypeGetRegex g.type fuel true u (update flags t true) =
      some (some (val u), update flags t true)) :
    vartypeGetRegex g.type (fuel + 1) true t flags =
      some (some (fullText val expr (g.type t).extensions), flags) := by
  have hrestored : update (update flags t true) t false = flags := by
    rw [update_idem, ← hflag, update_eq_self]
  have hassemble := vartypeRegexAssemble_text (fun u => (g.type u).name)
    fun u hu => hval u (.inl ⟨expr, hexpr, hu⟩)
  have happend := vartypeExtensionAppendRegex_text (fun u => (g.type u).name) (regexText val expr)
    fun ext hext henabled u hu => hval u (.inr ⟨ext, hext, henabled, hu⟩)
  simp only [vartypeGetRegex, hexpr, hflag, Bool.false_eq_true, if_false, hassemble, happend,
    hrestored, fullText]

end Level

/-- A call ends with the flags it was started with.  It returns the expansion or has found a reason
why there is none. -/
theorem vartypeGetRegex_spec {fuel : Nat} {t : T} {flags : Flags T}
    (hfuel : (g.unflagged flags).card < fuel) :
    ∃ result, vartypeGetRegex g.type fuel true t flags = some (result, flags) ∧
      (∀ s, result = some s → g.Expands t s) ∧ (result = none → g.BrokenAt flags t) := by
  induction fuel generalizing t flags with
  | zero => omega
  | succ fuel ih =>
      cases hexpr : (g.type t).expr with
      | none =>
          refine ⟨none, ?_, fun s hs => absurd hs (Option.some_ne_none s).symm,
            fun _ => ⟨t, .refl, .inl hexpr⟩⟩
          simp only [vartypeGetRegex, hexpr]
      | some expr =>
          cases hflag : flags t with
          | true =>
              refine ⟨none, ?_, fun s hs => absurd hs (Option.some_ne_none s).symm,
                fun _ => ⟨t, .refl, .inr (.inl hflag)⟩⟩
              simp only [vartypeGetRegex, hexpr, hflag, if_true]
          | false =>
              have hdomain : t ∈ g.domain := g.mem_domain t (by simp [hexpr])
              have hless := g.unflagged_update hdomain hflag
              -- every type referred to is expanded under the same flags
              choose answer hanswer hexpands hbroken using fun u =>
                @ih u (update flags t true) (by omega)
              by_cases hnull : ∃ u, g.Refers t u ∧ answer u = none
              · refine ⟨none, vartypeGetRegex_null hexpr hflag hanswer hnull,
                  fun s hs => absurd hs (Option.some_ne_none s).symm, fun _ => ?_⟩
                obtain ⟨u, hrefers, hu⟩ := hnull
                exact .of_refers hrefers (hbroken u hu)
              · have hval : ∀ u, g.Refers t u → answer u = some ((answer u).getD []) := by
                  intro u hu
                  cases hanswered : answer u with
                  | none => exact absurd ⟨u, hu, hanswered⟩ hnull
                  | some s => rfl
                refine ⟨_, vartypeGetRegex_text hexpr hflag fun u hu => hval u hu ▸ hanswer u, ?_,
                  fun h => absurd h (Option.some_ne_none _)⟩
                rintro s ⟨⟩
                exact .intro _ hexpr fun u hu => hexpands u _ (hval u hu)

end Whole

end Vartype
end Mkfli4l
