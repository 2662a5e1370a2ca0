import Mkfli4l.Grammar.Notation
import Mkfli4l.Var.NestedScopes

/-!
# Names of instances

`var_instance_to_string` puts the indices of an instance in the place of the placeholders in the name of its
variable, and `var_instance_create_from_string` goes the other way.  The parser takes a number for an index
if it stands behind a separator.  So the print is read back as it should if every placeholder of the name
stands behind a separator and in front of no digit, and if no variable has the print for its name.

A name that is accepted by `VAR_NAME_REGEX` as a whole fulfils this.  The expression is compiled with
`REG_NEWLINE`, however, so that only a line of the name has to match it.
-/

namespace Mkfli4l

open Lib

/-! ### Printing and parsing -/

/-- `var_instance_to_string` for a variable of the given name. -/
def varInstanceToString : CString → List UInt32 → CString
  | [], _ => []
  | c :: rest, indices =>
      if c = '%' then
        match indices with
        | i :: indices => formatInt (i + 1).toNat ++ varInstanceToString rest indices
        | [] => c :: varInstanceToString rest []
      else c :: varInstanceToString rest indices

/-- An instance of a variable in a chain of scopes. -/
structure ScopedInstance where
  var : ScopedVar
  indices : List UInt32
deriving DecidableEq, Repr

/-- `var_instance_create_from_string`, with the templates that are instantiated. -/
def varInstanceCreateFromStringRec (E : GraphEnv) (name : CString) (scopes : List Graph) :
    Option ScopedInstance × List Graph :=
  match varScopeTryGetRec E name scopes with
  | (some v, scopes) => (some ⟨v, []⟩, scopes)
  | (none, scopes) =>
      let split := splitIndices false name
      let found := varScopeTryGetRec E split.1 scopes
      (found.1.map fun v => ⟨v, split.2⟩, found.2)

/-! ### Numbers behind separators -/

/-- No number stands directly behind a separator. -/
def Unnumbered (name : CString) : Prop :=
  ∀ rest, ('_' :: rest) <:+ name → startsWithDigit rest = false

/-- Does every placeholder stand directly behind a separator, and no digit directly behind it?  The flag
says that there is a separator in front of the text. -/
def separated : Bool → CString → Bool
  | _, [] => true
  | behind, c :: rest =>
      if c = '%' then behind && !startsWithDigit rest && separated false rest
      else separated (c == '_') rest

variable {name : CString} {c : Char} {indices : List UInt32}

theorem separated_mono (h : separated false name = true) : separated true name = true := by
  cases name with
  | nil => rfl
  | cons c rest =>
      unfold separated at h ⊢
      split
      · next hc =>
          rw [if_pos hc] at h
          contradiction
      · next hc =>
          rw [if_neg hc] at h
          exact h

theorem unnumbered_cons :
    Unnumbered (c :: name) ↔ (c = '_' → startsWithDigit name = false) ∧ Unnumbered name := by
  constructor
  · intro h
    constructor
    · rintro rfl
      exact h name List.suffix_rfl
    · exact fun rest hrest => h rest (hrest.trans (List.suffix_cons c name))
  · rintro ⟨hhead, htail⟩ rest hrest
    rcases List.suffix_cons_iff.mp hrest with heq | hrest
    · obtain ⟨rfl, rfl⟩ := List.cons.inj heq
      exact hhead rfl
    · exact htail rest hrest

theorem splitIndices_index (i : UInt32) {rest : CString} (hrest : startsWithDigit rest = false) :
    splitIndices false ('_' :: (formatInt (i + 1).toNat ++ rest)) =
      ('_' :: '%' :: (splitIndices false rest).1, i :: (splitIndices false rest).2) := by
  have hdigits : ∀ c ∈ Nat.toDigits 10 (i + 1).toNat, c.isDigit = true := fun c hc =>
    Nat.isDigit_of_mem_toDigits (by omega) (by omega) hc
  have hne : Nat.toDigits 10 (i + 1).toNat ≠ [] := Nat.toDigits_ne_nil
  have hstart : startsWithDigit (Nat.toDigits 10 (i + 1).toNat ++ rest) = true := by
    obtain ⟨c, tail, hcons⟩ := List.exists_cons_of_ne_nil hne
    rw [hcons] at hdigits ⊢
    exact hdigits c List.mem_cons_self
  have hskip : splitIndices true rest = splitIndices false rest := by
    cases rest with
    | nil => rfl
    | cons c rest =>
        have hc : c.isDigit = false := hrest
        simp [splitIndices, hc]
  have hstop : rest.takeWhile (isDigitOf 10) = [] := by
    cases rest with
    | nil => rfl
    | cons c rest =>
        rw [List.takeWhile_cons_of_neg]
        intro hdigit
        have hc : c.isDigit = false := hrest
        rw [isDigit_of_isDigitOf_ten hdigit] at hc
        contradiction
  have hatoi : atoi (Nat.toDigits 10 (i + 1).toNat ++ rest) = uint32ToInt (i + 1) := by
    have hlt := (i + 1).toNat_lt
    have hclamp : min longMax ((i + 1).toNat : ℤ) = (i + 1).toNat := by
      unfold longMax
      omega
    rw [atoi, strtol_digits rest hne hdigits hstop, digitsValue_toDigits]
    dsimp only
    rw [hclamp]
    rfl
  rw [formatInt_natCast, splitIndices, if_neg (by simp), if_pos ⟨rfl, hstart⟩, splitIndices_skip hdigits,
    hskip, hatoi, toUInt32_uint32ToInt_sub_one]

theorem startsWithDigit_toString {rest : CString}
    (hsep : separated false rest = true) (hrest : startsWithDigit rest = false) :
    startsWithDigit (varInstanceToString rest indices) = false := by
  cases rest with
  | nil => rfl
  | cons c rest =>
      unfold separated at hsep
      unfold varInstanceToString
      by_cases hc : c = '%'
      · rw [if_pos hc] at hsep
        contradiction
      · rw [if_neg hc]
        exact hrest

/-- The print of a name whose placeholders are separated is split into the name and the indices, also
behind a further separator. -/
theorem splitIndices_toString (hnumber : Unnumbered name)
    (hlength : indices.length = numPlaceholders name) :
    (separated false name = true →
      splitIndices false (varInstanceToString name indices) = (name, indices)) ∧
    (separated true name = true → startsWithDigit name = false →
      splitIndices false ('_' :: varInstanceToString name indices) = ('_' :: name, indices)) := by
  induction name generalizing indices with
  | nil =>
      obtain rfl := List.length_eq_zero_iff.mp hlength
      exact ⟨fun _ => rfl, fun _ _ => rfl⟩
  | cons c rest ih =>
      obtain ⟨hhead, htail⟩ := unnumbered_cons.mp hnumber
      unfold separated varInstanceToString
      by_cases hc : c = '%'
      · subst hc
        rw [if_pos rfl, if_pos rfl]
        refine ⟨fun h => (by simp at h), fun hsep _ => ?_⟩
        rw [if_pos rfl, Bool.true_and, Bool.and_eq_true, Bool.not_eq_true'] at hsep
        cases indices with
        | nil => simp [numPlaceholders] at hlength
        | cons i indices =>
            have hlength' : indices.length = numPlaceholders rest := by
              simpa [numPlaceholders] using hlength
            dsimp only
            rw [splitIndices_index i (startsWithDigit_toString hsep.2 hsep.1),
              (ih htail hlength').1 hsep.2]
      · have hlength' : indices.length = numPlaceholders rest := by
          simpa [numPlaceholders, List.count_cons, hc] using hlength
        rw [if_neg hc, if_neg hc, if_neg hc]
        have hplain (hsep : separated (c == '_') rest = true) :
            splitIndices false (c :: varInstanceToString rest indices) = (c :: rest, indices) := by
          by_cases hunderscore : c = '_'
          · subst hunderscore
            exact (ih htail hlength').2 hsep (hhead rfl)
          · have hsep' : separated false rest = true := by
              rw [beq_false_of_ne hunderscore] at hsep
              exact hsep
            rw [splitIndices, if_neg (by simp), if_neg (by simp [hunderscore]),
              (ih htail hlength').1 hsep']
        refine ⟨hplain, fun hsep hdigit => ?_⟩
        rw [splitIndices, if_neg (by simp), if_neg, hplain hsep]
        rintro ⟨-, hstart⟩
        have hc' : c.isDigit = false := hdigit
        rw [startsWithDigit, hc'] at hstart
        contradiction

/-! ### What the parser looks up -/

theorem startsWithDigit_splitIndices (text : CString) :
    startsWithDigit (splitIndices false text).1 = startsWithDigit text ∧
      startsWithDigit (splitIndices true text).1 = false := by
  induction text with
  | nil => exact ⟨rfl, rfl⟩
  | cons c rest ih =>
      constructor
      · rw [splitIndices, if_neg (by simp)]
        split
        · rfl
        · rfl
      · rw [splitIndices]
        split
        · exact ih.2
        · next hskip =>
            have hc : c.isDigit = false := by simpa using hskip
            split
            · exact hc
            · exact hc

theorem separated_splitIndices {text : CString} (htext : '%' ∉ text) (skip : Bool) :
    separated false (splitIndices skip text).1 = true ∧ Unnumbered (splitIndices skip text).1 := by
  induction text generalizing skip with
  | nil => exact ⟨rfl, fun rest hrest => by simp [splitIndices] at hrest⟩
  | cons c rest ih =>
      have hrest : '%' ∉ rest := fun h => htext (List.mem_cons_of_mem _ h)
      have hc : ¬ c = '%' := fun h => htext (h ▸ List.mem_cons_self)
      obtain ⟨hkept, hskipped⟩ := startsWithDigit_splitIndices rest
      rw [splitIndices]
      split
      · exact ih hrest true
      · split
        · next hindex =>
            -- a placeholder takes the place of the number
            obtain ⟨hsep, hunnumbered⟩ := ih hrest true
            dsimp only
            rw [hindex.1]
            constructor
            · simp [separated, hskipped, hsep]
            · rw [unnumbered_cons, unnumbered_cons]
              exact ⟨fun _ => rfl, fun h => absurd h (by decide), hunnumbered⟩
        · next hindex =>
            obtain ⟨hsep, hunnumbered⟩ := ih hrest false
            dsimp only
            constructor
            · rw [separated, if_neg hc]
              cases c == '_' with
              | false => exact hsep
              | true => exact separated_mono hsep
            · rw [unnumbered_cons]
              refine ⟨fun hunderscore => ?_, hunnumbered⟩
              rw [hkept, Bool.eq_false_iff]
              exact fun hdigit => hindex ⟨hunderscore, hdigit⟩

theorem numPlaceholders_splitIndices (skip : Bool) (text : CString) :
    numPlaceholders (splitIndices skip text).1 =
      numPlaceholders text + (splitIndices skip text).2.length := by
  induction text generalizing skip with
  | nil => rfl
  | cons c rest ih =>
      rw [splitIndices]
      split
      · next hskip =>
          have hc : ¬ c = '%' := by
            rintro rfl
            simp at hskip
          rw [ih true]
          simp [numPlaceholders, hc]
      · split
        · next hindex =>
            have htrue := ih true
            unfold numPlaceholders at htrue ⊢
            rw [hindex.1]
            simp [htrue]
            omega
        · have hfalse := ih false
          unfold numPlaceholders at hfalse ⊢
          dsimp only
          rw [List.count_cons, List.count_cons, hfalse]
          omega

/-! ### Names that are the same -/

theorem isDigit_toLower (c : Char) : c.toLower.isDigit = c.isDigit := by
  cases hc : c.isDigit with
  | true =>
      have hlower : c.toLower = c := (toLower_eq_iff (isDigit_isAlpha hc)).mpr rfl
      rw [hlower, hc]
  | false =>
      rw [Bool.eq_false_iff]
      intro hlower
      have heq : c = c.toLower := (toLower_eq_iff (isDigit_isAlpha hlower)).mp rfl
      rw [← heq, hc] at hlower
      contradiction

theorem startsWithDigit_map_toLower (name : CString) :
    startsWithDigit (name.map Char.toLower) = startsWithDigit name := by
  cases name with
  | nil => rfl
  | cons c rest => exact isDigit_toLower c

theorem separated_map_toLower (behind : Bool) (name : CString) :
    separated behind (name.map Char.toLower) = separated behind name := by
  induction name generalizing behind with
  | nil => rfl
  | cons c rest ih =>
      have hunderscore : (c.toLower == '_') = (c == '_') := by
        rw [Bool.eq_iff_iff, beq_iff_eq, beq_iff_eq]
        exact toLower_eq_iff rfl
      rw [List.map_cons, separated, separated, ih, ih, hunderscore, startsWithDigit_map_toLower]
      by_cases hc : c = '%'
      · rw [if_pos hc, if_pos (toLower_eq_percent.mpr hc)]
      · rw [if_neg hc, if_neg fun h => hc (toLower_eq_percent.mp h)]

theorem separated_congr {a b : CString} (h : sameName a b = true) (behind : Bool) :
    separated behind a = separated behind b := by
  rw [← separated_map_toLower, beq_iff_eq.mp h, separated_map_toLower]

theorem unnumbered_map_toLower (name : CString) :
    Unnumbered (name.map Char.toLower) ↔ Unnumbered name := by
  induction name with
  | nil => exact Iff.rfl
  | cons c rest ih =>
      have hunderscore : c.toLower = '_' ↔ c = '_' := toLower_eq_iff rfl
      rw [List.map_cons, unnumbered_cons, unnumbered_cons, ih, startsWithDigit_map_toLower, hunderscore]

theorem Unnumbered.of_sameName {a b : CString} (h : Unnumbered a) (hsame : sameName a b = true) :
    Unnumbered b := by
  rw [← unnumbered_map_toLower, ← beq_iff_eq.mp hsame, unnumbered_map_toLower]
  exact h

/-! ### Prints -/

theorem isDigit_of_mem_formatInt {n : ℕ} (h : c ∈ formatInt n) : c.isDigit = true := by
  rw [formatInt_natCast] at h
  exact Nat.isDigit_of_mem_toDigits (by omega) (by omega) h

theorem mem_toString (h : c ∈ varInstanceToString name indices) : c ∈ name ∨ c.isDigit = true := by
  induction name generalizing indices with
  | nil => exact absurd h List.not_mem_nil
  | cons d rest ih =>
      unfold varInstanceToString at h
      split at h
      · cases indices with
        | nil =>
            rcases List.mem_cons.mp h with rfl | h
            · exact Or.inl List.mem_cons_self
            · exact (ih h).imp (List.mem_cons_of_mem d) id
        | cons i indices =>
            rcases List.mem_append.mp h with h | h
            · exact Or.inr (isDigit_of_mem_formatInt h)
            · exact (ih h).imp (List.mem_cons_of_mem d) id
      · rcases List.mem_cons.mp h with rfl | h
        · exact Or.inl List.mem_cons_self
        · exact (ih h).imp (List.mem_cons_of_mem d) id

theorem not_mem_toString
    (hlength : indices.length = numPlaceholders name) : '%' ∉ varInstanceToString name indices := by
  induction name generalizing indices with
  | nil => exact List.not_mem_nil
  | cons c rest ih =>
      unfold varInstanceToString
      by_cases hc : c = '%'
      · rw [if_pos hc]
        subst hc
        cases indices with
        | nil => simp [numPlaceholders] at hlength
        | cons i indices =>
            have hlength' : indices.length = numPlaceholders rest := by
              simpa [numPlaceholders] using hlength
            intro h
            rcases List.mem_append.mp h with h | h
            · exact absurd (isDigit_of_mem_formatInt h) (by decide)
            · exact ih hlength' h
      · rw [if_neg hc]
        have hlength' : indices.length = numPlaceholders rest := by
          simpa [numPlaceholders, List.count_cons, hc] using hlength
        intro h
        rcases List.mem_cons.mp h with h | h
        · exact hc h.symm
        · exact ih hlength' h

theorem toString_of_not_mem (h : '%' ∉ name) (indices : List UInt32) :
    varInstanceToString name indices = name ∧ ∀ behind, separated behind name = true := by
  induction name with
  | nil => exact ⟨rfl, fun _ => rfl⟩
  | cons c rest ih =>
      have hc : ¬ c = '%' := fun heq => h (heq ▸ List.mem_cons_self)
      obtain ⟨hprint, hsep⟩ := ih fun hmem => h (List.mem_cons_of_mem c hmem)
      constructor
      · unfold varInstanceToString
        rw [if_neg hc, hprint]
      · intro behind
        rw [separated, if_neg hc, hsep]

theorem numbered_of_index (h : (splitIndices false name).2 ≠ []) : Numbered name := by
  obtain ⟨i, hi⟩ := List.exists_mem_of_ne_nil _ h
  obtain ⟨rest, ⟨front, rfl⟩, hdigit, -⟩ := mem_splitIndices.mp hi
  cases rest with
  | nil => contradiction
  | cons c rest =>
      have hc : ¬ c = '_' := by
        rintro rfl
        contradiction
      obtain ⟨w, words, hwords⟩ := List.exists_cons_of_ne_nil (List.splitOn_ne_nil '_' rest)
      have hword : (c :: w) ∈ (c :: rest).splitOn '_' := by
        rw [List.splitOn_cons_eq_if_modifyHead, if_neg (by simp [hc]), hwords]
        exact List.mem_cons_self
      clear h hi
      have htail : (c :: w) ∈ ((front ++ '_' :: c :: rest).splitOn '_').tail := by
        induction front with
        | nil =>
            rw [List.nil_append, List.splitOn_cons_eq_if_modifyHead '_', if_pos (by simp)]
            exact hword
        | cons d front ih =>
            rw [List.cons_append, List.splitOn_cons_eq_if_modifyHead]
            split
            · exact List.mem_of_mem_tail ih
            · rw [List.tail_modifyHead]
              exact ih
      exact ⟨c :: w, List.mem_of_mem_tail htail, c, w, rfl, hdigit⟩

/-! ### Names on a single line -/

theorem separated_append {w : CString} (hw : ∀ c ∈ w, c ≠ '%' ∧ c ≠ '_') (behind : Bool) (rest : CString) :
    separated behind (w ++ rest) = separated (behind && w.isEmpty) rest := by
  induction w generalizing behind with
  | nil => simp
  | cons c w ih =>
      obtain ⟨hpercent, hunderscore⟩ := hw c List.mem_cons_self
      rw [List.cons_append, separated, if_neg hpercent, beq_false_of_ne hunderscore,
        ih fun d hd => hw d (List.mem_cons_of_mem c hd)]
      simp

theorem isNameWord_chars {w : CString} (h : isNameWord w = true) : ∀ c ∈ w, c ≠ '%' ∧ c ≠ '_' := by
  intro c hc
  have hchar : c.isUpper = true ∨ c.isDigit = true := by
    cases w with
    | nil => contradiction
    | cons d rest =>
        simp only [isNameWord, Bool.and_eq_true, List.all_eq_true, Bool.or_eq_true] at h
        rcases List.mem_cons.mp hc with rfl | hc
        · exact Or.inl h.1
        · exact h.2 c hc
  constructor
  · rintro rfl
    revert hchar
    decide
  · rintro rfl
    revert hchar
    decide

theorem separated_of_isVarName (h : isVarName name = true) (hline : '\n' ∉ name) :
    separated false name = true := by
  obtain ⟨first, words, hsplit, hfirst, hwords⟩ := isVarName_words h hline
  have hglue : separated false (glue '_' words) = true := by
    clear hsplit
    induction words with
    | nil => rfl
    | cons w words ih =>
        have ih := ih fun w hw => hwords w (List.mem_cons_of_mem _ hw)
        rw [glue_cons, List.cons_append, separated, if_neg (by decide)]
        rcases hwords w List.mem_cons_self with hword | rfl
        · rw [separated_append (isNameWord_chars hword), List.isEmpty_eq_false_iff.mpr]
          · simpa using ih
          · rintro rfl
            contradiction
        · have hstart : startsWithDigit (glue '_' words) = false := by
            cases words <;> rfl
          simp [separated, hstart, ih]
  have hname : name = first ++ glue '_' words := by
    have hglued := glue_splitOn '_' name
    rw [hsplit, glue_cons] at hglued
    exact (List.cons.inj hglued).2.symm
  rw [hname, separated_append (isNameWord_chars hfirst)]
  exact hglue

/-! ### Round trips -/

section roundTrips

variable {E : GraphEnv} {scopes : List Graph} {v : ScopedVar} {var : Var}

/-- No other variable has the name, and no template has it or matches it. -/
structure OnlyVariable (E : GraphEnv) (scopes : List Graph) (name : CString) (v : ScopedVar) : Prop where
  var : ∀ k key u, tryGetMemberRec name scopes = some (k, .var key u) → v = ⟨k, u⟩
  tmpl : ∀ g ∈ scopes, ∀ tmpl ∈ g.templates,
    sameName tmpl.name name = false ∧ E.regexec tmpl.name name = false

theorem varScopeTryGetRec_toString (hscopes : ScopesReachable E scopes) (hlive : varAt scopes v = some var)
    (hlength : indices.length = numPlaceholders var.name) (hne : indices ≠ [])
    (honly : OnlyVariable E scopes (varInstanceToString var.name indices) v) :
    varScopeTryGetRec E (varInstanceToString var.name indices) scopes = (none, scopes) := by
  unfold varScopeTryGetRec
  cases hmember : tryGetMemberRec (varInstanceToString var.name indices) scopes with
  | none => exact instantiateRec_of_no_match fun g hg tmpl htmpl => (honly.tmpl g hg tmpl htmpl).2
  | some found =>
      obtain ⟨k, member⟩ := found
      cases member with
      | tmpl template => rfl
      | var key u =>
          -- the variable itself has placeholders in its name
          obtain rfl := honly.var k key u hmember
          obtain ⟨var', hlive', rfl, hname⟩ := tryGetMemberRec_some hscopes hmember
          obtain rfl := Option.some.inj (hlive.symm.trans hlive')
          have hcount := numPlaceholders_of_sameName hname
          have hprint : numPlaceholders (varInstanceToString var.name indices) = 0 :=
            List.count_eq_zero.mpr (not_mem_toString hlength)
          rw [hprint, ← hlength, List.length_eq_zero_iff] at hcount
          contradiction

/-- The print of a complete instance of a variable is read back exactly if the placeholders of the
variable's name are separated. -/
theorem createFromString_toString_iff (hscopes : ScopesReachable E scopes)
    (hfound : FoundAs scopes var.name v var) (hnumber : Unnumbered var.name)
    (hlength : indices.length = var.level)
    (honly : OnlyVariable E scopes (varInstanceToString var.name indices) v) :
    (varInstanceCreateFromStringRec E (varInstanceToString var.name indices) scopes).1 =
        some ⟨v, indices⟩ ↔
      separated false var.name = true := by
  rw [hscopes.level_eq hfound.live] at hlength
  by_cases hne : indices = []
  · subst hne
    have hplain : '%' ∉ var.name := List.count_eq_zero.mp hlength.symm
    obtain ⟨hprint, hsep⟩ := toString_of_not_mem hplain []
    rw [hprint, varInstanceCreateFromStringRec, hfound.varScopeTryGetRec E, hsep]
    simp
  · have hfirst := varScopeTryGetRec_toString hscopes hfound.live hlength hne honly
    rw [varInstanceCreateFromStringRec, hfirst]
    constructor
    · intro hcreated
      obtain ⟨w, hw, heq⟩ := Option.map_eq_some_iff.mp hcreated
      simp only [ScopedInstance.mk.injEq] at heq
      obtain ⟨rfl, -⟩ := heq
      -- what is found under the name in the string is the variable itself
      obtain ⟨-, hkept, hmade⟩ := varScopeTryGetRec_spec hscopes
        (splitIndices false (varInstanceToString var.name indices)).1
      obtain ⟨var', hfound', hname⟩ := hmade w hw
      obtain ⟨var'', hlive, hname'⟩ := hkept.named w var hfound.live
      obtain rfl := Option.some.inj (hlive.symm.trans hfound'.live)
      rw [← hname', separated_congr hname]
      exact (separated_splitIndices (not_mem_toString hlength) false).1
    · intro hsep
      rw [(splitIndices_toString hnumber hlength).1 hsep]
      dsimp only
      rw [hfound.varScopeTryGetRec E]
      rfl

variable {inst : ScopedInstance} {scopes' : List Graph}

theorem createFromString_cases (hscopes : ScopesReachable E scopes)
    (hcreated : varInstanceCreateFromStringRec E name scopes = (some inst, scopes')) :
    ScopesReachable E scopes' ∧ ∃ var, FoundAs scopes' var.name inst.var var ∧
      (inst.indices ≠ [] → inst.indices = (splitIndices false name).2 ∧
        sameName var.name (splitIndices false name).1 = true) := by
  obtain ⟨hreach, -, hmade⟩ := varScopeTryGetRec_spec hscopes name
  unfold varInstanceCreateFromStringRec at hcreated
  generalize varScopeTryGetRec E name scopes = looked at *
  obtain ⟨found, scopes₁⟩ := looked
  cases found with
  | some w =>
      simp only [Prod.mk.injEq, Option.some.injEq] at hcreated
      obtain ⟨rfl, rfl⟩ := hcreated
      obtain ⟨var, hfound, hname⟩ := hmade w rfl
      exact ⟨hreach, var, hfound.congr (sameName_symm hname), fun hne => absurd rfl hne⟩
  | none =>
      simp only [Prod.mk.injEq] at hcreated
      obtain ⟨hinst, rfl⟩ := hcreated
      obtain ⟨hreach', -, hmade'⟩ := varScopeTryGetRec_spec hreach (splitIndices false name).1
      obtain ⟨w, hw, rfl⟩ := Option.map_eq_some_iff.mp hinst
      obtain ⟨var, hfound, hname⟩ := hmade' w hw
      exact ⟨hreach', var, hfound.congr (sameName_symm hname), fun _ => ⟨rfl, hname⟩⟩

theorem createFromString_element (hscopes : ScopesReachable E scopes)
    (hcreated : varInstanceCreateFromStringRec E name scopes = (some inst, scopes'))
    (hlive : varAt scopes' inst.var = some var) (hcomplete : inst.indices.length = var.level)
    (hne : inst.indices ≠ []) :
    sameName var.name (splitIndices false name).1 = true ∧ separated false var.name = true ∧
      Unnumbered var.name := by
  obtain ⟨hreach, var', hfound, hindexed⟩ := createFromString_cases hscopes hcreated
  obtain rfl := Option.some.inj (hlive.symm.trans hfound.live)
  obtain ⟨hindices, hname⟩ := hindexed hne
  have hcount := numPlaceholders_splitIndices false name
  rw [← numPlaceholders_of_sameName hname, ← hreach.level_eq hlive, ← hcomplete, ← hindices] at hcount
  have hplain : '%' ∉ name := by
    apply List.count_eq_zero.mp
    unfold numPlaceholders at hcount
    omega
  obtain ⟨hsep, hnumber⟩ := separated_splitIndices hplain false
  rw [← separated_congr hname] at hsep
  exact ⟨hname, hsep, hnumber.of_sameName (sameName_symm hname)⟩

/-- An instance that has been made from a string is found again under its print exactly if it has no
indices or no variable is found under the print as a whole. -/
theorem createFromString_print_iff (hscopes : ScopesReachable E scopes)
    (hcreated : varInstanceCreateFromStringRec E name scopes = (some inst, scopes'))
    (hlive : varAt scopes' inst.var = some var) (hcomplete : inst.indices.length = var.level) :
    (varInstanceCreateFromStringRec E (varInstanceToString var.name inst.indices) scopes').1 = some inst ↔
      inst.indices = [] ∨
        (varScopeTryGetRec E (varInstanceToString var.name inst.indices) scopes').1 = none := by
  have helement := createFromString_element hscopes hcreated hlive hcomplete
  obtain ⟨hreach, var', hfound, -⟩ := createFromString_cases hscopes hcreated
  obtain rfl := Option.some.inj (hlive.symm.trans hfound.live)
  rw [hreach.level_eq hlive] at hcomplete
  obtain ⟨v, indices⟩ := inst
  dsimp only at hfound helement hcomplete ⊢
  by_cases hne : indices = []
  · subst hne
    have hplain : '%' ∉ var.name := List.count_eq_zero.mp hcomplete.symm
    rw [(toString_of_not_mem hplain []).1, varInstanceCreateFromStringRec, hfound.varScopeTryGetRec E]
    simp
  · obtain ⟨-, hsep, hnumber⟩ := helement hne
    have hsplit := (splitIndices_toString hnumber hcomplete).1 hsep
    -- the variable has more placeholders than its print, so looking up the print leaves it in place
    obtain ⟨-, hkept, -⟩ := varScopeTryGetRec_spec hreach (varInstanceToString var.name indices)
    have hless : numPlaceholders (varInstanceToString var.name indices) < numPlaceholders var.name := by
      have hprint : numPlaceholders (varInstanceToString var.name indices) = 0 :=
        List.count_eq_zero.mpr (not_mem_toString hcomplete)
      have hpos := List.length_pos_iff.mpr hne
      omega
    obtain ⟨var'', hfound'', -⟩ := hkept.seen var.name v var hless hfound
    unfold varInstanceCreateFromStringRec
    generalize varScopeTryGetRec E (varInstanceToString var.name indices) scopes' = looked at *
    obtain ⟨found, scopes''⟩ := looked
    cases found with
    | some w => simp [hne]
    | none =>
        dsimp only at hfound'' ⊢
        rw [hsplit]
        dsimp only
        rw [hfound''.varScopeTryGetRec E]
        simp

theorem mem_splitIndices_name {skip : Bool} {text : CString}
    (h : c ∈ (splitIndices skip text).1) : c ∈ text ∨ c = '%' := by
  induction text generalizing skip with
  | nil => exact absurd h List.not_mem_nil
  | cons d rest ih =>
      rw [splitIndices] at h
      split at h
      · exact (ih h).imp (List.mem_cons_of_mem d) id
      · split at h
        · rcases List.mem_cons.mp h with rfl | h
          · exact Or.inl List.mem_cons_self
          · rcases List.mem_cons.mp h with rfl | h
            · exact Or.inr rfl
            · exact (ih h).imp (List.mem_cons_of_mem d) id
        · rcases List.mem_cons.mp h with rfl | h
          · exact Or.inl List.mem_cons_self
          · exact (ih h).imp (List.mem_cons_of_mem d) id

theorem print_not_found (hscopes : ScopesReachable E scopes) (hlive : varAt scopes v = some var)
    (hnumber : Unnumbered var.name) (hline : '\n' ∉ var.name)
    (hlength : indices.length = numPlaceholders var.name) (hne : indices ≠ []) :
    (varScopeTryGetRec E (varInstanceToString var.name indices) scopes).1 = none := by
  have hsep := separated_of_isVarName (hscopes.isVarName hlive) hline
  have hsplit := (splitIndices_toString hnumber hlength).1 hsep
  apply varScopeTryGetRec_of_numbered hscopes
  · apply numbered_of_index
    rw [hsplit]
    exact hne
  · intro hmem
    rcases mem_toString hmem with hname | hdigit
    · exact hline hname
    · revert hdigit
      decide

theorem createFromString_print_of_line (hscopes : ScopesReachable E scopes)
    (hcreated : varInstanceCreateFromStringRec E name scopes = (some inst, scopes'))
    (hlive : varAt scopes' inst.var = some var) (hcomplete : inst.indices.length = var.level)
    (hline : '\n' ∉ name) :
    (varInstanceCreateFromStringRec E (varInstanceToString var.name inst.indices) scopes').1 = some inst := by
  rw [createFromString_print_iff hscopes hcreated hlive hcomplete]
  by_cases hne : inst.indices = []
  · exact Or.inl hne
  · right
    obtain ⟨hreach, -⟩ := createFromString_cases hscopes hcreated
    obtain ⟨hname, -, hnumber⟩ := createFromString_element hscopes hcreated hlive hcomplete hne
    rw [hreach.level_eq hlive] at hcomplete
    have hvarLine : '\n' ∉ var.name := by
      apply sameName_not_mem rfl hname
      intro hmem
      rcases mem_splitIndices_name hmem with hmem | heq
      · exact hline hmem
      · revert heq
        decide
    exact print_not_found hreach hlive hnumber hvarLine hcomplete hne

end roundTrips

/-- **Names of instances make the round trip as far as the name of the variable keeps its placeholders
apart from the rest.**  The print of a complete instance of a variable, which is the name of no other
variable and matches no template, is read as this instance exactly if every placeholder of the variable's
name stands behind a separator and in front of no digit.  The print of a complete instance that has been
made from a string is read as this instance exactly if it has no indices or no variable has the print for
its name.  Both is so for names and strings on a single line. -/
theorem instanceNames_roundTrip {E : GraphEnv} {scopes : List Graph} (hscopes : ScopesReachable E scopes) :
    (∀ v var indices, FoundAs scopes var.name v var → Unnumbered var.name →
      indices.length = var.level →
      OnlyVariable E scopes (varInstanceToString var.name indices) v →
      ((varInstanceCreateFromStringRec E (varInstanceToString var.name indices) scopes).1 =
          some ⟨v, indices⟩ ↔ separated false var.name = true) ∧
        ('\n' ∉ var.name →
          (varInstanceCreateFromStringRec E (varInstanceToString var.name indices) scopes).1 =
            some ⟨v, indices⟩)) ∧
    (∀ g outer v var, scopes = g :: outer → g.vars v = some var → FoundAs scopes var.name ⟨0, v⟩ var) ∧
    ∀ name inst scopes', varInstanceCreateFromStringRec E name scopes = (some inst, scopes') →
      ∃ var, varAt scopes' inst.var = some var ∧ (inst.indices.length = var.level →
        ((varInstanceCreateFromStringRec E (varInstanceToString var.name inst.indices) scopes').1 =
            some inst ↔
          inst.indices = [] ∨
            (varScopeTryGetRec E (varInstanceToString var.name inst.indices) scopes').1 = none) ∧
        ('\n' ∉ name →
          (varInstanceCreateFromStringRec E (varInstanceToString var.name inst.indices) scopes').1 =
            some inst)) := by
  refine ⟨?_, ?_, ?_⟩
  · intro v var indices hfound hnumber hlength honly
    have hiff := createFromString_toString_iff hscopes hfound hnumber hlength honly
    exact ⟨hiff, fun hline => hiff.mpr (separated_of_isVarName (hscopes.isVarName hfound.live) hline)⟩
  · rintro g outer v var rfl hlive
    exact foundAs_of_live (hscopes g List.mem_cons_self) hlive
  · intro name inst scopes' hcreated
    obtain ⟨-, var, hfound, -⟩ := createFromString_cases hscopes hcreated
    refine ⟨var, hfound.live, fun hcomplete => ⟨?_, ?_⟩⟩
    · exact createFromString_print_iff hscopes hcreated hfound.live hcomplete
    · exact createFromString_print_of_line hscopes hcreated hfound.live hcomplete

/-- With `X_%` (variable 1) defined, `X_3` is its third element. -/
theorem instanceNames_roundTrip_X_3 :
    (varInstanceCreateFromStringRec sampleEnv "X_3".toList [(definedState "X_%".toList).graph]).1 =
      some ⟨⟨0, 1⟩, [2]⟩ := by
  have hscopes : ScopesReachable sampleEnv [(definedState "X_%".toList).graph] := by
    intro g hg
    obtain rfl := List.mem_singleton.mp hg
    exact (definedState "X_%".toList).reachable
  have hname : ((definedState "X_%".toList).graph.vars 1).map (fun var => (var.name, var.level)) =
      some ("X_%".toList, 1) := by decide
  obtain ⟨var, hlive, heq⟩ := Option.map_eq_some_iff.mp hname
  obtain ⟨hvarName, hlevel⟩ := Prod.mk.inj heq
  obtain ⟨helement, hfoundAs, -⟩ := instanceNames_roundTrip hscopes
  have hprint : varInstanceToString var.name [2] = "X_3".toList := by
    rw [hvarName]
    decide
  rw [← hprint]
  refine (helement ⟨0, 1⟩ var [2] (hfoundAs _ [] 1 var rfl hlive) ?_ hlevel.symm ⟨?_, ?_⟩).2 ?_
  · rw [hvarName]
    unfold Unnumbered
    intro rest hrest
    simp [List.suffix_cons_iff] at hrest
    subst hrest
    rfl
  · rw [hprint]
    intro k key u hmember
    have hnone : tryGetMemberRec "X_3".toList [(definedState "X_%".toList).graph] = none := by decide
    rw [hnone] at hmember
    contradiction
  · rw [hprint]
    intro g hg tmpl htmpl
    obtain rfl := List.mem_singleton.mp hg
    have hnone : (definedState "X_%".toList).graph.templates = [] := by decide
    rw [hnone] at htmpl
    contradiction
  · rw [hvarName]
    decide

/-- The name `A\nB%` (variable 1) is accepted, since its first line is.  The print of its first element is
`A\nB1`, in which no number stands behind a separator, so that it is not read. -/
theorem instanceNames_broken_on_two_lines :
    ∃ var, FoundAs [(definedState "A\nB%".toList).graph] var.name ⟨0, 1⟩ var ∧
      GraphRun sampleEnv Graph.empty (definedState "A\nB%".toList).graph ∧
      Unnumbered var.name ∧ var.level = 1 ∧ (0 : UInt32).toNat + 1 ≤ 2147483647 ∧
      OnlyVariable sampleEnv [(definedState "A\nB%".toList).graph] (varInstanceToString var.name [0])
        ⟨0, 1⟩ ∧
      (varInstanceCreateFromStringRec sampleEnv (varInstanceToString var.name [0])
        [(definedState "A\nB%".toList).graph]).1 = none := by
  have hname : ((definedState "A\nB%".toList).graph.vars 1).map (fun var => (var.name, var.level)) =
      some ("A\nB%".toList, 1) := by decide
  obtain ⟨var, hlive, heq⟩ := Option.map_eq_some_iff.mp hname
  obtain ⟨hvarName, hlevel⟩ := Prod.mk.inj heq
  have hprint : varInstanceToString var.name [0] = "A\nB1".toList := by
    rw [hvarName]
    decide
  have hrun := (definedState "A\nB%".toList).reachable
  refine ⟨var, foundAs_of_live hrun hlive, hrun, ?_, hlevel, by decide, ⟨?_, ?_⟩, ?_⟩
  · rw [hvarName]
    intro rest hrest
    simp [List.suffix_cons_iff] at hrest
  · rw [hprint]
    intro k key u hmember
    have hnone : tryGetMemberRec "A\nB1".toList [(definedState "A\nB%".toList).graph] = none := by decide
    rw [hnone] at hmember
    contradiction
  · intro g hg tmpl htmpl
    obtain rfl := List.mem_singleton.mp hg
    have hnone : (definedState "A\nB%".toList).graph.templates = [] := by decide
    rw [hnone] at htmpl
    contradiction
  · rw [hprint]
    decide

end Mkfli4l
