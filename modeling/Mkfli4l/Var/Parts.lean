import Mkfli4l.Base.DynamicStrings
import Mkfli4l.Lib.Words

/-!
# Parts of the names of variables

A variable is a top-level one, a member of a structure or an element of an array, and the chain of its parts
goes from the inside out.  In the classic notation the names and indices are joined by underscores, and `%`
stands for the index zero, which marks an array without an index.

The printer follows the chain and appends, and the parser cuts the string at the underscores and builds the
chain from the left.  Each of them undoes the other one, so far as the text has a length that the strings on
the heap can have (`Printable`).
-/

namespace Mkfli4l
namespace VarPart

open Lib Base

/-! ## The source -/

/-- `struct var_part_t`. -/
inductive Part
  | topLevel (name : CString)
  | struct (parent : Part) (name : CString)
  | array (parent : Part) (index : UInt32)
deriving DecidableEq

/-- An index in the classic notation. -/
def indexText (index : UInt32) : CString :=
  if index = 0 then ['%'] else Nat.toDigits 10 index.toNat

/-- `var_part_to_string_classic_style`. -/
def toStringClassicStyle : Part → Option CString
  | .topLevel name => some name
  | .struct parent name => do
      let s ← toStringClassicStyle parent
      let s ← strcatSave s ['_']
      strcatSave s name
  | .array parent index => do
      let s ← toStringClassicStyle parent
      let s ← strcatSave s ['_']
      strcatSave s (indexText index)

/-- The part that a component between two separators adds to the chain. -/
def createPart (last : Option Part) (p : CString) : Part :=
  match last with
  | none => .topLevel p
  | some last =>
      if (p.head?.any Char.isDigit) = true then .array last (toUInt32 (atoi p))
      else if p = ['%'] then .array last 0
      else .struct last p

/-- The loop of `var_part_create_from_string_classic_style`. -/
def createLoop (last : Option Part) (p : CString) : Option Part :=
  if h : '_' ∈ p then
    let component := p.takeWhile (· ≠ '_')
    -- "empty components are not supported"
    if component = [] then none
    else createLoop (some (createPart last component)) (p.drop (component.length + 1))
  else last
termination_by p.length
decreasing_by
  have hpos := List.length_pos_of_mem h
  rw [List.length_drop]
  omega

/-- `var_part_create_from_string_classic_style`. -/
def createFromStringClassicStyle (name : CString) : Option Part := createLoop none (name ++ ['_'])

/-! ## Chains and their components -/

/-- The components of a chain, from the outside in. -/
def Part.components : Part → List CString
  | .topLevel name => [name]
  | .struct parent name => parent.components ++ [name]
  | .array parent index => parent.components ++ [indexText index]

/-- The text of a chain, with a separator in front. -/
def Part.text (part : Part) : CString := (glue '_' part.components).tail

/-- The names of a chain are those that the classic notation can express. -/
def Part.Valid : Part → Prop
  | .topLevel name => name ≠ [] ∧ '_' ∉ name
  | .struct parent name =>
      parent.Valid ∧ name ≠ [] ∧ '_' ∉ name ∧ (name.head?.any Char.isDigit) = false ∧ name ≠ ['%']
  | .array parent _ => parent.Valid

/-- The chain is a single part, or its text has a length that fits in an `int` with the terminating NUL. -/
def Part.Printable (part : Part) : Prop :=
  (∃ name, part = .topLevel name) ∨ (part.text.length : ℤ) < intMax

/-- The printer returns a text, and the parser rebuilds the chain from it. -/
def RoundTrips (part : Part) : Prop :=
  ∃ s, toStringClassicStyle part = some s ∧ createFromStringClassicStyle s = some part

/-- A chain that grows by one component after the other. -/
def createAll (components : List CString) : Option Part :=
  components.foldl (fun last p => some (createPart last p)) none

/-! ## Components -/

section Components

variable {name w : CString} {words : List CString} {part : Part} {last : Option Part}

theorem flatMap_splitOn (name : CString) : (name.splitOn '_').flatMap (· ++ ['_']) = name ++ ['_'] := by
  have hshift : ∀ words : List CString,
      '_' :: words.flatMap (· ++ ['_']) = glue '_' words ++ ['_'] := by
    intro words
    induction words with
    | nil => rfl
    | cons w words ih =>
        rw [List.flatMap_cons, glue_cons, List.append_assoc, List.singleton_append, ih]
        simp
  have hname := hshift (name.splitOn '_')
  rw [glue_splitOn, List.cons_append] at hname
  exact (List.cons.inj hname).2

theorem createLoop_flatMap (hwords : ∀ w ∈ words, '_' ∉ w) :
    createLoop last (words.flatMap (· ++ ['_'])) =
      if [] ∈ words then none else words.foldl (fun last p => some (createPart last p)) last := by
  induction words generalizing last with
  | nil =>
      rw [List.flatMap_nil, createLoop, dif_neg List.not_mem_nil]
      rfl
  | cons w words ih =>
      have hw := hwords w List.mem_cons_self
      have hrest : createLoop (some (createPart last w)) (words.flatMap (· ++ ['_'])) = _ :=
        ih fun u hu => hwords u (List.mem_cons_of_mem w hu)
      have htext : (w :: words).flatMap (· ++ ['_']) = w ++ '_' :: words.flatMap (· ++ ['_']) := by
        rw [List.flatMap_cons, List.append_assoc, List.singleton_append]
      -- the component has no separator, so that the first one is the one behind it
      have htake : (w ++ '_' :: words.flatMap (· ++ ['_'])).takeWhile (· ≠ '_') = w := by
        rw [List.takeWhile_append_of_pos]
        · simp
        · intro c hc
          have hne : c ≠ '_' := fun heq => hw (heq ▸ hc)
          exact decide_eq_true hne
      have hdrop : (w ++ '_' :: words.flatMap (· ++ ['_'])).drop (w.length + 1) =
          words.flatMap (· ++ ['_']) := by
        rw [List.drop_append, List.drop_of_length_le (Nat.le_succ _), Nat.add_sub_cancel_left]
        rfl
      rw [htext, createLoop, dif_pos (List.mem_append_right w List.mem_cons_self)]
      dsimp only
      rw [htake, hdrop]
      by_cases hempty : w = []
      · rw [if_pos hempty, if_pos (hempty ▸ List.mem_cons_self)]
      · rw [if_neg hempty, hrest, List.foldl_cons]
        refine if_congr ?_ rfl rfl
        rw [List.mem_cons]
        exact (or_iff_right (Ne.symm hempty)).symm

theorem createFromStringClassicStyle_eq (name : CString) :
    createFromStringClassicStyle name =
      if [] ∈ name.splitOn '_' then none else createAll (name.splitOn '_') := by
  rw [createFromStringClassicStyle, ← flatMap_splitOn]
  exact createLoop_flatMap fun w hw => not_mem_of_mem_splitOn hw

theorem createAll_snoc (words : List CString) (w : CString) :
    createAll (words ++ [w]) = some (createPart (createAll words) w) := by
  rw [createAll, List.foldl_append]
  rfl

theorem components_ne_nil (part : Part) : part.components ≠ [] := by
  cases part <;> simp [Part.components]

theorem cons_text (part : Part) : '_' :: part.text = glue '_' part.components := by
  obtain ⟨w, words, hwords⟩ := List.exists_cons_of_ne_nil (components_ne_nil part)
  rw [Part.text, hwords]
  rfl

theorem text_topLevel (name : CString) : (Part.topLevel name).text = name := by
  simp [Part.text, Part.components]

theorem text_eq_append (part parent : Part) (h : part.components = parent.components ++ [w]) :
    part.text = parent.text ++ ['_'] ++ w := by
  have htext := cons_text part
  rw [h, glue_append, ← cons_text] at htext
  simpa using htext

end Components

/-! ## Indices -/

theorem indexText_ne_nil (index : UInt32) : indexText index ≠ [] := by
  unfold indexText
  split_ifs
  · exact List.cons_ne_nil _ _
  · exact Nat.toDigits_ne_nil

theorem underscore_notMem_indexText (index : UInt32) : '_' ∉ indexText index := by
  unfold indexText
  split_ifs
  · decide
  · exact Nat.underscore_not_in_toDigits

theorem createPart_indexText (parent : Part) (index : UInt32) :
    createPart (some parent) (indexText index) = .array parent index := by
  unfold indexText
  split_ifs with hzero
  · rw [hzero]
    rfl
  · have hhead : ((Nat.toDigits 10 index.toNat).head?.any Char.isDigit) = true := by
      cases hdigits : Nat.toDigits 10 index.toNat with
      | nil => exact absurd hdigits Nat.toDigits_ne_nil
      | cons c digits =>
          have hc : c ∈ Nat.toDigits 10 index.toNat := hdigits ▸ List.mem_cons_self
          exact Nat.isDigit_of_mem_toDigits (by decide) (by decide) hc
    unfold createPart
    dsimp only
    rw [if_pos hhead, toUInt32_atoi_toDigits]

theorem length_indexText_le {p : CString} (hhead : (p.head?.any Char.isDigit) = true) :
    (indexText (toUInt32 (atoi p))).length ≤ p.length := by
  -- `atoi` reads the digits at the beginning, and at least the first character is one
  have hsplit := List.takeWhile_append_dropWhile (p := isDigitOf 10) (l := p)
  have hne : p.takeWhile (isDigitOf 10) ≠ [] := by
    cases p with
    | nil => exact nomatch hhead
    | cons c p =>
        have hc : isDigitOf 10 c = true := isDigitOf_ten_of_isDigit hhead
        rw [List.takeWhile_cons, if_pos hc]
        exact List.cons_ne_nil _ _
  have hdigits : ∀ c ∈ p.takeWhile (isDigitOf 10), c.isDigit = true := fun c hc =>
    isDigit_of_isDigitOf_ten (List.mem_takeWhile_imp hc)
  have hrest : (p.dropWhile (isDigitOf 10)).takeWhile (isDigitOf 10) = [] := by
    cases hdrop : p.dropWhile (isDigitOf 10) with
    | nil => rfl
    | cons c rest =>
        have hfirst := List.head?_dropWhile_not (isDigitOf 10) p
        rw [hdrop] at hfirst
        rw [List.takeWhile_cons, if_neg (by simpa using hfirst)]
  have hle := length_toDigits_atoi_le _ hne hdigits hrest
  have hlength := congrArg List.length hsplit
  have hpos := List.length_pos_of_ne_nil hne
  rw [hsplit] at hle
  rw [List.length_append] at hlength
  unfold indexText
  split_ifs
  · rw [List.length_singleton]
    omega
  · omega

/-! ## Printing and parsing -/

section RoundTrip

variable {part parent : Part} {s p : CString} {last : Option Part} {words : List CString}

theorem Part.Valid.components (h : part.Valid) : ∀ w ∈ part.components, w ≠ [] ∧ '_' ∉ w := by
  induction part with
  | topLevel name =>
      intro w hw
      obtain rfl := List.mem_singleton.mp hw
      exact h
  | struct parent name ih =>
      obtain ⟨hparent, hne, hsep, -⟩ := h
      intro w hw
      rcases List.mem_append.mp hw with hw | hw
      · exact ih hparent w hw
      · obtain rfl := List.mem_singleton.mp hw
        exact ⟨hne, hsep⟩
  | array parent index ih =>
      intro w hw
      rcases List.mem_append.mp hw with hw | hw
      · exact ih h w hw
      · obtain rfl := List.mem_singleton.mp hw
        exact ⟨indexText_ne_nil index, underscore_notMem_indexText index⟩

theorem createAll_components (h : part.Valid) : createAll part.components = some part := by
  induction part with
  | topLevel name => rfl
  | struct parent name ih =>
      obtain ⟨hparent, -, -, hdigit, hpercent⟩ := h
      rw [Part.components, createAll_snoc, ih hparent, createPart, hdigit, if_neg Bool.false_ne_true,
        if_neg hpercent]
  | array parent index ih =>
      rw [Part.components, createAll_snoc, ih h, createPart_indexText]

theorem createFromStringClassicStyle_text (h : part.Valid) :
    createFromStringClassicStyle part.text = some part := by
  have hsplit : part.text.splitOn '_' = part.components :=
    splitOn_of_glue (cons_text part) fun w hw => (h.components w hw).2
  rw [createFromStringClassicStyle_eq, hsplit, if_neg fun hmem => (h.components [] hmem).1 rfl]
  exact createAll_components h

theorem toStringClassicStyle_append {w : CString} (hparent : toStringClassicStyle parent = some parent.text)
    (htext : part.text = parent.text ++ ['_'] ++ w) (hfits : (part.text.length : ℤ) < intMax) :
    (toStringClassicStyle parent >>= fun s => strcatSave s ['_'] >>= fun s => strcatSave s w) =
      some part.text := by
  rw [htext] at hfits ⊢
  have hsep : ((parent.text ++ ['_']).length : ℤ) < intMax := by
    rw [List.length_append] at hfits
    omega
  rw [hparent, Option.bind_eq_bind, Option.bind_some, strcatSave_eq_append hsep, Option.bind_some,
    strcatSave_eq_append hfits]

theorem toStringClassicStyle_text (hfits : (part.text.length : ℤ) < intMax) :
    toStringClassicStyle part = some part.text := by
  induction part with
  | topLevel name =>
      rw [text_topLevel]
      rfl
  | struct parent name ih =>
      have htext := text_eq_append (.struct parent name) parent rfl
      have hparent := ih (by
        rw [htext, List.length_append, List.length_append] at hfits
        omega)
      exact toStringClassicStyle_append hparent htext hfits
  | array parent index ih =>
      have htext := text_eq_append (.array parent index) parent rfl
      have hparent := ih (by
        rw [htext, List.length_append, List.length_append] at hfits
        omega)
      exact toStringClassicStyle_append hparent htext hfits

theorem Part.Printable.toStringClassicStyle (h : part.Printable) :
    toStringClassicStyle part = some part.text := by
  rcases h with ⟨name, rfl⟩ | hfits
  · rw [text_topLevel]
    rfl
  · exact toStringClassicStyle_text hfits

theorem length_toStringClassicStyle (h : toStringClassicStyle part = some s) :
    (∃ name, part = .topLevel name) ∨ (s.length : ℤ) < intMax := by
  cases part with
  | topLevel name => exact Or.inl ⟨name, rfl⟩
  | struct parent name =>
      obtain ⟨s₁, -, h⟩ := Option.bind_eq_some_iff.mp h
      obtain ⟨s₂, -, h⟩ := Option.bind_eq_some_iff.mp h
      exact Or.inr (length_strcatSave_lt h)
  | array parent index =>
      obtain ⟨s₁, -, h⟩ := Option.bind_eq_some_iff.mp h
      obtain ⟨s₂, -, h⟩ := Option.bind_eq_some_iff.mp h
      exact Or.inr (length_strcatSave_lt h)

theorem createPart_spec (hlast : ∀ l, last = some l → l.Valid) (hne : p ≠ []) (hsep : '_' ∉ p) :
    (createPart last p).Valid ∧ ∃ w, w.length ≤ p.length ∧
      (createPart last p).components = (last.elim [] Part.components) ++ [w] := by
  cases last with
  | none => exact ⟨⟨hne, hsep⟩, p, Nat.le_refl _, rfl⟩
  | some l =>
      have hl := hlast l rfl
      unfold createPart
      dsimp only
      split_ifs with hdigit hpercent
      · exact ⟨hl, _, length_indexText_le hdigit, rfl⟩
      · subst hpercent
        exact ⟨hl, _, Nat.le_refl _, rfl⟩
      · exact ⟨⟨hl, hne, hsep, Bool.eq_false_of_not_eq_true hdigit, hpercent⟩, p, Nat.le_refl _, rfl⟩

theorem createAll_spec (hwords : ∀ w ∈ words, w ≠ [] ∧ '_' ∉ w) (h : createAll words = some part) :
    part.Valid ∧ (glue '_' part.components).length ≤ (glue '_' words).length := by
  -- the parser builds the chain from the left, so the last component is its last part
  induction words using List.reverseRecOn generalizing part with
  | nil => exact nomatch h
  | append_singleton words w ih =>
      obtain ⟨hne, hsep⟩ := hwords w (List.mem_append_right words List.mem_cons_self)
      have hfront : ∀ l, createAll words = some l →
          l.Valid ∧ (glue '_' l.components).length ≤ (glue '_' words).length := fun l =>
        ih fun u hu => hwords u (List.mem_append_left [w] hu)
      rw [createAll_snoc] at h
      obtain rfl := Option.some.inj h
      obtain ⟨hvalid, u, hu, hcomponents⟩ := createPart_spec (fun l hl => (hfront l hl).1) hne hsep
      refine ⟨hvalid, ?_⟩
      have hle : (glue '_' ((createAll words).elim [] Part.components)).length ≤ (glue '_' words).length := by
        cases hlast : createAll words with
        | none => exact Nat.zero_le _
        | some l => exact (hfront l hlast).2
      rw [hcomponents, glue_append, glue_append, List.length_append, List.length_append]
      refine Nat.add_le_add hle ?_
      simpa using hu

theorem of_createFromString (h : createFromStringClassicStyle s = some part) :
    part.Valid ∧ part.text.length ≤ s.length := by
  rw [createFromStringClassicStyle_eq] at h
  split_ifs at h with hempty
  obtain ⟨hvalid, hle⟩ := createAll_spec (fun w hw =>
    ⟨fun heq => hempty (heq ▸ hw), not_mem_of_mem_splitOn hw⟩) h
  rw [glue_splitOn, ← cons_text] at hle
  exact ⟨hvalid, Nat.le_of_succ_le_succ hle⟩

theorem Part.Valid.roundTrips (h : part.Valid) : RoundTrips part ↔ part.Printable := by
  constructor
  · rintro ⟨s, hprint, hparse⟩
    refine (length_toStringClassicStyle hprint).imp_right fun hlength => ?_
    have hle := (of_createFromString hparse).2
    omega
  · intro hprintable
    exact ⟨part.text, hprintable.toStringClassicStyle, createFromStringClassicStyle_text h⟩

end RoundTrip

/-- Printing and parsing give the same chain again, for the chains that the classic notation can express as
well as for those that the parser builds, so far as the text is short enough for the printer. -/
theorem roundTrips_iff (part : Part)
    (h : part.Valid ∨ ∃ s, createFromStringClassicStyle s = some part) :
    RoundTrips part ↔ part.Printable := by
  rcases h with hvalid | ⟨s, hparse⟩
  · exact hvalid.roundTrips
  · exact (of_createFromString hparse).1.roundTrips

/-- An element without an index of a member of another element; the string has a leading zero. -/
theorem roundTrips_sample :
    RoundTrips (.array (.struct (.array (.topLevel "ABC".toList) 3) "DEF".toList) 0) ∧
      ∃ part, createFromStringClassicStyle "ABC_03_DEF_0".toList = some part ∧ RoundTrips part := by
  have hvalid : (Part.array (.struct (.array (.topLevel "ABC".toList) 3) "DEF".toList) 0).Valid :=
    ⟨⟨by decide, by decide⟩, by decide, by decide, by decide, by decide⟩
  have hparse : createFromStringClassicStyle "ABC_03_DEF_0".toList =
      some (.array (.struct (.array (.topLevel "ABC".toList) 3) "DEF".toList) 0) := by
    rw [createFromStringClassicStyle_eq]
    decide +kernel
  have hprintable : (Part.array (.struct (.array (.topLevel "ABC".toList) 3) "DEF".toList) 0).Printable :=
    Or.inr (by decide +kernel)
  exact ⟨(roundTrips_iff _ (Or.inl hvalid)).mpr hprintable, _, hparse,
    (roundTrips_iff _ (Or.inr ⟨_, hparse⟩)).mpr hprintable⟩

/-- A member of a variable with a long name. -/
def longChain (n : ℕ) : Part := .struct (.topLevel (List.replicate n 'a')) ['b']

theorem toStringClassicStyle_longChain {n : ℕ} (hn : 5 ≤ n) (hint : toInt32 n = 5) :
    toStringClassicStyle (longChain n) = some "aaaaa_b".toList := by
  have hfirst : strcatSave (List.replicate n 'a') ['_'] = some "aaaaa_".toList := by
    have htake : (List.replicate n 'a').take 5 = "aaaaa".toList := by
      rw [List.take_replicate, Nat.min_eq_left hn]
      rfl
    unfold strcatSave
    rw [List.length_replicate, hint]
    dsimp only
    rw [if_pos (by decide)]
    exact congrArg (fun s => some (s ++ ['_'])) htake
  have hsecond : strcatSave "aaaaa_".toList ['b'] = some "aaaaa_b".toList := by decide
  rw [longChain, toStringClassicStyle, toStringClassicStyle, Option.bind_eq_bind, Option.bind_some, hfirst,
    Option.bind_some, hsecond]

theorem length_text_longChain (n : ℕ) : (longChain n).text.length = n + 2 := by
  rw [text_eq_append (longChain n) (.topLevel (List.replicate n 'a')) rfl, text_topLevel, List.length_append,
    List.length_append, List.length_replicate]
  rfl

theorem not_roundTrips_longChain :
    (longChain 4294967301).Valid ∧ toStringClassicStyle (longChain 4294967301) = some "aaaaa_b".toList ∧
      ¬ RoundTrips (longChain 4294967301) := by
  have hprint := toStringClassicStyle_longChain (n := 4294967301) (by decide) (by decide)
  refine ⟨⟨⟨?_, ?_⟩, by decide, by decide, by decide, by decide⟩, hprint, ?_⟩
  · intro hnil
    have hlength := congrArg List.length hnil
    rw [List.length_replicate] at hlength
    exact absurd hlength (by decide)
  · intro hmem
    exact absurd (List.eq_of_mem_replicate hmem) (by decide)
  · rintro ⟨s, hs, hparse⟩
    obtain rfl := Option.some.inj (hprint.symm.trans hs)
    have hle := (of_createFromString hparse).2
    rw [length_text_longChain] at hle
    exact absurd hle (by decide)

end VarPart
end Mkfli4l
