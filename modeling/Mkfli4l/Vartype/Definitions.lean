import Mathlib.Data.List.AList
import Mkfli4l.Vartype.Expansion

/-!
# Definitions and extensions of variable types

The packages define types and extend the types of each other.  A type may be mentioned before it is
defined, be it in an expression or as the target of an extension; a placeholder then stands for it.
Three types are predefined, and a package may define them again with the same expression.

The order in which the packages are read does not matter: the predefined types are compiled when they
are created, so that nothing can extend them, and a definition of one of them is always compared with
the original expression.
-/

namespace Mkfli4l
namespace Vartype

open Lib

/-- The key of a type: names are compared without regard to case. -/
def typeKey (name : CString) : CString := name.map Char.toLower

/-- The hash map `vartypes`. -/
abbrev Store := AList fun _ : CString => VarType CString

def vartypeCreate (name : CString) (expr : Option (Regex CString)) : VarType CString where
  name := name
  expr := expr
  extensions := []
  predefined := false
  compiled := false

/-- The type with a key.  For a key without a type, the placeholder that a reference would create. -/
def Store.typeAt (s : Store) (key : CString) : VarType CString :=
  (s.lookup key).getD (vartypeCreate key none)

def vartypeGetOrAdd (name : CString) (s : Store) : Store :=
  match s.lookup (typeKey name) with
  | some _ => s
  | none => s.insert (typeKey name) (vartypeCreate name none)

/-- `strstr`: what stands before the first occurrence, and the text from there on. -/
def strstr (pat : CString) : CString → Option (CString × CString)
  | [] => if pat = [] then some ([], []) else none
  | c :: s =>
      if pat <+: c :: s then
        some ([], c :: s)
      else
        (strstr pat s).map fun found => (c :: found.1, found.2)

theorem strstr_some {pat s before after : CString} (h : strstr pat s = some (before, after)) :
    before ++ after = s ∧ pat <+: after := by
  induction s generalizing before with
  | nil =>
      simp only [strstr] at h
      split at h
      · next hpat =>
          obtain ⟨rfl, rfl⟩ := Prod.mk.inj (Option.some.inj h)
          exact ⟨rfl, hpat ▸ List.nil_prefix⟩
      · exact nomatch h
  | cons c s ih =>
      simp only [strstr] at h
      split at h
      · next hpat =>
          obtain ⟨rfl, rfl⟩ := Prod.mk.inj (Option.some.inj h)
          exact ⟨rfl, hpat⟩
      · obtain ⟨⟨before', after'⟩, hfound, heq⟩ := Option.map_eq_some_iff.mp h
        obtain ⟨rfl, rfl⟩ := Prod.mk.inj heq
        obtain ⟨happend, hpat⟩ := ih hfound
        exact ⟨by rw [List.cons_append, happend], hpat⟩

theorem length_behind_reference {start text next reference rest : CString}
    (hnext : strstr "(RE:".toList start = some (text, next))
    (hend : strstr ")".toList next = some (reference, rest)) : (rest.drop 1).length < start.length := by
  obtain ⟨hstart, -⟩ := strstr_some hnext
  obtain ⟨hrest, hclose⟩ := strstr_some hend
  have hpositive : 1 ≤ rest.length := hclose.length_le
  have hlength := congrArg List.length hstart
  have hlength' := congrArg List.length hrest
  simp only [List.length_append, List.length_drop] at *
  omega

def vartypeRegexAddString (last : Regex CString) (text : CString) (force : Bool) : Regex CString :=
  if text ≠ [] ∨ force = true then .str text :: last else last

/-- `vartype_regex_parse`: the parts found so far are `last`, and `start` is the rest of the text. -/
def vartypeRegexParse (last : Regex CString) (start : CString) (s : Store) :
    Regex CString × Store :=
  match _hnext : strstr "(RE:".toList start with
  | none => (vartypeRegexAddString last start true, s)
  | some (text, next) =>
      match _hend : strstr ")".toList next with
      | none => (vartypeRegexAddString last start true, s)
      | some (reference, rest) =>
          let name := reference.drop "(RE:".length
          vartypeRegexParse (.ref (typeKey name) :: vartypeRegexAddString last text false)
            (rest.drop 1) (vartypeGetOrAdd name s)
termination_by start.length
decreasing_by exact length_behind_reference _hnext _hend

/-- Sets the type with the key of a name. -/
def Store.setType (s : Store) (name : CString) (type : VarType CString) : Store :=
  s.insert (typeKey name) type

/-- The end of `vartype_add`: the type gets its expression and is not predefined any more. -/
def VarType.withExpr (type : VarType CString) (e : Regex CString) : VarType CString :=
  { type with expr := some e, predefined := false }

/-- `vartype_add` with an expression; `none` stands for `NULL`. -/
def vartypeAdd (name expr : CString) (s : Store) : Option Store :=
  let parsed := vartypeRegexParse [] expr s
  let e := parsed.1
  let s := parsed.2
  match s.lookup (typeKey name) with
  | none => some (s.setType name (vartypeCreate name (some e)))
  | some type =>
      match type.expr with
      | none => some (s.setType name (type.withExpr e))
      | some _ =>
          if type.predefined then
            match vartypeGetRegex s.typeAt 1 false (typeKey name) (fun _ => false) with
            | some (some regex, _) =>
                if expr = regex then
                  some (s.setType name (type.withExpr e))
                else
                  none
            | _ => none
          else
            none

/-- `vartype_extend` for the type that `vartype_get_or_add` returns for the name; `none` stands for
`FALSE`. -/
def vartypeExtend (name expr : CString) (enabled : Bool) (s : Store) : Option Store :=
  let s := vartypeGetOrAdd name s
  let type := s.typeAt (typeKey name)
  if type.compiled then
    none
  else
    let parsed := vartypeRegexParse [] expr s
    some (parsed.2.setType name
      { type with extensions := type.extensions ++ [⟨parsed.1, enabled⟩] })

/-- `vartype_create_predefined_type`.  The assertions in the source say that the type is added and
that its expression can be compiled. -/
def vartypeCreatePredefinedType (s : Store) (type : CString × CString) : Store :=
  match vartypeAdd type.1 type.2 s with
  | none => s
  | some s =>
      s.setType type.1 { s.typeAt (typeKey type.1) with predefined := true, compiled := true }

/-- The predefined types with their expressions. -/
def predefinedTypes : List (CString × CString) :=
  [("NONE".toList, ".*".toList), ("NUMERIC".toList, "0|[1-9][0-9]*".toList),
    ("YESNO".toList, "yes|no".toList)]

def vartypeCreatePredefinedTypes : Store :=
  predefinedTypes.foldl vartypeCreatePredefinedType ∅

/-- What a package asks for. -/
inductive Request
  | define (name expr : CString)
  | extend (name expr : CString) (enabled : Bool)
deriving DecidableEq

/-- Handles one request. -/
def Request.process (s : Store) : Request → Option Store
  | .define name expr => vartypeAdd name expr s
  | .extend name expr enabled => vartypeExtend name expr enabled s

/-- Handles all requests, starting from the predefined types; `none` if one of them fails. -/
def processRequests (R : List Request) : Option Store :=
  R.foldlM Request.process vartypeCreatePredefinedTypes

/-! ## What the store holds -/

/-- A type without the spelling of its name, which is the spelling of its first mention. -/
def VarType.unnamed {T : Type} (type : VarType T) : VarType T := { type with name := [] }

/-- The parts of an expression. -/
def regexOf (expr : CString) : Regex CString := (vartypeRegexParse [] expr ∅).1

/-- The expression that a list of types has for a key. -/
def exprIn (types : List (CString × CString)) (key : CString) : Option CString :=
  types.findSome? fun type => if typeKey type.1 = key then some type.2 else none

/-- The original expression of a predefined type. -/
def predefinedExpr (key : CString) : Option CString := exprIn predefinedTypes key

namespace Request

/-- The expression that a request defines for a key. -/
def definition (key : CString) : Request → Option CString
  | .define name expr => if typeKey name = key then some expr else none
  | .extend .. => none

/-- The extension that a request makes to the type with a key. -/
def extension (key : CString) : Request → Option (Extension CString)
  | .define .. => none
  | .extend name expr enabled =>
      if typeKey name = key then some ⟨regexOf expr, enabled⟩ else none

/-- The key that a request defines. -/
def definedKey : Request → Option CString
  | .define name _ => some (typeKey name)
  | .extend .. => none

/-- The request mentions a type: as its own, or in its expression. -/
def Mentions (key : CString) : Request → Prop
  | .define name expr => typeKey name = key ∨ .ref key ∈ regexOf expr
  | .extend name expr _ => typeKey name = key ∨ .ref key ∈ regexOf expr

end Request

/-- The type with a key after some requests. -/
def described (R : List Request) (key : CString) : VarType CString where
  name := []
  expr := ((predefinedExpr key).or (R.findSome? (Request.definition key))).map regexOf
  extensions := R.filterMap (Request.extension key)
  predefined := (predefinedExpr key).isSome && (R.findSome? (Request.definition key)).isNone
  compiled := (predefinedExpr key).isSome

/-- The store after some requests. -/
structure Store.Describes (s : Store) (R : List Request) : Prop where
  unnamed : ∀ key, (s.typeAt key).unnamed = described R key
  mem : ∀ key, key ∈ s ↔ (predefinedExpr key).isSome ∨ ∃ r ∈ R, r.Mentions key

/-- The requests that are all answered without an error, in any order. -/
structure Acceptable (R : List Request) : Prop where
  notExtended : ∀ name expr enabled, .extend name expr enabled ∈ R →
    predefinedExpr (typeKey name) = none
  identical : ∀ name expr orig, .define name expr ∈ R → predefinedExpr (typeKey name) = some orig →
    expr = orig
  distinct : (R.filterMap Request.definedKey).Nodup

/-! ## Single operations -/

variable {type : VarType CString} {r : Request} {R' : List Request}

section Operations

variable {s : Store} {name expr start key : CString} {last : Regex CString}

@[simp] theorem typeAt_setType :
    (s.setType name type).typeAt key = if key = typeKey name then type else s.typeAt key := by
  unfold Store.typeAt Store.setType
  by_cases hkey : key = typeKey name
  · rw [hkey, AList.lookup_insert, if_pos rfl, Option.getD_some]
  · rw [AList.lookup_insert_ne hkey, if_neg hkey]

@[simp] theorem mem_setType :
    key ∈ s.setType name type ↔ key = typeKey name ∨ key ∈ s := by
  unfold Store.setType
  exact AList.mem_insert _

theorem typeAt_of_lookup (h : s.lookup key = some type) : s.typeAt key = type := by
  rw [Store.typeAt, h, Option.getD_some]

theorem vartypeGetOrAdd_unnamed :
    ((vartypeGetOrAdd name s).typeAt key).unnamed = (s.typeAt key).unnamed := by
  unfold vartypeGetOrAdd
  split
  · rfl
  · next hlookup =>
      by_cases hkey : key = typeKey name
      · rw [hkey, Store.typeAt, AList.lookup_insert, Store.typeAt, hlookup]
        rfl
      · rw [Store.typeAt, AList.lookup_insert_ne hkey, Store.typeAt]

theorem mem_vartypeGetOrAdd : key ∈ vartypeGetOrAdd name s ↔ key = typeKey name ∨ key ∈ s := by
  unfold vartypeGetOrAdd
  split
  · next hlookup =>
      constructor
      · exact .inr
      · rintro (rfl | hmem)
        · exact AList.lookup_isSome.mp (by rw [hlookup, Option.isSome_some])
        · exact hmem
  · exact AList.mem_insert _

variable {text : CString}

theorem mem_vartypeRegexAddString {force : Bool} :
    .ref key ∈ vartypeRegexAddString last text force ↔ .ref key ∈ last := by
  unfold vartypeRegexAddString
  split
  · simp
  · rfl

theorem vartypeRegexParse_end (h : strstr "(RE:".toList start = none) :
    vartypeRegexParse last start s = (vartypeRegexAddString last start true, s) := by
  rw [vartypeRegexParse]
  split
  · rfl
  · next hnext => exact nomatch h.symm.trans hnext

theorem vartypeRegexParse_open {next : CString}
    (hnext : strstr "(RE:".toList start = some (text, next)) (hend : strstr ")".toList next = none) :
    vartypeRegexParse last start s = (vartypeRegexAddString last start true, s) := by
  rw [vartypeRegexParse]
  split
  · rfl
  · next hnext' =>
      obtain ⟨rfl, rfl⟩ := Prod.mk.inj (Option.some.inj (hnext.symm.trans hnext'))
      split
      · rfl
      · next hend' => exact nomatch hend.symm.trans hend'

theorem vartypeRegexParse_ref {next reference rest : CString}
    (hnext : strstr "(RE:".toList start = some (text, next))
    (hend : strstr ")".toList next = some (reference, rest)) :
    vartypeRegexParse last start s =
      vartypeRegexParse (.ref (typeKey (reference.drop 4)) :: vartypeRegexAddString last text false)
        (rest.drop 1) (vartypeGetOrAdd (reference.drop 4) s) := by
  conv_lhs => rw [vartypeRegexParse]
  split
  · next hnext' => exact nomatch hnext.symm.trans hnext'
  · next hnext' =>
      obtain ⟨rfl, rfl⟩ := Prod.mk.inj (Option.some.inj (hnext.symm.trans hnext'))
      split
      · next hend' => exact nomatch hend.symm.trans hend'
      · next hend' =>
          obtain ⟨rfl, rfl⟩ := Prod.mk.inj (Option.some.inj (hend.symm.trans hend'))
          rfl

theorem vartypeRegexParse_fst (s' : Store) :
    (vartypeRegexParse last start s).1 = (vartypeRegexParse last start s').1 := by
  fun_induction vartypeRegexParse last start s generalizing s' with
  | case1 last start s hnext => rw [vartypeRegexParse_end hnext]
  | case2 last start s text next hnext hend => rw [vartypeRegexParse_open hnext hend]
  | case3 last start s text next hnext reference rest hend name ih =>
      rw [vartypeRegexParse_ref hnext hend]
      exact ih _

theorem vartypeRegexParse_unnamed :
    ((vartypeRegexParse last start s).2.typeAt key).unnamed = (s.typeAt key).unnamed := by
  fun_induction vartypeRegexParse last start s with
  | case1 last start s hnext => rfl
  | case2 last start s text next hnext hend => rfl
  | case3 last start s text next hnext reference rest hend name ih =>
      rw [ih, vartypeGetOrAdd_unnamed]

theorem mem_vartypeRegexParse :
    (key ∈ (vartypeRegexParse last start s).2 ∨ .ref key ∈ last ↔
      key ∈ s ∨ .ref key ∈ (vartypeRegexParse last start s).1) ∧
    (.ref key ∈ last → .ref key ∈ (vartypeRegexParse last start s).1) ∧
    (key ∈ s → key ∈ (vartypeRegexParse last start s).2) := by
  fun_induction vartypeRegexParse last start s with
  | case1 last start s hnext => simp [mem_vartypeRegexAddString]
  | case2 last start s text next hnext hend => simp [mem_vartypeRegexAddString]
  | case3 last start s text next hnext reference rest hend name ih =>
      simp only [List.mem_cons, RegexPart.ref.injEq, mem_vartypeRegexAddString,
        mem_vartypeGetOrAdd] at ih
      tauto

end Operations

/-! ## One request -/

/-- The request is answered without an error after some others. -/
def Request.Admissible (R : List Request) : Request → Prop
  | .define name expr => (∀ orig, predefinedExpr (typeKey name) = some orig → expr = orig) ∧
      R.findSome? (Request.definition (typeKey name)) = none
  | .extend name _ _ => predefinedExpr (typeKey name) = none

theorem findSome_definition_eq_none {R : List Request} {key : CString} :
    R.findSome? (Request.definition key) = none ↔ key ∉ R.filterMap Request.definedKey := by
  have hsame : ∀ r : Request, r.definition key = none ↔ r.definedKey ≠ some key := by
    intro r
    cases r with
    | define name expr => simp [Request.definition, Request.definedKey]
    | extend name expr enabled => simp [Request.definition, Request.definedKey]
  simp only [List.findSome?_eq_none_iff, List.mem_filterMap, hsame, not_exists, not_and, ne_eq]

theorem acceptable_append {R : List Request} :
    Acceptable (R ++ [r]) ↔ Acceptable R ∧ r.Admissible R := by
  constructor
  · intro h
    have hpre : Acceptable R := by
      refine ⟨fun name expr enabled hr => h.notExtended name expr enabled (List.mem_append_left _ hr),
        fun name expr orig hr => h.identical name expr orig (List.mem_append_left _ hr), ?_⟩
      have hdistinct := h.distinct
      rw [List.filterMap_append] at hdistinct
      exact hdistinct.of_append_left
    refine ⟨hpre, ?_⟩
    cases r with
    | define name expr =>
        refine ⟨fun orig => h.identical name expr orig (by simp), ?_⟩
        have hdistinct := h.distinct
        rw [List.filterMap_append, List.nodup_append] at hdistinct
        refine findSome_definition_eq_none.mpr fun hmem => ?_
        exact hdistinct.2.2 _ hmem (typeKey name) (by simp [Request.definedKey]) rfl
    | extend name expr enabled => exact h.notExtended name expr enabled (by simp)
  · rintro ⟨h, hr⟩
    refine ⟨fun name expr enabled hmem => ?_, fun name expr orig hmem => ?_, ?_⟩
    · rcases List.mem_append.mp hmem with hmem | hmem
      · exact h.notExtended name expr enabled hmem
      · obtain rfl := List.mem_singleton.mp hmem
        exact hr
    · rcases List.mem_append.mp hmem with hmem | hmem
      · exact h.identical name expr orig hmem
      · obtain rfl := List.mem_singleton.mp hmem
        exact hr.1 orig
    · rw [List.filterMap_append, List.nodup_append]
      refine ⟨h.distinct, ?_, ?_⟩
      · cases r with
        | define name expr => exact List.nodup_singleton _
        | extend name expr enabled => exact List.nodup_nil
      · cases r with
        | define name expr =>
            have hfresh := findSome_definition_eq_none.mp hr.2
            intro key hkey key' hkey' heq
            obtain rfl : key' = typeKey name := by simpa [Request.definedKey] using hkey'
            exact hfresh (heq ▸ hkey)
        | extend name expr enabled => simp [Request.definedKey]

theorem regexOf_predefined {key orig : CString} (h : predefinedExpr key = some orig) :
    regexOf orig = [.str orig] := by
  have hmem : orig ∈ predefinedTypes.map Prod.snd := by
    obtain ⟨type, htype, heq⟩ := List.exists_of_findSome?_eq_some h
    split at heq
    · exact List.mem_map.mpr ⟨type, htype, Option.some.inj heq⟩
    · contradiction
  have hplain : ∀ expr ∈ predefinedTypes.map Prod.snd, strstr "(RE:".toList expr = none := by decide
  rw [regexOf, vartypeRegexParse_end (hplain orig hmem)]
  simp [vartypeRegexAddString]

theorem described_define {R : List Request} {name expr key : CString} :
    described (R ++ [.define name expr]) key =
      if key = typeKey name ∧ R.findSome? (Request.definition key) = none then
        { described R key with
          expr := ((predefinedExpr key).or (some expr)).map regexOf
          predefined := false }
      else
        described R key := by
  by_cases hkey : key = typeKey name
  · cases hfind : R.findSome? (Request.definition key) with
    | none =>
        simp [described, List.findSome?_append, List.filterMap_append, Request.definition,
          Request.extension, hkey ▸ hfind, hkey]
    | some expr' =>
        simp [described, List.findSome?_append, List.filterMap_append, Request.extension,
          hkey ▸ hfind, hkey]
  · simp [described, List.findSome?_append, List.filterMap_append, Request.definition,
      Request.extension, hkey, Ne.symm hkey]

theorem described_extend {R : List Request} {name expr key : CString} {enabled : Bool} :
    described (R ++ [.extend name expr enabled]) key =
      if key = typeKey name then
        { described R key with
          extensions := (described R key).extensions ++ [⟨regexOf expr, enabled⟩] }
      else
        described R key := by
  by_cases hkey : key = typeKey name
  · simp [described, List.findSome?_append, List.filterMap_append, Request.definition,
      Request.extension, hkey]
  · simp [described, List.findSome?_append, List.filterMap_append, Request.definition,
      Request.extension, hkey, Ne.symm hkey]

theorem exists_mentions_append {R : List Request} {key : CString} :
    (∃ r' ∈ R ++ [r], r'.Mentions key) ↔ (∃ r' ∈ R, r'.Mentions key) ∨ r.Mentions key := by
  simp only [List.mem_append, List.mem_singleton, or_and_right, exists_or, exists_eq_left]

namespace Store.Describes

variable {s : Store} {R : List Request} {name expr key : CString}

theorem parsed (hs : s.Describes R) (expr : CString) :
    ((vartypeRegexParse [] expr s).2.typeAt key).unnamed = described R key := by
  rw [vartypeRegexParse_unnamed, hs.unnamed]

theorem mem_parsed (expr : CString) (s : Store) :
    key ∈ (vartypeRegexParse [] expr s).2 ↔ key ∈ s ∨ .ref key ∈ regexOf expr := by
  have h := (@mem_vartypeRegexParse s expr key []).1
  rw [vartypeRegexParse_fst ∅] at h
  simpa [regexOf] using h

theorem originalText (hs : (s.typeAt key).unnamed = described R key) (hR : Acceptable R)
    {orig : CString} (horig : predefinedExpr key = some orig) :
    vartypeGetRegex s.typeAt 1 false key (fun _ => false) =
      some (some orig, Function.update (Function.update (fun _ => false) key true) key false) := by
  have hexpr : (s.typeAt key).expr = some [.str orig] := by
    have h := congrArg VarType.expr hs
    rw [← regexOf_predefined horig]
    simpa [described, horig, VarType.unnamed] using h
  have hexts : (s.typeAt key).extensions = [] := by
    have h := congrArg VarType.extensions hs
    have hnone : R.filterMap (Request.extension key) = [] := by
      refine List.filterMap_eq_nil_iff.mpr fun r hr => ?_
      cases r with
      | define name expr => rfl
      | extend name expr enabled =>
          have hnot := hR.notExtended name expr enabled hr
          refine if_neg fun hkey => ?_
          rw [hkey, horig] at hnot
          exact nomatch hnot
    exact h.trans hnone
  simp [vartypeGetRegex, hexpr, hexts, vartypeRegexAssemble, vartypeExtensionAppendRegex]

theorem defined (hs : s.Describes R)
    (htype : type.unnamed = (described R (typeKey name)).withExpr (regexOf expr))
    (hr : Request.Admissible R (.define name expr)) :
    ((vartypeRegexParse [] expr s).2.setType name type).Describes (R ++ [.define name expr]) := by
  refine ⟨fun key => ?_, fun key => ?_⟩
  · rw [typeAt_setType, described_define]
    by_cases hkey : key = typeKey name
    · rw [if_pos hkey, if_pos ⟨hkey, hkey ▸ hr.2⟩, htype, hkey]
      cases horig : predefinedExpr (typeKey name) with
      | none => rfl
      | some orig =>
          rw [hr.1 orig horig]
          rfl
    · rw [if_neg hkey, if_neg fun h => hkey h.1]
      exact hs.parsed expr
  · rw [mem_setType, mem_parsed, hs.mem, exists_mentions_append, Request.Mentions,
      eq_comm (a := key)]
    constructor
    · rintro (h | (h | h) | h)
      exacts [.inr (.inr (.inl h)), .inl h, .inr (.inl h), .inr (.inr (.inr h))]
    · rintro (h | h | h | h)
      exacts [.inr (.inl (.inl h)), .inr (.inl (.inr h)), .inl h, .inr (.inr h)]

theorem define (hs : s.Describes R) (hR : Acceptable R) (name expr : CString) :
    (Request.Admissible R (.define name expr) →
      ∃ s', vartypeAdd name expr s = some s' ∧ s'.Describes (R ++ [.define name expr])) ∧
    (¬ Request.Admissible R (.define name expr) → vartypeAdd name expr s = none) := by
  have hparsed : ((vartypeRegexParse [] expr s).2.typeAt (typeKey name)).unnamed =
      described R (typeKey name) := hs.parsed expr
  have hregex : (vartypeRegexParse [] expr s).1 = regexOf expr := vartypeRegexParse_fst ∅
  have hdescribed : (described R (typeKey name)).expr = none ↔
      predefinedExpr (typeKey name) = none ∧
        R.findSome? (Request.definition (typeKey name)) = none := by
    simp [described]
  cases hlookup : (vartypeRegexParse [] expr s).2.lookup (typeKey name) with
  | none =>
      have hdefault : described R (typeKey name) = (vartypeCreate (typeKey name) none).unnamed := by
        rw [← hparsed, Store.typeAt, hlookup, Option.getD_none]
      obtain ⟨hpre, hfind⟩ := hdescribed.mp (by rw [hdefault]; rfl)
      have hr : Request.Admissible R (.define name expr) :=
        ⟨fun orig horig => absurd (hpre.symm.trans horig) (Option.some_ne_none orig).symm, hfind⟩
      refine ⟨fun _ => ⟨_, by rw [vartypeAdd, hlookup], hs.defined ?_ hr⟩, fun h => absurd hr h⟩
      rw [hdefault, hregex]
      rfl
  | some type =>
      rw [typeAt_of_lookup hlookup] at hparsed
      have hchanged : (type.withExpr (vartypeRegexParse [] expr s).1).unnamed =
          (described R (typeKey name)).withExpr (regexOf expr) := by
        rw [← hparsed, hregex]
        rfl
      have hexpr : type.expr = (described R (typeKey name)).expr := by
        rw [← hparsed]
        rfl
      have hpredefined : type.predefined = (described R (typeKey name)).predefined := by
        rw [← hparsed]
        rfl
      cases hold : type.expr with
      | none =>
          obtain ⟨hpre, hfind⟩ := hdescribed.mp (hexpr ▸ hold)
          have hr : Request.Admissible R (.define name expr) :=
            ⟨fun orig horig => absurd (hpre.symm.trans horig) (Option.some_ne_none orig).symm, hfind⟩
          refine ⟨fun _ => ⟨_, ?_, hs.defined hchanged hr⟩, fun h => absurd hr h⟩
          simp only [vartypeAdd, hlookup, hold]
      | some old =>
          cases hpre : predefinedExpr (typeKey name) with
          | none =>
              have hfind : R.findSome? (Request.definition (typeKey name)) ≠ none := by
                intro hfind
                rw [hdescribed.mpr ⟨hpre, hfind⟩, hold] at hexpr
                exact nomatch hexpr
              have hnot : type.predefined = false := by rw [hpredefined]; simp [described, hpre]
              refine ⟨fun hr => absurd hr.2 hfind, fun _ => ?_⟩
              simp [vartypeAdd, hlookup, hold, hnot]
          | some orig =>
              have htext := originalText (hs.parsed expr) hR hpre
              by_cases hfind : R.findSome? (Request.definition (typeKey name)) = none
              · have hstill : type.predefined = true := by
                  rw [hpredefined]
                  simp [described, hpre, hfind]
                by_cases hsame : expr = orig
                · have hr : Request.Admissible R (.define name expr) :=
                    ⟨fun orig' horig' => hsame.trans (Option.some.inj (hpre.symm.trans horig')), hfind⟩
                  refine ⟨fun _ => ⟨_, ?_, hs.defined hchanged hr⟩, fun h => absurd hr h⟩
                  simp only [vartypeAdd, hlookup, hold, hstill, if_true, htext, if_pos hsame]
                · refine ⟨fun hr => absurd (hr.1 orig hpre) hsame, fun _ => ?_⟩
                  simp only [vartypeAdd, hlookup, hold, hstill, if_true, htext, if_neg hsame]
              · have hnot : type.predefined = false := by
                  obtain ⟨expr', hexpr'⟩ := Option.ne_none_iff_exists'.mp hfind
                  simp only [hpredefined, described, hexpr', Option.isNone_some, Bool.and_false]
                refine ⟨fun hr => absurd hr.2 hfind, fun _ => ?_⟩
                simp [vartypeAdd, hlookup, hold, hnot]

theorem extend (hs : s.Describes R) (name expr : CString) (enabled : Bool) :
    (Request.Admissible R (.extend name expr enabled) →
      ∃ s', vartypeExtend name expr enabled s = some s' ∧
        s'.Describes (R ++ [.extend name expr enabled])) ∧
    (¬ Request.Admissible R (.extend name expr enabled) →
      vartypeExtend name expr enabled s = none) := by
  have hadded : ∀ key, ((vartypeGetOrAdd name s).typeAt key).unnamed = described R key :=
    fun key => vartypeGetOrAdd_unnamed.trans (hs.unnamed key)
  have hcompiled : ((vartypeGetOrAdd name s).typeAt (typeKey name)).compiled =
      (predefinedExpr (typeKey name)).isSome := by
    have h := congrArg VarType.compiled (hadded (typeKey name))
    simpa [VarType.unnamed, described] using h
  have hregex : (vartypeRegexParse [] expr (vartypeGetOrAdd name s)).1 = regexOf expr :=
    vartypeRegexParse_fst ∅
  constructor
  · intro hr
    have hnot : ((vartypeGetOrAdd name s).typeAt (typeKey name)).compiled = false := by
      rw [hcompiled, show predefinedExpr (typeKey name) = none from hr, Option.isSome_none]
    refine ⟨_, if_neg (by rw [hnot]; decide), ?_, ?_⟩
    · intro key
      rw [typeAt_setType, described_extend]
      by_cases hkey : key = typeKey name
      · rw [if_pos hkey, if_pos hkey, hregex, hkey, ← hadded (typeKey name)]
        rfl
      · rw [if_neg hkey, if_neg hkey, vartypeRegexParse_unnamed, hadded]
    · intro key
      rw [mem_setType, mem_parsed, mem_vartypeGetOrAdd, hs.mem, exists_mentions_append,
        Request.Mentions, eq_comm (a := key)]
      constructor
      · rintro (h | (h | h | h) | h)
        exacts [.inr (.inr (.inl h)), .inr (.inr (.inl h)), .inl h, .inr (.inl h),
          .inr (.inr (.inr h))]
      · rintro (h | h | h | h)
        exacts [.inr (.inl (.inr (.inl h))), .inr (.inl (.inr (.inr h))), .inl h, .inr (.inr h)]
  · intro hr
    obtain ⟨orig, horig⟩ := Option.ne_none_iff_exists'.mp hr
    simp [vartypeExtend, hcompiled, horig]

theorem process (hs : s.Describes R) (hR : Acceptable R) (r : Request) :
    (r.Admissible R → ∃ s', r.process s = some s' ∧ s'.Describes (R ++ [r])) ∧
    (¬ r.Admissible R → r.process s = none) := by
  cases r with
  | define name expr => exact hs.define hR name expr
  | extend name expr enabled => exact hs.extend name expr enabled

end Store.Describes

/-- A predefined type right after it has been created. -/
def predefinedType (expr : CString) : VarType CString where
  name := []
  expr := some [.str expr]
  extensions := []
  predefined := true
  compiled := true

theorem vartypeCreatePredefinedType_spec (s : Store) (name expr : CString)
    (hplain : strstr "(RE:".toList expr = none) (hfresh : typeKey name ∉ s) (key : CString) :
    ((vartypeCreatePredefinedType s (name, expr)).typeAt key).unnamed =
        (if key = typeKey name then predefinedType expr else (s.typeAt key).unnamed) ∧
      (key ∈ vartypeCreatePredefinedType s (name, expr) ↔ key = typeKey name ∨ key ∈ s) := by
  have hparsed : vartypeRegexParse [] expr s = ([.str expr], s) := by
    rw [vartypeRegexParse_end hplain]
    simp [vartypeRegexAddString]
  have hadd : vartypeAdd name expr s =
      some (s.setType name (vartypeCreate name (some [.str expr]))) := by
    simp only [vartypeAdd, hparsed, AList.lookup_eq_none.mpr hfresh]
  simp only [vartypeCreatePredefinedType, hadd, typeAt_setType, mem_setType]
  constructor
  · by_cases hkey : key = typeKey name
    · rw [if_pos hkey, if_pos hkey]
      rfl
    · rw [if_neg hkey, if_neg hkey, if_neg hkey]
  · tauto

theorem foldl_vartypeCreatePredefinedType (types : List (CString × CString))
    (hplain : ∀ type ∈ types, strstr "(RE:".toList type.2 = none)
    (hdistinct : (types.map fun type => typeKey type.1).Nodup) (key : CString) :
    ((types.foldl vartypeCreatePredefinedType ∅).typeAt key).unnamed =
        (exprIn types key).elim (vartypeCreate key none).unnamed predefinedType ∧
      (key ∈ types.foldl vartypeCreatePredefinedType ∅ ↔ (exprIn types key).isSome) := by
  induction types using List.reverseRecOn generalizing key with
  | nil => simp [Store.typeAt, exprIn]
  | append_singleton types type ih =>
      rw [List.map_append, List.nodup_append] at hdistinct
      obtain ⟨hdistinct, -, hother⟩ := hdistinct
      have ih' := ih (fun t ht => hplain t (List.mem_append_left _ ht)) hdistinct
      have hnew : exprIn types (typeKey type.1) = none := by
        refine List.findSome?_eq_none_iff.mpr fun t ht => if_neg fun hkey => ?_
        exact hother _ (List.mem_map.mpr ⟨t, ht, rfl⟩) (typeKey type.1) (by simp) hkey
      have hfresh : typeKey type.1 ∉ types.foldl vartypeCreatePredefinedType ∅ := by
        rw [(ih' _).2, hnew]
        decide
      have hspec := vartypeCreatePredefinedType_spec _ type.1 type.2 (hplain type (by simp)) hfresh key
      rw [List.foldl_append, List.foldl_cons, List.foldl_nil]
      have happend : exprIn (types ++ [type]) key =
          (exprIn types key).or (if typeKey type.1 = key then some type.2 else none) := by
        simp [exprIn, List.findSome?_append]
      by_cases hkey : key = typeKey type.1
      · subst hkey
        rw [happend, hnew, if_pos rfl]
        rw [if_pos rfl] at hspec
        exact ⟨hspec.1, by simpa using hspec.2⟩
      · rw [if_neg hkey] at hspec
        rw [happend, if_neg (Ne.symm hkey), Option.or_none, hspec.1, hspec.2]
        exact ⟨(ih' key).1, by rw [(ih' key).2]; simp [hkey]⟩

theorem vartypeCreatePredefinedTypes_describes : vartypeCreatePredefinedTypes.Describes [] := by
  have hspec := foldl_vartypeCreatePredefinedType predefinedTypes (by decide) (by decide)
  refine ⟨fun key => (hspec key).1.trans ?_, fun key => (hspec key).2.trans ?_⟩
  · cases horig : predefinedExpr key with
    | none =>
        have hin : exprIn predefinedTypes key = none := horig
        simp [hin, described, horig, vartypeCreate, VarType.unnamed]
    | some orig =>
        have hin : exprIn predefinedTypes key = some orig := horig
        simp [hin, described, horig, predefinedType, regexOf_predefined horig]
  · simp [predefinedExpr]

theorem processRequests_append {R : List Request} :
    processRequests (R ++ [r]) = (processRequests R).bind fun s => r.process s := by
  simp [processRequests, List.foldlM_append]

theorem processRequests_spec (R : List Request) :
    (Acceptable R → ∃ s, processRequests R = some s ∧ s.Describes R) ∧
    (¬ Acceptable R → processRequests R = none) := by
  induction R using List.reverseRecOn with
  | nil =>
      refine ⟨fun _ => ⟨_, rfl, vartypeCreatePredefinedTypes_describes⟩, fun h => ?_⟩
      exact absurd ⟨(fun _ _ _ hr => nomatch hr), (fun _ _ _ hr => nomatch hr), List.nodup_nil⟩ h
  | append_singleton R r ih =>
      rw [processRequests_append, acceptable_append]
      by_cases hR : Acceptable R
      · obtain ⟨s, hrun, hs⟩ := ih.1 hR
        have hstep := hs.process hR r
        rw [hrun, Option.bind_some]
        exact ⟨fun h => hstep.1 h.2, fun h => hstep.2 fun hr => h ⟨hR, hr⟩⟩
      · rw [ih.2 hR]
        exact ⟨fun h => absurd h.1 hR, fun _ => rfl⟩

/-! ## Two orders -/

theorem vartypeRegexAssemble_name {getRegex : CString → Flags CString → Outcome CString}
    (name name' : CString → CString) (regex : Regex CString) (flags : Flags CString) :
    vartypeRegexAssemble getRegex name true regex flags =
      vartypeRegexAssemble getRegex name' true regex flags := by
  induction regex with
  | nil => rfl
  | cons part next ih => simp only [vartypeRegexAssemble, ih, if_true]

theorem vartypeExtensionAppendRegex_name {getRegex : CString → Flags CString → Outcome CString}
    (name name' : CString → CString) (exts : List (Extension CString)) (old : CString)
    (flags : Flags CString) :
    vartypeExtensionAppendRegex getRegex name true exts old flags =
      vartypeExtensionAppendRegex getRegex name' true exts old flags := by
  induction exts generalizing old flags with
  | nil => rfl
  | cons ext exts ih =>
      simp only [vartypeExtensionAppendRegex, ih, vartypeRegexAssemble_name name name']

theorem vartypeGetRegex_congr {type type' : CString → VarType CString}
    (h : ∀ key, (type key).unnamed = (type' key).unnamed) (fuel : Nat) :
    vartypeGetRegex type fuel true = vartypeGetRegex type' fuel true := by
  induction fuel with
  | zero => rfl
  | succ fuel ih =>
      funext key flags
      have hexpr : (type key).unnamed.expr = (type' key).unnamed.expr := by rw [h key]
      have hexts : (type key).unnamed.extensions = (type' key).unnamed.extensions := by rw [h key]
      simp only [VarType.unnamed] at hexpr hexts
      simp only [vartypeGetRegex, hexpr, hexts, ih,
        vartypeRegexAssemble_name (fun u => (type u).name) fun u => (type' u).name,
        vartypeExtensionAppendRegex_name (fun u => (type u).name) fun u => (type' u).name]

theorem Acceptable.perm {R : List Request} (h : Acceptable R) (hperm : R.Perm R') : Acceptable R' :=
  ⟨fun name expr enabled hr => h.notExtended name expr enabled (hperm.mem_iff.mpr hr),
    fun name expr orig hr => h.identical name expr orig (hperm.mem_iff.mpr hr),
    (hperm.filterMap _).nodup_iff.mp h.distinct⟩

/-- The request extends the type with a key. -/
def Request.extendsKey (key : CString) : Request → Bool
  | .define .. => false
  | .extend name _ _ => typeKey name = key

theorem length_filterMap_definition (R : List Request) (key : CString) :
    (R.filterMap (Request.definition key)).length = (R.filterMap Request.definedKey).count key := by
  induction R with
  | nil => rfl
  | cons r R ih =>
      cases r with
      | define name expr =>
          by_cases hkey : typeKey name = key
          · simp only [List.filterMap_cons, Request.definition, Request.definedKey, hkey, if_true,
              List.length_cons, List.count_cons_self, ih]
          · simp only [List.filterMap_cons, Request.definition, Request.definedKey, hkey, if_false,
              List.count_cons_of_ne hkey, ih]
      | extend name expr enabled =>
          simp only [List.filterMap_cons, Request.definition, Request.definedKey, ih]

theorem findSome_definition_perm {R : List Request} (h : Acceptable R) (hperm : R.Perm R')
    (key : CString) :
    R.findSome? (Request.definition key) = R'.findSome? (Request.definition key) := by
  have hlength : (R.filterMap (Request.definition key)).length ≤ 1 := by
    rw [length_filterMap_definition]
    exact List.nodup_iff_count_le_one.mp h.distinct key
  have hsame : R.filterMap (Request.definition key) = R'.filterMap (Request.definition key) := by
    have hperm' := hperm.filterMap (Request.definition key)
    match hlist : R.filterMap (Request.definition key), hlength with
    | [], _ => exact (List.nil_perm.mp (hlist ▸ hperm')).symm
    | [expr], _ => exact List.singleton_perm.mp (hlist ▸ hperm')
  rw [← List.head?_filterMap, ← List.head?_filterMap, hsame]

theorem filterMap_extension_filter (R : List Request) (key : CString) :
    R.filterMap (Request.extension key) =
      (R.filter (Request.extendsKey key)).filterMap (Request.extension key) := by
  rw [List.filterMap_filter]
  refine List.filterMap_congr fun r _ => ?_
  cases r with
  | define name expr => rfl
  | extend name expr enabled =>
      by_cases hkey : typeKey name = key
      · simp [Request.extendsKey, hkey]
      · simp [Request.extendsKey, Request.extension, hkey]

theorem described_perm {R : List Request} (h : Acceptable R) (hperm : R.Perm R')
    (horder : ∀ key, R.filter (Request.extendsKey key) = R'.filter (Request.extendsKey key)) :
    described R = described R' := by
  funext key
  unfold described
  rw [findSome_definition_perm h hperm, filterMap_extension_filter R, horder,
    ← filterMap_extension_filter R']

/-- The types of a store and what they refer to. -/
def Store.graph (s : Store) : TypeGraph CString where
  type := s.typeAt
  domain := s.keys.toFinset
  mem_domain := by
    intro key hkey
    refine List.mem_toFinset.mpr (AList.mem_keys.mp ?_)
    by_contra hmem
    refine hkey ?_
    rw [Store.typeAt, AList.lookup_eq_none.mpr hmem]
    rfl

/-- The order of the requests does not matter as long as the extensions of each type keep theirs.
Either some request fails in both orders, or both orders lead to the same types with the same
expansions. -/
theorem processRequests_perm {R R' : List Request} (hperm : R.Perm R')
    (horder : ∀ key, R.filter (Request.extendsKey key) = R'.filter (Request.extendsKey key)) :
    (processRequests R = none ∧ processRequests R' = none) ∨
      ∃ s s', processRequests R = some s ∧ processRequests R' = some s' ∧
        ∀ name, (typeKey name ∈ s ↔ typeKey name ∈ s') ∧
          ∀ fuel, s.keys.length < fuel → ∃ result,
            vartypeGetRegex s.typeAt fuel true (typeKey name) (fun _ => false) =
                some (result, fun _ => false) ∧
              vartypeGetRegex s'.typeAt fuel true (typeKey name) (fun _ => false) =
                some (result, fun _ => false) := by
  by_cases hR : Acceptable R
  · obtain ⟨s, hrun, hs⟩ := (processRequests_spec R).1 hR
    obtain ⟨s', hrun', hs'⟩ := (processRequests_spec R').1 (hR.perm hperm)
    refine .inr ⟨s, s', hrun, hrun', fun name => ⟨?_, ?_⟩⟩
    · rw [hs.mem, hs'.mem]
      simp only [hperm.mem_iff]
    · intro fuel hfuel
      have hcard : (s.graph.unflagged fun _ => false).card < fuel := by
        refine lt_of_le_of_lt (Finset.card_filter_le _ _) (lt_of_le_of_lt ?_ hfuel)
        exact List.toFinset_card_le s.keys
      obtain ⟨result, hresult, -, -⟩ := vartypeGetRegex_spec (t := typeKey name) hcard
      have hsame : ∀ key, (s'.typeAt key).unnamed = (s.typeAt key).unnamed := by
        intro key
        rw [hs.unnamed, hs'.unnamed, described_perm hR hperm horder]
      refine ⟨result, hresult, ?_⟩
      rw [vartypeGetRegex_congr hsame]
      exact hresult
  · refine .inl ⟨(processRequests_spec R).2 hR, (processRequests_spec R').2 fun h => hR ?_⟩
    exact h.perm hperm.symm

/-- A reference and an extension may come before the definition they need. -/
theorem processRequests_perm_sample :
    let early : List Request := [.define "A".toList "(RE:b)x".toList, .extend "B".toList "y".toList true,
      .define "b".toList "z".toList, .define "YesNo".toList "yes|no".toList]
    let late : List Request := [.define "YesNo".toList "yes|no".toList, .define "b".toList "z".toList,
      .extend "B".toList "y".toList true, .define "A".toList "(RE:b)x".toList]
    (processRequests early = none ∧ processRequests late = none) ∨
      ∃ s s', processRequests early = some s ∧ processRequests late = some s' ∧
        ∀ name, (typeKey name ∈ s ↔ typeKey name ∈ s') ∧
          ∀ fuel, s.keys.length < fuel → ∃ result,
            vartypeGetRegex s.typeAt fuel true (typeKey name) (fun _ => false) =
                some (result, fun _ => false) ∧
              vartypeGetRegex s'.typeAt fuel true (typeKey name) (fun _ => false) =
                some (result, fun _ => false) := by
  refine processRequests_perm (by decide) fun key => ?_
  simp [Request.extendsKey, List.filter_cons]

end Vartype
end Mkfli4l
