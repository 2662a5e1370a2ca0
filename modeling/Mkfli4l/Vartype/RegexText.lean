import Mathlib
import Mkfli4l.Base.DynamicStrings
import Mkfli4l.Vartype.Definitions

/-!
# The text of a type expression

`vartype_regex_parse` cuts an expression at the references to types, and `vartype_regex_assemble` puts the
parts together again.  A reference goes up to the first closing parenthesis, whatever stands in between, and
one without a closing parenthesis is plain text.  The name in a reference comes back as it has been spelled
when the type was mentioned first, so that nothing but its letter case may differ.

The ends of the parts are pointers here, and the distances between them are `int`s as in the source.  For
texts of `INT_MAX` characters and more they are wrong (`reassembles_iff`).
-/

namespace Mkfli4l
namespace VartypeRegex

open Lib Base Vartype

/-! ## The source -/

/-- The key of a type is the one that its name gives. -/
def Keyed (s : Vartype.Store) : Prop := ∀ key type, s.lookup key = some type → typeKey type.name = key

variable {s : Vartype.Store}

theorem Keyed.insert (h : Keyed s) {name : CString} {type : VarType CString}
    (htype : typeKey type.name = typeKey name) : Keyed (s.insert (typeKey name) type) := by
  intro key found hlookup
  by_cases hkey : key = typeKey name
  · rw [hkey, AList.lookup_insert] at hlookup
    rw [← Option.some.inj hlookup, hkey]
    exact htype
  · rw [AList.lookup_insert_ne hkey] at hlookup
    exact h key found hlookup

theorem Keyed.getOrAdd (h : Keyed s) (name : CString) : Keyed (vartypeGetOrAdd name s) := by
  unfold vartypeGetOrAdd
  split
  · exact h
  · exact h.insert rfl

/-- The hash map `vartypes`, which compares the names themselves. -/
structure TypeMap where
  types : Vartype.Store
  keyed : Keyed types

/-- `vartype_get_or_add`. -/
def TypeMap.getOrAdd (m : TypeMap) (name : CString) : TypeMap :=
  ⟨vartypeGetOrAdd name m.types, m.keyed.getOrAdd name⟩

/-- The name of the type with a key. -/
def TypeMap.name (m : TypeMap) (key : CString) : CString := (m.types.typeAt key).name

/-- `vartype_regex_add_string`; `distance` is `end - start`. -/
def addString (last : Regex CString) (start : CString) (distance : ℤ) (force : Bool) :
    Option (Regex CString) :=
  if distance ≠ 0 ∨ force = true then
    (substrsave start distance).map fun str => .str str :: last
  else some last

/-- `vartype_regex_add_ref`. -/
def addRef (last : Regex CString) (start : CString) (distance : ℤ) (m : TypeMap) :
    Option (Regex CString × TypeMap) :=
  (substrsave start distance).map fun name => (.ref (typeKey name) :: last, m.getOrAdd name)

/-- The loop of `vartype_regex_parse` and the call behind it; `remaining` is `expr + len - start`. -/
def parseLoop (last : Regex CString) (start : CString) (remaining : ℤ) (m : TypeMap) :
    Option (Regex CString × TypeMap) :=
  match _hnext : strstr "(RE:".toList start with
  | none => (addString last start remaining true).map fun last => (last, m)
  | some (text, next) =>
      match _hend : strstr ")".toList next with
      | none => (addString last start remaining true).map fun last => (last, m)
      | some (reference, rest) => do
          let last ← addString last start text.length false
          let (last, m) ← addRef last (next.drop "(RE:".length) (reference.length - "(RE:".length) m
          parseLoop last (rest.drop 1) (remaining - (text.length + reference.length + 1)) m
termination_by start.length
decreasing_by exact length_behind_reference _hnext _hend

/-- `vartype_regex_parse`, with the length of the expression in an `int`. -/
def parse (expr : CString) (m : TypeMap) : Option (Regex CString × TypeMap) :=
  parseLoop [] expr (toInt32 expr.length) m

/-- `vartype_regex_assemble` for `expand == FALSE`; the empty string stands for `NULL` as well. -/
def assemble (name : CString → CString) : Regex CString → Option CString
  | [] => some []
  | part :: next => do
      let result ← assemble name next
      match part with
      | .str s => strcatSave result s
      | .ref t =>
          let result ← strcatSave result "(RE:".toList
          let result ← strcatSave result (name t)
          strcatSave result ")".toList

/-! ## What is meant -/

/-- A reference to a type, and a text behind it. -/
def withRef (name rest : CString) : CString := "(RE:".toList ++ name ++ ')' :: rest

/-- The texts differ at most in the letter case of the names in references. -/
inductive SameUpToCase : CString → CString → Prop
  | refl (text : CString) : SameUpToCase text text
  | ref {text name name' rest rest' : CString}
      (hfirst : strstr "(RE:".toList (text ++ withRef name rest) = some (text, withRef name rest))
      (hclose : ')' ∉ name) (hname : typeKey name' = typeKey name) (hrest : SameUpToCase rest rest') :
      SameUpToCase (text ++ withRef name rest) (text ++ withRef name' rest')

/-- The expression comes back from its parts. -/
def Reassembles (m : TypeMap) (expr : CString) : Prop :=
  ∃ parts m' result, parse expr m = some (parts, m') ∧ assemble m'.name parts = some result ∧
    SameUpToCase expr result

/-- The text of a part. -/
def partText (name : CString → CString) : RegexPart CString → CString
  | .str s => s
  | .ref t => "(RE:".toList ++ name t ++ ")".toList

/-- The text of the parts of an expression. -/
def partsText (name : CString → CString) (parts : Regex CString) : CString :=
  parts.reverse.flatMap (partText name)

variable {text next reference rest name start result : CString} {last parts : Regex CString} {m : TypeMap}
  {nameOf : CString → CString} {remaining : ℤ}

/-! ## References -/

theorem strstr_char {c : Char} {s before after : CString} (h : strstr [c] s = some (before, after)) :
    c ∉ before ∧ ∃ rest, after = c :: rest := by
  obtain ⟨-, rest, hafter⟩ := strstr_some h
  refine ⟨?_, rest, hafter.symm⟩
  clear hafter
  induction s generalizing before with
  | nil => exact nomatch h
  | cons d s ih =>
      simp only [strstr, List.cons_prefix_cons, List.nil_prefix, and_true] at h
      split_ifs at h with heq
      · obtain ⟨rfl, -⟩ := Prod.mk.inj (Option.some.inj h)
        exact List.not_mem_nil
      · obtain ⟨⟨before', after'⟩, hfound, hpair⟩ := Option.map_eq_some_iff.mp h
        obtain ⟨rfl, rfl⟩ := Prod.mk.inj hpair
        rw [List.mem_cons, not_or]
        exact ⟨heq, ih hfound⟩

/-- No reference is complete. -/
def Plain (start : CString) : Prop :=
  strstr "(RE:".toList start = none ∨
    ∃ text next, strstr "(RE:".toList start = some (text, next) ∧ strstr ")".toList next = none

/-- The two searches find a name between its parentheses. -/
structure RefAt (start text name rest : CString) : Prop where
  find_open : strstr "(RE:".toList start = some (text, withRef name rest)
  find_close : strstr ")".toList (withRef name rest) = some ("(RE:".toList ++ name, ')' :: rest)
  close_notMem : ')' ∉ name
  eq_append : start = text ++ withRef name rest

theorem refAt_of_found (hnext : strstr "(RE:".toList start = some (text, next))
    (hend : strstr ")".toList next = some (reference, rest)) : ∃ name rest, RefAt start text name rest := by
  obtain ⟨hstart, tail, htail⟩ := strstr_some hnext
  obtain ⟨hnext', -⟩ := strstr_some hend
  have hend' : strstr [')'] next = some (reference, rest) := hend
  obtain ⟨hclose, rest, rfl⟩ := strstr_char hend'
  have hsame : ['(', 'R', 'E', ':'] ++ tail = reference ++ ')' :: rest := htail.trans hnext'.symm
  -- none of the characters that begin the reference closes it
  obtain ⟨name, rfl⟩ : ∃ name, reference = "(RE:".toList ++ name := by
    rcases List.append_eq_append_iff.mp hsame with ⟨name, hname, -⟩ | ⟨middle, hmiddle, htail'⟩
    · exact ⟨name, hname⟩
    · cases middle with
      | nil => exact ⟨[], by simpa using hmiddle.symm⟩
      | cons c middle =>
          obtain ⟨rfl, -⟩ := List.cons.inj htail'
          have hmem : ')' ∈ ['(', 'R', 'E', ':'] := hmiddle ▸ List.mem_append_right _ List.mem_cons_self
          exact absurd hmem (by decide)
  obtain rfl := hnext'
  exact ⟨name, rest, hnext, hend, fun hmem => hclose (List.mem_append_right _ hmem), hstart.symm⟩

theorem length_withRef (name rest : CString) : (withRef name rest).length = name.length + rest.length + 5 := by
  have hopen : "(RE:".toList.length = 4 := rfl
  rw [withRef, List.length_append, List.length_append, List.length_cons, hopen]
  omega

theorem reference_induction {P : CString → Prop} (hplain : ∀ start, Plain start → P start)
    (href : ∀ start text name rest, RefAt start text name rest → P rest → P start) (start : CString) :
    P start := by
  induction hlen : start.length using Nat.strong_induction_on generalizing start with
  | _ len ih =>
      subst hlen
      cases hnext : strstr "(RE:".toList start with
      | none => exact hplain start (Or.inl hnext)
      | some found =>
          obtain ⟨text, next⟩ := found
          cases hend : strstr ")".toList next with
          | none => exact hplain start (Or.inr ⟨text, next, hnext, hend⟩)
          | some found' =>
              obtain ⟨reference, rest⟩ := found'
              obtain ⟨name, rest, hat⟩ := refAt_of_found hnext hend
              -- the rest is shorter by the characters around the name at least
              refine href start text name rest hat (ih rest.length ?_ rest rfl)
              rw [hat.eq_append, List.length_append, length_withRef]
              omega

/-! ## Putting the parts together -/

theorem partsText_cons (part : RegexPart CString) :
    partsText nameOf (part :: last) = partsText nameOf last ++ partText nameOf part := by
  simp [partsText]

theorem assemble_eq (hfits : ((partsText nameOf parts).length : ℤ) < intMax) :
    assemble nameOf parts = some (partsText nameOf parts) := by
  induction parts with
  | nil => rfl
  | cons part next ih =>
      rw [partsText_cons] at hfits ⊢
      have hnext := ih (by rw [List.length_append] at hfits; omega)
      rw [assemble, hnext, Option.bind_eq_bind, Option.bind_some]
      cases part with
      | str s => exact strcatSave_eq_append hfits
      | ref t =>
          -- three calls of `strcat_save`, of which the last one returns the longest text
          rw [partText, ← List.append_assoc, ← List.append_assoc] at hfits ⊢
          have hname : ((partsText nameOf next ++ "(RE:".toList ++ nameOf t).length : ℤ) < intMax := by
            rw [List.length_append] at hfits
            omega
          have hopen : ((partsText nameOf next ++ "(RE:".toList).length : ℤ) < intMax := by
            rw [List.length_append] at hname
            omega
          dsimp only
          rw [strcatSave_eq_append hopen, Option.bind_some, strcatSave_eq_append hname, Option.bind_some]
          exact strcatSave_eq_append hfits

theorem length_assemble_lt {part : RegexPart CString} (h : assemble nameOf (part :: parts) = some result) :
    (result.length : ℤ) < intMax := by
  obtain ⟨s, -, h⟩ := Option.bind_eq_some_iff.mp h
  cases part with
  | str a => exact length_strcatSave_lt h
  | ref t =>
      obtain ⟨s₁, -, h⟩ := Option.bind_eq_some_iff.mp h
      obtain ⟨s₂, -, h⟩ := Option.bind_eq_some_iff.mp h
      exact length_strcatSave_lt h

/-! ## Cutting the text -/

theorem Plain.vartypeRegexParse (h : Plain start) :
    vartypeRegexParse last start s = (vartypeRegexAddString last start true, s) := by
  rcases h with hnone | ⟨text, next, hnext, hend⟩
  · exact vartypeRegexParse_end hnone
  · exact vartypeRegexParse_open hnext hend

theorem RefAt.vartypeRegexParse (h : RefAt start text name rest) :
    vartypeRegexParse last start s =
      vartypeRegexParse (.ref (typeKey name) :: vartypeRegexAddString last text false) rest
        (vartypeGetOrAdd name s) :=
  vartypeRegexParse_ref h.find_open h.find_close

theorem Plain.parseLoop (h : Plain start) :
    parseLoop last start remaining m = (addString last start remaining true).map fun last => (last, m) := by
  rw [VartypeRegex.parseLoop]
  rcases h with hnone | ⟨text, next, hnext, hend⟩
  · split
    · rfl
    · next hnext => exact nomatch hnone.symm.trans hnext
  · split
    · rfl
    · next hnext' =>
        obtain ⟨rfl, rfl⟩ := Prod.mk.inj (Option.some.inj (hnext.symm.trans hnext'))
        split
        · rfl
        · next hend' => exact nomatch hend.symm.trans hend'

theorem RefAt.parseLoop (h : RefAt start text name rest) :
    parseLoop last start remaining m = (addString last start text.length false).bind fun last =>
      (addRef last (name ++ ')' :: rest) (("(RE:".toList ++ name).length - 4 : ℤ) m).bind fun added =>
        parseLoop added.1 rest (remaining - (text.length + ("(RE:".toList ++ name).length + 1)) added.2 := by
  conv_lhs => rw [VartypeRegex.parseLoop]
  split
  · next hnext => exact nomatch h.find_open.symm.trans hnext
  · next hnext =>
      obtain ⟨rfl, rfl⟩ := Prod.mk.inj (Option.some.inj (h.find_open.symm.trans hnext))
      split
      · next hend => exact nomatch h.find_close.symm.trans hend
      · next hend =>
          obtain ⟨rfl, rfl⟩ := Prod.mk.inj (Option.some.inj (h.find_close.symm.trans hend))
          rfl

theorem addString_eq (last : Regex CString) (text more : CString) (force : Bool)
    (hfits : (text.length : ℤ) < intMax) :
    addString last (text ++ more) text.length force = some (vartypeRegexAddString last text force) := by
  have hne : (text.length : ℤ) ≠ 0 ↔ text ≠ [] := by
    rw [Ne, Int.natCast_eq_zero, List.length_eq_zero_iff]
  unfold addString vartypeRegexAddString
  rw [substrsave_eq_take hfits, List.take_left]
  by_cases hpart : text ≠ [] ∨ force = true
  · rw [if_pos hpart, if_pos (hpart.imp_left hne.mpr)]
    rfl
  · rw [if_neg hpart, if_neg (mt (Or.imp_left hne.mp) hpart)]

theorem addRef_eq (last : Regex CString) (name more : CString) (hfits : (name.length : ℤ) < intMax) :
    addRef last (name ++ more) name.length m = some (.ref (typeKey name) :: last, m.getOrAdd name) := by
  unfold addRef
  rw [substrsave_eq_take hfits, List.take_left]
  rfl

theorem parseLoop_eq (last : Regex CString) (start : CString) (m : TypeMap)
    (hfits : (start.length : ℤ) < intMax) :
    ∃ m', parseLoop last start start.length m = some ((vartypeRegexParse last start m.types).1, m') := by
  induction start using reference_induction generalizing last m with
  | hplain start h =>
      have hall := addString_eq last start [] true hfits
      rw [List.append_nil] at hall
      refine ⟨m, ?_⟩
      rw [h.parseLoop, h.vartypeRegexParse, hall]
      rfl
  | href start text name rest h ih =>
      have hlength : start.length = text.length + (name.length + rest.length + 5) := by
        rw [h.eq_append, List.length_append, length_withRef]
      have hname : ((("(RE:".toList ++ name).length : ℕ) : ℤ) = name.length + 4 := by
        rw [List.length_append, Nat.cast_add, add_comm]
        rfl
      -- `remaining` is the length of the rest again
      have hremaining : (start.length : ℤ) - (text.length + (name.length + 4) + 1) = rest.length := by omega
      have hstring := addString_eq last text (withRef name rest) false (by omega)
      obtain ⟨m', hparse⟩ := ih (.ref (typeKey name) :: vartypeRegexAddString last text false)
        (m.getOrAdd name) (by omega)
      refine ⟨m', ?_⟩
      rw [← h.eq_append] at hstring
      rw [h.parseLoop, hname, hremaining, add_sub_cancel_right, hstring, Option.bind_some,
        addRef_eq _ name _ (by omega), Option.bind_some, h.vartypeRegexParse]
      exact hparse

theorem partsText_addString (nameOf : CString → CString) (last : Regex CString) (text : CString)
    (force : Bool) :
    partsText nameOf (vartypeRegexAddString last text force) = partsText nameOf last ++ text := by
  unfold vartypeRegexAddString
  split_ifs with hpart
  · exact partsText_cons _
  · obtain rfl : text = [] := by simpa using fun hne => hpart (Or.inl hne)
    rw [List.append_nil]

theorem partsText_vartypeRegexParse (hname : ∀ name, typeKey (nameOf (typeKey name)) = typeKey name)
    (last : Regex CString) (start : CString) (s : Vartype.Store) :
    ∃ result, partsText nameOf (vartypeRegexParse last start s).1 = partsText nameOf last ++ result ∧
      SameUpToCase start result := by
  induction start using reference_induction generalizing last s with
  | hplain start h =>
      rw [h.vartypeRegexParse]
      exact ⟨start, partsText_addString nameOf last start true, .refl start⟩
  | href start text name rest h ih =>
      obtain ⟨result, hresult, hsame⟩ :=
        ih (.ref (typeKey name) :: vartypeRegexAddString last text false) (vartypeGetOrAdd name s)
      have hfirst := h.find_open
      rw [h.vartypeRegexParse]
      rw [h.eq_append] at hfirst ⊢
      refine ⟨text ++ withRef (nameOf (typeKey name)) result, ?_,
        .ref hfirst h.close_notMem (hname name) hsame⟩
      calc
        partsText nameOf (vartypeRegexParse (.ref (typeKey name) :: vartypeRegexAddString last text false) rest
            (vartypeGetOrAdd name s)).1
            = partsText nameOf last ++ text ++ ("(RE:".toList ++ nameOf (typeKey name) ++ ")".toList) ++
                result := by
              rw [hresult, partsText_cons, partsText_addString, partText]
        _ = partsText nameOf last ++ (text ++ withRef (nameOf (typeKey name)) result) := by
            rw [withRef, List.append_assoc, List.append_assoc, List.append_assoc]
            rfl

/-! ## Every text -/

theorem typeKey_typeKey (name : CString) : typeKey (typeKey name) = typeKey name := by
  rw [typeKey, typeKey, List.map_map]
  exact List.map_congr_left fun c _ => Char.toLower_toLower_eq_toLower c

theorem Keyed.typeKey_name (h : Keyed s) (name : CString) :
    typeKey (s.typeAt (typeKey name)).name = typeKey name := by
  unfold Vartype.Store.typeAt
  cases hlookup : s.lookup (typeKey name) with
  | none => exact typeKey_typeKey name
  | some type => exact h (typeKey name) type hlookup

theorem SameUpToCase.length_eq {s t : CString} (h : SameUpToCase s t) : s.length = t.length := by
  induction h with
  | refl => rfl
  | ref hfirst hclose hname hrest ih =>
      have hlength := congrArg List.length hname
      rw [typeKey, typeKey, List.length_map, List.length_map] at hlength
      rw [List.length_append, List.length_append, length_withRef, length_withRef, ih, hlength]

theorem parseLoop_ne_nil {m' : TypeMap} (h : parseLoop last start remaining m = some (parts, m')) :
    parts ≠ [] := by
  induction start using reference_induction generalizing last remaining m with
  | hplain start hplain =>
      rw [hplain.parseLoop] at h
      obtain ⟨parts', hadd, hpair⟩ := Option.map_eq_some_iff.mp h
      obtain ⟨rfl, -⟩ := Prod.mk.inj hpair
      -- the last part is added even if there is nothing left
      unfold addString at hadd
      rw [if_pos (Or.inr rfl)] at hadd
      obtain ⟨str, -, rfl⟩ := Option.map_eq_some_iff.mp hadd
      exact List.cons_ne_nil _ _
  | href start text name rest hat ih =>
      rw [hat.parseLoop] at h
      obtain ⟨last', -, hadded⟩ := Option.bind_eq_some_iff.mp h
      obtain ⟨added, -, hrest⟩ := Option.bind_eq_some_iff.mp hadded
      exact ih hrest

theorem Reassembles.length_lt {expr : CString} (h : Reassembles m expr) : (expr.length : ℤ) < intMax := by
  obtain ⟨parts, m', result, hparse, hresult, hsame⟩ := h
  obtain ⟨part, next, rfl⟩ := List.exists_cons_of_ne_nil (parseLoop_ne_nil hparse)
  rw [hsame.length_eq]
  exact length_assemble_lt hresult

theorem reassembles_of_lt (m : TypeMap) {expr : CString} (hfits : (expr.length : ℤ) < intMax) :
    Reassembles m expr := by
  obtain ⟨m', hparse⟩ := parseLoop_eq [] expr m hfits
  have hname : ∀ name, typeKey (m'.name (typeKey name)) = typeKey name := m'.keyed.typeKey_name
  obtain ⟨result, htext, hsame⟩ := partsText_vartypeRegexParse hname [] expr m.types
  have hresult : partsText m'.name (vartypeRegexParse [] expr m.types).1 = result := htext
  have hfits' : ((partsText m'.name (vartypeRegexParse [] expr m.types).1).length : ℤ) < intMax := by
    rw [hresult, ← hsame.length_eq]
    exact hfits
  have hassemble := assemble_eq hfits'
  rw [hresult] at hassemble
  refine ⟨(vartypeRegexParse [] expr m.types).1, m', result, ?_, hassemble, hsame⟩
  rw [parse, toInt32_length hfits.le]
  exact hparse

/-- Whatever types there are, an expression comes back from its parts if it is shorter than `INT_MAX`, and
only then. -/
theorem reassembles_iff (m : TypeMap) (expr : CString) :
    Reassembles m expr ↔ (expr.length : ℤ) < intMax :=
  ⟨Reassembles.length_lt, reassembles_of_lt m⟩

/-- No types. -/
def TypeMap.empty : TypeMap := ⟨∅, fun _ _ hlookup => nomatch hlookup⟩

theorem strstr_replicate (n : ℕ) : strstr "(RE:".toList (List.replicate n 'a') = none := by
  induction n with
  | zero => rfl
  | succ n ih =>
      have hne : ¬ "(RE:".toList <+: 'a' :: List.replicate n 'a' := by
        rintro ⟨tail, htail⟩
        exact absurd (List.cons.inj htail).1 (by decide)
      rw [List.replicate_succ, strstr, if_neg hne, ih]
      rfl

theorem parse_replicate (m : TypeMap) {n : ℕ} (hn : 5 ≤ n) (hint : toInt32 n = 5) :
    parse (List.replicate n 'a') m = some ([.str "aaaaa".toList], m) := by
  have hplain : Plain (List.replicate n 'a') := Or.inl (strstr_replicate n)
  have htake : (List.replicate n 'a').take 5 = "aaaaa".toList := by
    rw [List.take_replicate, Nat.min_eq_left hn]
    rfl
  have hsave : substrsave (List.replicate n 'a') 5 = some "aaaaa".toList := by
    rw [← htake]
    exact substrsave_eq_take (by decide)
  rw [parse, hplain.parseLoop, List.length_replicate, hint, addString, if_pos (Or.inr rfl), hsave]
  rfl

/-- Of 2^32 + 5 characters, five come back. -/
theorem not_reassembles_replicate :
    parse (List.replicate 4294967301 'a') TypeMap.empty = some ([.str "aaaaa".toList], TypeMap.empty) ∧
      assemble TypeMap.empty.name [.str "aaaaa".toList] = some "aaaaa".toList ∧
      ¬ Reassembles TypeMap.empty (List.replicate 4294967301 'a') := by
  refine ⟨parse_replicate TypeMap.empty (by decide) (by decide), by decide, ?_⟩
  intro h
  have hlength := h.length_lt
  rw [List.length_replicate] at hlength
  exact absurd hlength (by decide)

end VartypeRegex
end Mkfli4l
