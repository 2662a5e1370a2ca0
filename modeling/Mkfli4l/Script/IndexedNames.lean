import Mathlib
import Mkfli4l.Lib.Buffers
import Mkfli4l.Lib.CharRegex
import Mkfli4l.Lib.Templates
import Mkfli4l.Script.Arithmetic

/-!
# Names with indices

A check script writes an element of an array as the name of the array, which has a placeholder for every
index, and the indices behind it.  The parse tree has a node for each of them, the innermost one with the
name, and every node fills one placeholder.

`get_set_var_name_int` makes a format of the name for this: the first placeholder becomes a directive for the
index, and the others are doubled.  The name is measured before, but the format is longer, and the result is
measured when it has been written.  Indices are read as `unsigned long` and printed as `int`.
-/

namespace Mkfli4l
namespace Script
namespace IndexedNames

open Lib

/-! ## The source -/

/-- How a call ends without a result: in `fatal_exit`, or with a write behind the end of an array. -/
inductive Stop
  | fatal (error : Fatal)
  | overflow
deriving DecidableEq

/-- The loop of `get_set_var_name_int`, which builds the format in `fmt_buf`. -/
def fmtLoop (fmtBuf : Buffer (varSize + 1)) (p : ℕ) (indexFound : Bool) :
    CString → Option (Buffer (varSize + 1))
  | [] => fmtBuf.store p ['\x00']
  | c :: fmt => do
      let fmtBuf ← fmtBuf.store p [c]
      if c = '%' then do
        let fmtBuf ← fmtBuf.store (p + 1) [if indexFound then '%' else 'd']
        fmtLoop fmtBuf (p + 2) true fmt
      else fmtLoop fmtBuf (p + 1) indexFound fmt

/-- The text of `sprintf` for the directives that the loop makes. -/
def sprintfInt (index : ℤ) : CString → CString
  | '%' :: 'd' :: fmt => formatInt index ++ sprintfInt index fmt
  | '%' :: '%' :: fmt => '%' :: sprintfInt index fmt
  | c :: fmt => c :: sprintfInt index fmt
  | [] => []

section Source

variable (env : Env) (fmtBuf varBuf : Buffer (varSize + 1))
  (elemGetArg : Elem → Except Stop (CString × ArgType))

/-- `get_set_var_name_int`, with what its arrays hold before. -/
def getSetVarNameInt (s : CString) (index : ℤ) : Except Stop CString :=
  if varSize ≤ s.length then .error (.fatal (.nameTooLong s))
  else
    match fmtLoop fmtBuf 0 false s with
    | none => .error .overflow
    | some fmtBuf =>
        match varBuf.strcpy (sprintfInt index fmtBuf.text) with
        | none => .error .overflow
        | some varBuf =>
            -- "if this condition is true, a buffer overflow has already occurred"
            if varSize ≤ varBuf.text.length then .error (.fatal (.nameTooLong varBuf.text))
            else .ok varBuf.text

def getSetVarNameString (s index : CString) : Except Stop CString :=
  match convertToLong index with
  | .error e => .error (.fatal e)
  | .ok n => getSetVarNameInt fmtBuf varBuf s (toInt32 n)

/-- `elem_get_set_name_type`, where `elemGetArg` is `elem_get_arg` for the indices. -/
def elemGetSetNameType : IdSet → Except Stop (CString × ArgType)
  | .leaf val index => do
      let (index, t) ← elemGetArg index
      if t.num = false then throw (.fatal .nonNumericIndex)
      let ret ← getSetVarNameString fmtBuf varBuf val index
      pure (ret, { ArgType.none with id := true, num := isVarNumeric env ret })
  | .node set index => do
      let (index, t) ← elemGetArg index
      if t.num = false then throw (.fatal .nonNumericIndex)
      let (setVar, type) ← elemGetSetNameType set
      let ret ← getSetVarNameString fmtBuf varBuf setVar index
      pure (ret, type)

end Source

/-- The node for a name with one index or more. -/
def indexed (val : CString) (first : Elem) (rest : List Elem) : IdSet := rest.foldl .node (.leaf val first)

/-! ## Names of arrays -/

/-- The name of an array: behind a placeholder there is an underscore, or the name ends. -/
structure ArrayName where
  name : CString
  noNul : '\x00' ∉ name
  followed : FollowedBy '%' '_' name

/-- `IDSET` of the scanner. -/
def idset : CharRegex :=
  .seq (.set Char.isAlpha)
    (.seq (.star (.seq (.opt (.text ['_', '%', '_'])) (.star (.set fun c => c.isAlphanum || c == '_'))))
      (.opt (.text ['_', '%'])))

theorem eq_of_toUpper_eq {c d : Char} (hd : d.isAlpha = false) (h : c.toUpper = d) : c = d := by
  have hlower : ¬ c.isLower := by
    intro hlower
    have halpha := Char.isAlpha_toUpper_eq_isAlpha c
    rw [h, hd, Char.isAlpha, hlower, Bool.or_true] at halpha
    contradiction
  rw [← h, Char.toUpper_eq_of_not_isLower hlower]

theorem getLast?_append_ne {s t : CString} {c : Char} (hs : s.getLast? ≠ some c) (ht : t.getLast? ≠ some c) :
    (s ++ t).getLast? ≠ some c := by
  rw [List.getLast?_append]
  cases hlast : t.getLast? with
  | none => exact hs
  | some d => rwa [hlast] at ht

theorem followedBy_words {words : List CString}
    (h : ∀ word ∈ words, word ∈ (CharRegex.seq (.opt (.text ['_', '%', '_']))
      (.star (.set fun c => c.isAlphanum || c == '_'))).lang) :
    FollowedBy '%' '_' words.flatten ∧ words.flatten.getLast? ≠ some '%' := by
  induction words with
  | nil => exact ⟨followedBy_nil, nofun⟩
  | cons word words ih =>
      obtain ⟨hwords, hlast⟩ := ih fun word' hword' => h word' (List.mem_cons_of_mem word hword')
      obtain ⟨u, hu, v, hv, rfl⟩ := Language.mem_mul.mp (h word List.mem_cons_self)
      have hrun : '%' ∉ v := CharRegex.notMem_of_avoids (by decide) hv
      have hmark : FollowedBy '%' '_' u ∧ u.getLast? ≠ some '%' := by
        rcases hu with hu | hu
        · rw [CharRegex.mem_text_lang.mp hu]
          exact ⟨by simp [followedBy_cons, followedBy_nil], by decide⟩
        · rw [(Language.mem_one _).mp hu]
          exact ⟨followedBy_nil, nofun⟩
      have hword : FollowedBy '%' '_' (u ++ v) := hmark.1.append hmark.2 (.of_notMem hrun)
      have hend : (u ++ v).getLast? ≠ some '%' :=
        getLast?_append_ne hmark.2 fun h => hrun (List.mem_of_getLast? h)
      rw [List.flatten_cons]
      exact ⟨hword.append hend hwords, getLast?_append_ne hend hlast⟩

theorem followedBy_of_mem_idset {s : CString} (h : s ∈ idset.lang) : FollowedBy '%' '_' s := by
  obtain ⟨x, hx, y, ⟨w, hw, z, hz, rfl⟩, rfl⟩ := Language.mem_mul.mp h
  obtain ⟨words, rfl, hwords⟩ := Language.mem_kstar.mp hw
  obtain ⟨c, hc, rfl⟩ := CharRegex.mem_set_lang.mp hx
  obtain ⟨hfollowed, hlast⟩ := followedBy_words hwords
  have hmark : c ≠ '%' := by
    rintro rfl
    contradiction
  have hend : FollowedBy '%' '_' z := by
    rcases hz with hz | hz
    · rw [CharRegex.mem_text_lang.mp hz]
      simp [followedBy_cons, followedBy_nil]
    · rw [(Language.mem_one _).mp hz]
      exact followedBy_nil
  exact followedBy_cons.mpr ⟨fun heq => absurd heq hmark, hfollowed.append hlast hend⟩

/-- The name in the leaf that `mkleaf` makes of a token. -/
def ArrayName.ofToken (yytext : CString) (h : yytext ∈ idset.lang) : ArrayName where
  name := convertToUpper yytext
  noNul := by
    have hnul : '\x00' ∉ yytext := CharRegex.notMem_of_avoids (by decide) h
    intro hmem
    obtain ⟨c, hc, hupper⟩ := List.mem_map.mp hmem
    exact hnul (eq_of_toUpper_eq (by decide) hupper ▸ hc)
  followed :=
    (followedBy_of_mem_idset h).map (fun _ hupper => eq_of_toUpper_eq (by decide) hupper) (by decide)

/-! ## What is meant -/

/-- The integer is an `int`. -/
def IsInt (n : ℤ) : Prop := -2147483648 ≤ n ∧ n ≤ 2147483647

/-- The call ends in a fatal error, or it returns the name with the numerals of the indices in place of the
placeholders.  It does not write behind the end of an array. -/
def Right (name : CString) (texts : List CString) : Except Stop CString → Prop
  | .ok ret => ∃ values : List ℤ, texts.map numberOf = values.map some ∧
      ret = fill '%' name (values.map formatInt)
  | .error (.fatal _) => True
  | .error .overflow => False

/-- The text that an index is printed as. -/
def printedIndex (text : CString) : CString := formatInt (toInt32 (asUnsignedLong ((numberOf text).getD 0)))

/-- The length of the name after some indices. -/
def nameLength (len : ℕ) (texts : List CString) (i : ℕ) : ℕ :=
  len + ((texts.take i).map fun text => (printedIndex text).length - 1).sum

/-- The names and the formats of all levels that are reached have enough room. -/
def HasRoom (len : ℕ) (texts : List CString) : Prop :=
  ∀ i < texts.length, (∀ text ∈ texts.take (i + 1), (numberOf text).isSome) →
    nameLength len texts i < varSize →
      nameLength len texts i + (texts.length - i) ≤ varSize ∧ nameLength len texts (i + 1) ≤ varSize

/-- There is enough room, and the indices are `int`s if no level ends in a fatal error. -/
structure Fits (name : CString) (texts : List CString) : Prop where
  room : HasRoom name.length texts
  int : (∀ text ∈ texts, (numberOf text).isSome) → nameLength name.length texts texts.length < varSize →
    ∀ text ∈ texts, ∀ n, numberOf text = some n → IsInt n

/-! ## The format -/

section Format

variable {s : CString} {found : Bool} {index : ℤ}

/-- The format that the loop builds. -/
def fmtText (found : Bool) : CString → CString
  | [] => []
  | c :: fmt =>
      if c = '%' then '%' :: (if found then '%' else 'd') :: fmtText true fmt else c :: fmtText found fmt

theorem fmtLoop_eq (fmtBuf : Buffer (varSize + 1)) (p : ℕ) (found : Bool) (s : CString) :
    fmtLoop fmtBuf p found s = fmtBuf.store p (fmtText found s ++ ['\x00']) := by
  induction s generalizing fmtBuf p found with
  | nil => rfl
  | cons c s ih =>
      have hstore : ∀ (buf : Buffer (varSize + 1)) (p : ℕ) (d : Char) (more : CString),
          ((buf.store p [d]).bind fun buf => buf.store (p + 1) more) = buf.store p (d :: more) :=
        fun buf p d more => Buffer.store_bind_store buf p [d] more
      rw [fmtLoop, fmtText, Option.bind_eq_bind]
      by_cases hc : c = '%'
      · subst hc
        rw [if_pos rfl, List.cons_append, List.cons_append]
        refine Eq.trans (congrArg (Option.bind _) (funext fun fmtBuf => ?_)) (hstore fmtBuf p '%' _)
        rw [if_pos rfl]
        exact Eq.trans (congrArg (Option.bind _) (funext fun fmtBuf => ih fmtBuf (p + 2) true))
          (hstore fmtBuf (p + 1) _ _)
      · rw [if_neg hc, List.cons_append]
        refine Eq.trans (congrArg (Option.bind _) (funext fun fmtBuf => ?_)) (hstore fmtBuf p c _)
        rw [if_neg hc]
        exact ih fmtBuf (p + 1) found

theorem length_fmtText (found : Bool) (s : CString) :
    (fmtText found s).length = s.length + s.count '%' := by
  induction s generalizing found with
  | nil => rfl
  | cons c s ih =>
      rw [fmtText]
      by_cases hc : c = '%'
      · rw [if_pos hc, hc, List.length_cons, List.length_cons, List.length_cons, List.count_cons_self, ih]
        omega
      · rw [if_neg hc, List.length_cons, List.length_cons, List.count_cons_of_ne hc, ih]
        omega

theorem noNul_fmtText (found : Bool) (hs : '\x00' ∉ s) : '\x00' ∉ fmtText found s := by
  induction s generalizing found with
  | nil => exact List.not_mem_nil
  | cons c s ih =>
      rw [List.mem_cons, not_or] at hs
      rw [fmtText]
      split_ifs with hc hfound
      · simpa using ih _ hs.2
      · simpa using ih _ hs.2
      · rw [List.mem_cons, not_or]
        exact ⟨hs.1, ih _ hs.2⟩

theorem sprintfInt_cons {c : Char} (hc : c ≠ '%') (index : ℤ) (fmt : CString) :
    sprintfInt index (c :: fmt) = c :: sprintfInt index fmt := by
  rw [sprintfInt]
  · rintro fmt' rfl
    contradiction
  · rintro fmt' rfl
    contradiction

theorem sprintfInt_fmtText_true (index : ℤ) (s : CString) : sprintfInt index (fmtText true s) = s := by
  induction s with
  | nil => rfl
  | cons c s ih =>
      rw [fmtText]
      by_cases hc : c = '%'
      · rw [if_pos hc, if_pos rfl, sprintfInt, ih, hc]
      · rw [if_neg hc, sprintfInt_cons hc, ih]

theorem sprintfInt_fmtText (index : ℤ) (s : CString) :
    sprintfInt index (fmtText false s) = fill '%' s [formatInt index] := by
  induction s with
  | nil => rfl
  | cons c s ih =>
      rw [fmtText]
      by_cases hc : c = '%'
      · subst hc
        rw [if_pos rfl, if_neg Bool.false_ne_true, sprintfInt, sprintfInt_fmtText_true, fill_mark, fill_nil]
      · rw [if_neg hc, sprintfInt_cons hc, fill_of_ne hc, ih]

theorem notMem_formatInt {c : Char} (hdigit : c.isDigit = false) (hminus : c ≠ '-') (index : ℤ) :
    c ∉ formatInt index := by
  have hnumeral : c ∉ Nat.toDigits 10 index.natAbs := by
    intro hmem
    rw [Nat.isDigit_of_mem_toDigits (by decide) (by decide) hmem] at hdigit
    contradiction
  unfold formatInt
  split_ifs
  · rw [List.mem_cons, not_or]
    exact ⟨hminus, hnumeral⟩
  · exact hnumeral

theorem formatInt_ne_nil (index : ℤ) : formatInt index ≠ [] := by
  unfold formatInt
  split_ifs
  · exact List.cons_ne_nil _ _
  · exact Nat.toDigits_ne_nil

end Format

/-! ## One level -/

section Level

variable {fmtBuf varBuf : Buffer (varSize + 1)} {s text : CString} {index : ℤ}

/-- What `get_set_var_name_int` does with a name and the text of the result. -/
def levelResult (s name : CString) : Except Stop CString :=
  if varSize ≤ s.length then .error (.fatal (.nameTooLong s))
  else if varSize < s.length + s.count '%' ∨ varSize < name.length then .error .overflow
  else if varSize ≤ name.length then .error (.fatal (.nameTooLong name))
  else .ok name

theorem getSetVarNameInt_eq (hs : '\x00' ∉ s) :
    getSetVarNameInt fmtBuf varBuf s index = levelResult s (fill '%' s [formatInt index]) := by
  unfold getSetVarNameInt levelResult
  by_cases hlong : varSize ≤ s.length
  · rw [if_pos hlong, if_pos hlong]
  · rw [if_neg hlong, if_neg hlong, fmtLoop_eq]
    have hname : '\x00' ∉ fill '%' s [formatInt index] := notMem_fill hs (by
      intro x hx
      obtain rfl := List.mem_singleton.mp hx
      exact notMem_formatInt (by decide) (by decide) index)
    have hformat := Buffer.map_text_strcpy fmtBuf (noNul_fmtText false hs)
    have hlength := length_fmtText false s
    unfold Buffer.strcpy at hformat
    -- both buffers have one byte for the terminating NUL
    cases hstore : fmtBuf.store 0 (fmtText false s ++ ['\x00']) with
    | none =>
        rw [hstore] at hformat
        have hover : ¬ (fmtText false s).length < varSize + 1 := by
          intro hlt
          rw [Buffer.within_of_lt hlt] at hformat
          exact nomatch hformat
        rw [if_pos (Or.inl (by omega))]
    | some fmtBuf' =>
        rw [hstore] at hformat
        obtain ⟨htext, hlt⟩ := Buffer.within_eq_some.mp hformat.symm
        have hprinted := Buffer.map_text_strcpy varBuf hname
        dsimp only
        rw [← htext, sprintfInt_fmtText]
        cases hprint : varBuf.strcpy (fill '%' s [formatInt index]) with
        | none =>
            rw [hprint] at hprinted
            have hover : ¬ (fill '%' s [formatInt index]).length < varSize + 1 := by
              intro hlt'
              rw [Buffer.within_of_lt hlt'] at hprinted
              exact nomatch hprinted
            rw [if_pos (Or.inr (by omega))]
        | some varBuf' =>
            rw [hprint] at hprinted
            obtain ⟨htext', hlt'⟩ := Buffer.within_eq_some.mp hprinted.symm
            dsimp only
            rw [← htext', if_neg (show ¬ (varSize < _ ∨ varSize < _) by omega)]

theorem toInt32_asUnsignedLong_eq_iff (n : ℤ) : toInt32 (asUnsignedLong n) = n ↔ IsInt n := by
  unfold toInt32 asUnsignedLong IsInt
  split <;> omega

theorem printedIndex_eq_iff {n : ℤ} (h : numberOf text = some n) :
    printedIndex text = formatInt n ↔ IsInt n := by
  unfold printedIndex
  rw [h, Option.getD_some, formatInt_injective.eq_iff]
  exact toInt32_asUnsignedLong_eq_iff n

theorem notMem_printedIndex {c : Char} (hdigit : c.isDigit = false) (hminus : c ≠ '-') (text : CString) :
    c ∉ printedIndex text := notMem_formatInt hdigit hminus _

theorem getSetVarNameString_of_none (fmtBuf varBuf : Buffer (varSize + 1)) (s : CString)
    (h : numberOf text = none) :
    ∃ e, getSetVarNameString fmtBuf varBuf s text = .error (.fatal e) := by
  unfold getSetVarNameString
  cases hlong : convertToLong text with
  | error e => exact ⟨e, rfl⟩
  | ok x =>
      obtain ⟨n, hn, -⟩ := convertToLong_eq_ok.mp hlong
      exact nomatch h.symm.trans hn

theorem getSetVarNameString_of_isSome (hs : '\x00' ∉ s) (h : (numberOf text).isSome) :
    getSetVarNameString fmtBuf varBuf s text = levelResult s (fill '%' s [printedIndex text]) := by
  obtain ⟨n, hn⟩ := Option.isSome_iff_exists.mp h
  have hnonneg : 0 ≤ asUnsignedLong n := by
    unfold asUnsignedLong
    split <;> omega
  have hlong : convertToLong text = .ok (asUnsignedLong n).toNat :=
    convertToLong_eq_ok.mpr ⟨n, hn, Int.toNat_of_nonneg hnonneg⟩
  unfold getSetVarNameString printedIndex
  rw [hlong, hn, Option.getD_some]
  dsimp only
  rw [getSetVarNameInt_eq hs, Int.toNat_of_nonneg hnonneg]

end Level

/-! ## All levels -/

section Levels

variable {fmtBuf varBuf : Buffer (varSize + 1)} {s text ret : CString} {texts : List CString} {len : ℕ}

/-- The first placeholder is filled with the first index, and so on. -/
def replaceAll (fmtBuf varBuf : Buffer (varSize + 1)) (s : CString) (texts : List CString) :
    Except Stop CString :=
  texts.foldlM (getSetVarNameString fmtBuf varBuf) s

theorem nameLength_zero (len : ℕ) (texts : List CString) : nameLength len texts 0 = len := rfl

theorem nameLength_succ (len : ℕ) (text : CString) (texts : List CString) (i : ℕ) :
    nameLength len (text :: texts) (i + 1) =
      nameLength (len + ((printedIndex text).length - 1)) texts i := by
  unfold nameLength
  rw [List.take_succ_cons, List.map_cons, List.sum_cons, Nat.add_assoc]

theorem le_nameLength (len : ℕ) (texts : List CString) (i : ℕ) : len ≤ nameLength len texts i :=
  Nat.le_add_right _ _

theorem hasRoom_of_le (h : varSize ≤ len) : HasRoom len texts := by
  intro i hi hnumbers hlt
  have hle := le_nameLength len texts i
  omega

theorem hasRoom_cons : HasRoom len (text :: texts) ↔ ((numberOf text).isSome → len < varSize →
    len + (texts.length + 1) ≤ varSize ∧ len + ((printedIndex text).length - 1) ≤ varSize ∧
      HasRoom (len + ((printedIndex text).length - 1)) texts) := by
  constructor
  · intro h hnumber hlt
    have hfirst := h 0 (Nat.zero_lt_succ _) (by simpa using hnumber) hlt
    rw [nameLength_succ, nameLength_zero, nameLength_zero] at hfirst
    refine ⟨hfirst.1, hfirst.2, fun i hi hnumbers hlt' => ?_⟩
    have hnext := h (i + 1) (Nat.succ_lt_succ hi) (by
      rw [List.take_succ_cons, List.forall_mem_cons]
      exact ⟨hnumber, hnumbers⟩) (by rwa [nameLength_succ])
    rwa [nameLength_succ, nameLength_succ, List.length_cons, Nat.add_sub_add_right] at hnext
  · intro h i hi hnumbers hlt
    rw [List.take_succ_cons, List.forall_mem_cons] at hnumbers
    have hle := le_nameLength len (text :: texts) i
    obtain ⟨hformat, hname, hrest⟩ := h hnumbers.1 (hle.trans_lt hlt)
    cases i with
    | zero =>
        rw [nameLength_succ, nameLength_zero, nameLength_zero]
        exact ⟨hformat, hname⟩
    | succ i =>
        rw [nameLength_succ] at hlt
        rw [nameLength_succ, nameLength_succ, List.length_cons, Nat.add_sub_add_right]
        exact hrest i (Nat.lt_of_succ_lt_succ hi) hnumbers.2 hlt

theorem fill_level (hs : '\x00' ∉ s) (hcount : s.count '%' = texts.length + 1) (text : CString) :
    '\x00' ∉ fill '%' s [printedIndex text] ∧
      (fill '%' s [printedIndex text]).count '%' = texts.length ∧
      (fill '%' s [printedIndex text]).length = s.length + ((printedIndex text).length - 1) := by
  have hmem : '%' ∈ s := List.count_pos_iff.mp (by omega)
  have hmark : '%' ∉ printedIndex text := notMem_printedIndex (by decide) (by decide) text
  have hlength := length_fill_singleton hmem (printedIndex text)
  have hnext := count_fill_singleton hmem hmark
  have hprinted : 0 < (printedIndex text).length := List.length_pos_iff.mpr (formatInt_ne_nil _)
  refine ⟨notMem_fill hs fun x hx => ?_, by omega, by omega⟩
  obtain rfl := List.mem_singleton.mp hx
  exact notMem_printedIndex (by decide) (by decide) text

theorem replaceAll_eq_overflow_iff (hs : '\x00' ∉ s) (hcount : s.count '%' = texts.length) :
    replaceAll fmtBuf varBuf s texts = .error .overflow ↔ ¬ HasRoom s.length texts := by
  induction texts generalizing s with
  | nil => exact iff_of_false nofun (not_not_intro fun i hi => absurd hi (Nat.not_lt_zero i))
  | cons text texts ih =>
      obtain ⟨hs', hcount', hlength⟩ := fill_level hs hcount text
      rw [replaceAll, List.foldlM_cons, hasRoom_cons]
      by_cases hnumber : (numberOf text).isSome
      · rw [getSetVarNameString_of_isSome hs hnumber, levelResult, hcount, List.length_cons]
        split_ifs with hlong hover hlast
        -- the name is too long before this level
        · exact iff_of_false nofun (not_not_intro fun _ hlt => absurd hlt (by omega))
        -- the format or the result does not fit
        · refine iff_of_true rfl fun h => ?_
          obtain ⟨hformat, hname, -⟩ := h hnumber (by omega)
          omega
        -- the result fits, but it is a character too long, and no other level is reached
        · exact iff_of_false nofun (not_not_intro fun _ _ =>
            ⟨by omega, by omega, hasRoom_of_le (by omega)⟩)
        · refine (ih hs' hcount').trans (not_congr ?_)
          rw [hlength]
          exact ⟨fun h _ _ => ⟨by omega, by omega, h⟩, fun h => (h hnumber (by omega)).2.2⟩
      · obtain ⟨e, he⟩ := getSetVarNameString_of_none fmtBuf varBuf s
          (Option.not_isSome_iff_eq_none.mp hnumber)
        rw [he]
        exact iff_of_false nofun (not_not_intro fun h => absurd h hnumber)

theorem replaceAll_eq_ok_iff (hs : '\x00' ∉ s) (hcount : s.count '%' = texts.length) (hlt : s.length < varSize)
    (hroom : HasRoom s.length texts) :
    replaceAll fmtBuf varBuf s texts = .ok ret ↔
      (∀ text ∈ texts, (numberOf text).isSome) ∧ nameLength s.length texts texts.length < varSize ∧
        ret = fill '%' s (texts.map printedIndex) := by
  induction texts generalizing s with
  | nil =>
      rw [List.map_nil, fill_nil, List.length_nil, nameLength_zero]
      exact ⟨fun h => ⟨nofun, hlt, (Except.ok.inj h).symm⟩, fun h => congrArg Except.ok h.2.2.symm⟩
  | cons text texts ih =>
      obtain ⟨hs', hcount', hlength⟩ := fill_level hs hcount text
      have hfill := fill_fill (notMem_printedIndex (c := '%') (by decide) (by decide) text) s
        (texts.map printedIndex)
      rw [hasRoom_cons] at hroom
      rw [replaceAll, List.foldlM_cons, List.forall_mem_cons, List.length_cons, nameLength_succ, List.map_cons,
        ← hfill, and_assoc]
      by_cases hnumber : (numberOf text).isSome
      · obtain ⟨hformat, hname, hrest⟩ := hroom hnumber hlt
        rw [getSetVarNameString_of_isSome hs hnumber, levelResult, if_neg (by omega), hcount, List.length_cons,
          if_neg (by omega), and_iff_right hnumber]
        split_ifs with hlast
        · refine iff_of_false nofun fun h => ?_
          have hle := le_nameLength (s.length + ((printedIndex text).length - 1)) texts texts.length
          omega
        · rw [← hlength] at hrest ⊢
          exact ih hs' hcount' (by omega) hrest
      · obtain ⟨e, he⟩ := getSetVarNameString_of_none fmtBuf varBuf s
          (Option.not_isSome_iff_eq_none.mp hnumber)
        rw [he]
        exact iff_of_false nofun fun h => absurd h.1 hnumber

theorem replaceAll_of_tooLong (fmtBuf varBuf : Buffer (varSize + 1)) (hs : '\x00' ∉ s) (hne : texts ≠ [])
    (hlong : varSize ≤ s.length) :
    ∃ e, replaceAll fmtBuf varBuf s texts = .error (.fatal e) := by
  obtain ⟨text, texts, rfl⟩ := List.exists_cons_of_ne_nil hne
  rw [replaceAll, List.foldlM_cons]
  by_cases hnumber : (numberOf text).isSome
  · rw [getSetVarNameString_of_isSome hs hnumber, levelResult, if_pos hlong]
    exact ⟨_, rfl⟩
  · obtain ⟨e, he⟩ := getSetVarNameString_of_none fmtBuf varBuf s
      (Option.not_isSome_iff_eq_none.mp hnumber)
    rw [he]
    exact ⟨e, rfl⟩

theorem elemGetSetNameType_leaf {env : Env} {elemGetArg : Elem → Except Stop (CString × ArgType)}
    {index : Elem} {t : ArgType} (hindex : elemGetArg index = .ok (text, t)) (hnum : t.num = true)
    (val : CString) :
    (elemGetSetNameType env fmtBuf varBuf elemGetArg (.leaf val index)).map Prod.fst =
      getSetVarNameString fmtBuf varBuf val text := by
  obtain ⟨string, num, ver, id⟩ := t
  obtain rfl : num = true := hnum
  rw [elemGetSetNameType, hindex]
  change Except.map Prod.fst (do
    let ret ← getSetVarNameString fmtBuf varBuf val text
    pure (ret, { ArgType.none with id := true, num := isVarNumeric env ret })) = _
  cases getSetVarNameString fmtBuf varBuf val text <;> rfl

theorem elemGetSetNameType_node {env : Env} {elemGetArg : Elem → Except Stop (CString × ArgType)}
    {index : Elem} {t : ArgType} (hindex : elemGetArg index = .ok (text, t)) (hnum : t.num = true)
    (set : IdSet) :
    (elemGetSetNameType env fmtBuf varBuf elemGetArg (.node set index)).map Prod.fst =
      (elemGetSetNameType env fmtBuf varBuf elemGetArg set).map Prod.fst >>= fun setVar =>
        getSetVarNameString fmtBuf varBuf setVar text := by
  obtain ⟨string, num, ver, id⟩ := t
  obtain rfl : num = true := hnum
  rw [elemGetSetNameType, hindex]
  cases hset : elemGetSetNameType env fmtBuf varBuf elemGetArg set with
  | error e => rfl
  | ok result =>
      obtain ⟨setVar, type⟩ := result
      change Except.map Prod.fst (do
        let ret ← getSetVarNameString fmtBuf varBuf setVar text
        pure (ret, type)) = getSetVarNameString fmtBuf varBuf setVar text
      cases getSetVarNameString fmtBuf varBuf setVar text <;> rfl

theorem map_fst_elemGetSetNameType {env : Env} {elemGetArg : Elem → Except Stop (CString × ArgType)}
    {text : Elem → CString} (val : CString) (first : Elem) (rest : List Elem)
    (harg : ∀ index ∈ first :: rest, ∃ t, elemGetArg index = .ok (text index, t) ∧ t.num = true) :
    (elemGetSetNameType env fmtBuf varBuf elemGetArg (indexed val first rest)).map Prod.fst =
      replaceAll fmtBuf varBuf val ((first :: rest).map text) := by
  induction rest using List.reverseRecOn with
  | nil =>
      obtain ⟨t, hfirst, hnum⟩ := harg first List.mem_cons_self
      rw [indexed, List.foldl_nil, elemGetSetNameType_leaf hfirst hnum, replaceAll, List.map_singleton,
        List.foldlM_cons]
      exact (bind_pure _).symm
  -- the outermost node has the last index
  | append_singleton rest index ih =>
      obtain ⟨t, hindex, hnum⟩ := harg index (by simp)
      have hset := ih fun index' hindex' => harg index' (List.mem_append_left [index] hindex')
      rw [indexed, List.foldl_append, List.foldl_cons, List.foldl_nil, elemGetSetNameType_node hindex hnum,
        ← List.cons_append, List.map_append, replaceAll, List.foldlM_append, ← replaceAll, ← hset, indexed]
      refine congrArg (Bind.bind _) (funext fun setVar => ?_)
      rw [List.map_singleton, List.foldlM_cons]
      exact (bind_pure _).symm

end Levels

/-! ## Calls without an overflow -/

section Agreement

variable {α β : Type} {P : α → Prop} {Q : β → Prop}

/-- The results of a call in which arrays may overflow, and of the same call in which they have no end. -/
inductive Agrees (P : α → Prop) : Except Stop α → Except Fatal α → Prop
  | ok (a : α) (h : P a) : Agrees P (.ok a) (.ok a)
  | fatal (e : Fatal) : Agrees P (.error (.fatal e)) (.error e)
  | overflow (y : Except Fatal α) : Agrees P (.error .overflow) y

theorem agrees_mapError (y : Except Fatal α) : Agrees (fun _ => True) (y.mapError .fatal) y := by
  cases y with
  | ok a => exact .ok a trivial
  | error e => exact .fatal e

theorem Agrees.bind {x : Except Stop α} {y : Except Fatal α} {f : α → Except Stop β} {g : α → Except Fatal β}
    (hxy : Agrees P x y) (hfg : ∀ a, P a → Agrees Q (f a) (g a)) : Agrees Q (x >>= f) (y >>= g) := by
  cases hxy with
  | ok a h => exact hfg a h
  | fatal e => exact .fatal e
  | overflow y => exact .overflow _

theorem Agrees.eq_mapError {x : Except Stop α} {y : Except Fatal α} (hxy : Agrees P x y)
    (h : x ≠ .error .overflow) : x = y.mapError .fatal := by
  cases hxy with
  | ok a h => rfl
  | fatal e => rfl
  | overflow y => exact absurd rfl h

variable {fmtBuf varBuf : Buffer (varSize + 1)} {s text : CString} {index : ℤ}

theorem agrees_getSetVarNameInt (hs : '\x00' ∉ s) :
    Agrees ('\x00' ∉ ·) (getSetVarNameInt fmtBuf varBuf s index) (Script.getSetVarNameInt s index) := by
  have hname : fill '%' s [formatInt index] =
      if '%' ∈ s then s.takeWhile (· ≠ '%') ++ formatInt index ++ (s.dropWhile (· ≠ '%')).drop 1 else s := by
    split_ifs with hmem
    · exact fill_singleton_eq hmem (formatInt index)
    · exact fill_of_notMem hmem _
  rw [getSetVarNameInt_eq hs, levelResult, Script.getSetVarNameInt, ← hname]
  by_cases hlong : varSize ≤ s.length
  · rw [if_pos hlong, if_pos hlong]
    exact .fatal _
  · rw [if_neg hlong, if_neg hlong]
    by_cases hover : varSize < s.length + s.count '%' ∨ varSize < (fill '%' s [formatInt index]).length
    · rw [if_pos hover]
      exact .overflow _
    · rw [if_neg hover]
      dsimp only
      split_ifs
      · exact .fatal _
      · refine .ok _ (notMem_fill hs fun x hx => ?_)
        obtain rfl := List.mem_singleton.mp hx
        exact notMem_formatInt (by decide) (by decide) index

theorem agrees_getSetVarNameString (hs : '\x00' ∉ s) :
    Agrees ('\x00' ∉ ·) (getSetVarNameString fmtBuf varBuf s text) (Script.getSetVarNameString s text) := by
  unfold getSetVarNameString Script.getSetVarNameString
  cases convertToLong text with
  | error e => exact .fatal e
  | ok n => exact agrees_getSetVarNameInt hs

/-- The name in the innermost node. -/
def nameOf : IdSet → CString
  | .leaf val _ => val
  | .node set _ => nameOf set

theorem agrees_elemGetSetNameType (env : Env) : ∀ set : IdSet, '\x00' ∉ nameOf set →
    Agrees ('\x00' ∉ ·.1)
      (elemGetSetNameType env fmtBuf varBuf (fun index => (Script.elemGetArg env index).mapError .fatal) set)
      (Script.elemGetSetNameType env set)
  | .leaf val index, hname => by
      rw [elemGetSetNameType, Script.elemGetSetNameType]
      refine (agrees_mapError _).bind fun arg _ => ?_
      obtain ⟨text, t⟩ := arg
      dsimp only
      by_cases hnum : t.num = false
      · rw [if_pos hnum, if_pos hnum]
        exact .fatal _
      · rw [if_neg hnum, if_neg hnum]
        exact (agrees_getSetVarNameString hname).bind fun ret hret => .ok _ hret
  | .node set index, hname => by
      rw [elemGetSetNameType, Script.elemGetSetNameType]
      refine (agrees_mapError _).bind fun arg _ => ?_
      obtain ⟨text, t⟩ := arg
      dsimp only
      by_cases hnum : t.num = false
      · rw [if_pos hnum, if_pos hnum]
        exact .fatal _
      · rw [if_neg hnum, if_neg hnum]
        refine (agrees_elemGetSetNameType env set hname).bind fun result hresult => ?_
        exact (agrees_getSetVarNameString hresult).bind fun ret hret => .ok _ hret

theorem elemGetSetNameType_eq_mapError {env : Env} {set : IdSet} (hname : '\x00' ∉ nameOf set)
    (h : elemGetSetNameType env fmtBuf varBuf (fun index => (Script.elemGetArg env index).mapError .fatal) set
      ≠ .error .overflow) :
    elemGetSetNameType env fmtBuf varBuf (fun index => (Script.elemGetArg env index).mapError .fatal) set =
      (Script.elemGetSetNameType env set).mapError .fatal :=
  (agrees_elemGetSetNameType env set hname).eq_mapError h

end Agreement

/-! ## Names that are right -/

section Names

variable {fmtBuf varBuf : Buffer (varSize + 1)} {texts : List CString} {values : List ℤ} {ret : CString}

theorem map_printedIndex_eq_iff (h : texts.map numberOf = values.map some) :
    texts.map printedIndex = values.map formatInt ↔ ∀ text ∈ texts, ∀ n, numberOf text = some n → IsInt n := by
  induction texts generalizing values with
  | nil =>
      obtain rfl := List.map_eq_nil_iff.mp h.symm
      exact iff_of_true rfl nofun
  | cons text texts ih =>
      obtain ⟨value, values, rfl⟩ := List.exists_cons_of_ne_nil (l := values) (by
        rintro rfl
        exact nomatch h)
      obtain ⟨hvalue, hrest⟩ := List.cons.inj h
      rw [List.map_cons, List.map_cons, List.cons_eq_cons, ih hrest, List.forall_mem_cons,
        printedIndex_eq_iff hvalue, hvalue]
      refine and_congr_left fun _ => ⟨fun hint n hn => ?_, fun hint => hint value rfl⟩
      obtain rfl := Option.some.inj hn
      exact hint

theorem exists_values (h : ∀ text ∈ texts, (numberOf text).isSome) :
    ∃ values : List ℤ, texts.map numberOf = values.map some := by
  refine ⟨texts.map fun text => (numberOf text).getD 0, ?_⟩
  rw [List.map_map]
  refine List.map_congr_left fun text htext => ?_
  obtain ⟨n, hn⟩ := Option.isSome_iff_exists.mp (h text htext)
  rw [hn, Function.comp_apply, hn, Option.getD_some]

theorem right_fill_iff (a : ArrayName) (hcount : a.name.count '%' = texts.length)
    (hnumbers : ∀ text ∈ texts, (numberOf text).isSome) :
    Right a.name texts (.ok (fill '%' a.name (texts.map printedIndex))) ↔
      ∀ text ∈ texts, ∀ n, numberOf text = some n → IsInt n := by
  constructor
  · rintro ⟨values, hvalues, hfill⟩
    have hlength := congrArg List.length hvalues
    rw [List.length_map, List.length_map] at hlength
    -- the underscores show where an index ends, so that the names differ if two numerals do
    refine (map_printedIndex_eq_iff hvalues).mp (fill_injective a.followed (by decide)
      (by rw [List.length_map, hcount]) (by rw [List.length_map, hcount, hlength]) ?_ ?_ hfill)
    · simp only [List.forall_mem_map]
      exact fun text _ => notMem_printedIndex (by decide) (by decide) text
    · simp only [List.forall_mem_map]
      exact fun value _ => notMem_formatInt (by decide) (by decide) value
  · intro hint
    obtain ⟨values, hvalues⟩ := exists_values hnumbers
    exact ⟨values, hvalues, by rw [(map_printedIndex_eq_iff hvalues).mpr hint]⟩

/-- Names with indices are right, and stay in the arrays, if and only if there is enough room for them and the
indices are `int`s. -/
theorem indexedName_iff (env : Env) (fmtBuf varBuf : Buffer (varSize + 1))
    (elemGetArg : Elem → Except Stop (CString × ArgType)) (text : Elem → CString) (a : ArrayName)
    (first : Elem) (rest : List Elem) (hcount : a.name.count '%' = rest.length + 1)
    (harg : ∀ index ∈ first :: rest, ∃ t, elemGetArg index = .ok (text index, t) ∧ t.num = true) :
    Right a.name ((first :: rest).map text)
        ((elemGetSetNameType env fmtBuf varBuf elemGetArg (indexed a.name first rest)).map Prod.fst) ↔
      Fits a.name ((first :: rest).map text) := by
  rw [map_fst_elemGetSetNameType a.name first rest harg]
  -- every index has its placeholder
  have hlength : a.name.count '%' = ((first :: rest).map text).length := by
    rw [hcount, List.length_map, List.length_cons]
  have hne : (first :: rest).map text ≠ [] := List.cons_ne_nil _ _
  generalize (first :: rest).map text = texts at hlength hne
  by_cases hlong : varSize ≤ a.name.length
  · obtain ⟨e, he⟩ := replaceAll_of_tooLong fmtBuf varBuf a.noNul hne hlong
    rw [he]
    refine iff_of_true trivial ⟨hasRoom_of_le hlong, fun _ hlt => ?_⟩
    have hle := le_nameLength a.name.length texts texts.length
    omega
  · by_cases hroom : HasRoom a.name.length texts
    · have hok := fun ret => @replaceAll_eq_ok_iff fmtBuf varBuf a.name ret texts a.noNul hlength
        (Nat.lt_of_not_le hlong) hroom
      cases hret : replaceAll fmtBuf varBuf a.name texts with
      | error stop =>
          cases stop with
          | overflow => exact absurd hroom ((replaceAll_eq_overflow_iff a.noNul hlength).mp hret)
          | fatal e =>
              refine iff_of_true trivial ⟨hroom, fun hnumbers hlt => ?_⟩
              have hreturned := (hok _).mpr ⟨hnumbers, hlt, rfl⟩
              exact nomatch hret.symm.trans hreturned
      | ok ret =>
          obtain ⟨hnumbers, hlt, rfl⟩ := (hok ret).mp hret
          refine (right_fill_iff a hlength hnumbers).trans ⟨fun hint => ⟨hroom, fun _ _ => hint⟩, fun h => ?_⟩
          exact h.int hnumbers hlt
    · rw [(replaceAll_eq_overflow_iff a.noNul hlength).mpr hroom]
      exact iff_of_false id fun h => hroom h.room

end Names

/-- An array, as it is before the first write. -/
def blank : Buffer (varSize + 1) := ⟨List.replicate (varSize + 1) '\x00', List.length_replicate⟩

/-- The text of a number in a script. -/
def numText : Elem → CString
  | .num val => val
  | _ => []

/-- The name in the token `foo_%_b_%`. -/
def fooB : ArrayName := .ofToken "foo_%_b_%".toList (CharRegex.test_iff.mp (by decide))

/-- The name in the token `foo_%`. -/
def foo : ArrayName := .ofToken "foo_%".toList (CharRegex.test_iff.mp (by decide))

theorem elemGetSetNameType_eq_mapError_foo :
    elemGetSetNameType oneNumeric blank blank (fun index => (Script.elemGetArg oneNumeric index).mapError .fatal)
        (.leaf foo.name (.num "2".toList)) =
      (Script.elemGetSetNameType oneNumeric (.leaf foo.name (.num "2".toList))).mapError .fatal :=
  elemGetSetNameType_eq_mapError (by decide) (by decide +kernel)

/-- `foo_%_b_%[2][0x10]`. -/
theorem indexedName_fooB :
    Right fooB.name ["2".toList, "0x10".toList]
        ((elemGetSetNameType oneNumeric blank blank
          (fun index => (Script.elemGetArg oneNumeric index).mapError .fatal)
          (indexed fooB.name (.num "2".toList) [.num "0x10".toList])).map Prod.fst) ↔
      Fits fooB.name ["2".toList, "0x10".toList] := by
  refine indexedName_iff oneNumeric blank blank _ numText _ (.num "2".toList) [.num "0x10".toList]
    (by decide) ?_
  simp only [List.forall_mem_cons]
  exact ⟨⟨_, rfl, rfl⟩, ⟨_, rfl, rfl⟩, nofun⟩

/-- `foo_%[4294967297]` is the name `FOO_1`. -/
theorem not_indexedName_foo :
    ¬ ∀ (env : Env) (fmtBuf varBuf : Buffer (varSize + 1))
      (elemGetArg : Elem → Except Stop (CString × ArgType)) (text : Elem → CString)
      (a : ArrayName) (first : Elem) (rest : List Elem),
      a.name.count '%' = rest.length + 1 →
      (∀ index ∈ first :: rest, ∃ t, elemGetArg index = .ok (text index, t) ∧ t.num = true) →
        Right a.name ((first :: rest).map text)
          ((elemGetSetNameType env fmtBuf varBuf elemGetArg (indexed a.name first rest)).map Prod.fst) := by
  intro h
  have hret : (elemGetSetNameType oneNumeric blank blank
      (fun index => (Script.elemGetArg oneNumeric index).mapError .fatal)
      (indexed foo.name (.num "4294967297".toList) [])).map Prod.fst = .ok "FOO_1".toList := by
    decide +kernel
  have hright := h oneNumeric blank blank (fun index => (Script.elemGetArg oneNumeric index).mapError .fatal)
    numText foo (.num "4294967297".toList) [] (by decide) (by
      rw [List.forall_mem_singleton]
      exact ⟨_, rfl, rfl⟩)
  rw [hret] at hright
  obtain ⟨values, hvalues, hfill⟩ := hright
  have hnumber : [numberOf "4294967297".toList] = [(4294967297 : ℤ)].map some := by decide
  obtain rfl : [(4294967297 : ℤ)] = values :=
    List.map_injective_iff.mpr (Option.some_injective ℤ) (hnumber.symm.trans hvalues)
  revert hfill
  decide +kernel

end IndexedNames
end Script
end Mkfli4l
