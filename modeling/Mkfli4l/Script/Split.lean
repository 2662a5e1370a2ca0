import Mkfli4l.Lib.Runs
import Mkfli4l.Script.Environment

/-!
# Splitting strings

`split` of check scripts (`libmkfli4l/tree.c`).  For a delimiter other than the blank the fields of a
string are the pieces between the delimiters; for the blank they are the runs of characters that are no
white space.  The loop of `split` looks for white space at the end of a word only, so that white space
in front of the first word delivers an empty text (`splitTexts_blank`).
-/

namespace Mkfli4l

open Lib

/-- The fields of a string. -/
def splitFields (c : Char) (text : CString) : List CString :=
  if c = ' ' then runsOf isSpaceC text else piecesOf (fun a => a == c) text

variable {c : Char} {text : CString}

theorem splitTexts_of_ne_blank (hc : c ≠ ' ') (text : CString) :
    splitTexts c text = splitFields c text := by
  rw [splitFields, if_neg hc]
  induction text using splitTexts.induct c with
  | case1 => rw [splitTexts, piecesOf_nil]
  | case2 a p ih =>
      rw [splitTexts, ih, piecesOf_of_ne_nil (List.cons_ne_nil a p), splitOff, if_neg hc]
      rfl

theorem splitTexts_blank (text : CString) :
    splitTexts ' ' text =
      if text.head?.any isSpaceC then [] :: splitFields ' ' text else splitFields ' ' text := by
  rw [splitFields, if_pos rfl]
  induction text using splitTexts.induct ' ' with
  | case1 => rw [splitTexts, runsOf_nil]; rfl
  | case2 a p ih =>
      -- what is left of the string does not begin with white space
      have hrest : (splitOff ' ' (a :: p)).2.head?.any isSpaceC = false := by
        have hhead := List.head?_dropWhile_not isSpaceC ((a :: p).dropWhile fun a => !isSpaceC a)
        rw [splitOff, if_pos rfl]
        revert hhead
        cases (((a :: p).dropWhile fun a => !isSpaceC a).dropWhile isSpaceC).head? with
        | none => exact fun _ => rfl
        | some d => exact fun hd => hd
      rw [if_neg (by rw [hrest]; exact Bool.false_ne_true)] at ih
      rw [splitTexts, ih, splitOff, if_pos rfl]
      show _ :: runsOf isSpaceC (((a :: p).dropWhile fun a => !isSpaceC a).dropWhile isSpaceC) = _
      rw [runsOf_dropWhile]
      by_cases ha : isSpaceC a = true
      · have hhead : (a :: p).head?.any isSpaceC = true := ha
        rw [if_pos hhead]
        simp [ha]
      · have hhead : ¬ (a :: p).head?.any isSpaceC = true := ha
        rw [if_neg hhead, runsOf_cons_of_not (Bool.eq_false_iff.mpr ha)]

/-- The loop of `split` delivers the fields, unless the string begins with white space while the
delimiter is the blank. -/
def BeginsWithField (c : Char) (text : CString) : Prop :=
  c = ' ' → text.head?.any isSpaceC = false

theorem splitTexts_eq (h : BeginsWithField c text) : splitTexts c text = splitFields c text := by
  by_cases hc : c = ' '
  · subst hc
    rw [splitTexts_blank, if_neg (by rw [h rfl]; exact Bool.false_ne_true)]
  · exact splitTexts_of_ne_blank hc text

theorem splitTexts_take_ne (h : ¬ BeginsWithField c text) (n : ℕ) :
    splitFields c text ≠ (splitTexts c text).take (n + 1) := by
  obtain ⟨rfl, hspace⟩ : c = ' ' ∧ text.head?.any isSpaceC = true := by
    simpa [BeginsWithField] using h
  intro heq
  rw [splitTexts_blank, if_pos hspace, List.take_succ_cons] at heq
  have hmem : [] ∈ splitFields ' ' text := by
    rw [heq]
    exact List.mem_cons_self
  rw [splitFields, if_pos rfl] at hmem
  exact ne_nil_of_mem_runsOf hmem rfl

section statement

variable {E : ScriptEnv} {name bound : CString} {st st' : Store}

variable {spelling : CString}

theorem split_eq (hname : ArrayName name bound) (h : ScriptArray E name bound st)
    (hspelling : spelling.map Char.toUpper = name) (text : CString) (c : Char) :
    ∃ v b st₁, st₁.Declared E name bound E.anything v b ∧
      split E spelling false text c st =
        onSlots E (fun D callees => writeElements D callees v 0 (splitTexts c text)) st₁ := by
  obtain ⟨v, b, st₁, hdeclare, hdeclared⟩ := checkAddWeakDeclaration_declared hname h hspelling false true
  refine ⟨v, b, st₁, hdeclared, ?_⟩
  unfold split
  rw [Exec.bind_of_ok hdeclare]

/-- The condition under which `split` delivers the fields. -/
structure Splittable (c : Char) (text : CString) : Prop where
  begins : BeginsWithField c text
  few : (splitFields c text).length ≤ 2147483647

theorem split_reads (hname : ArrayName name bound) (h : ScriptArray E name bound st)
    (hspelling : spelling.map Char.toUpper = name) (hsplit : Splittable c text) :
    ∃ st', split E spelling false text c st = .ok ((), st') ∧
      ArrayReads E name bound (splitFields c text) st' := by
  obtain ⟨v, b, st₁, hdeclared, heq⟩ := split_eq hname h hspelling text c
  rw [heq, splitTexts_eq hsplit.begins]
  exact hdeclared.fill_reads hsplit.few fun field _ => E.anything_matches field

theorem splittable_of_reads (hname : ArrayName name bound) (h : ScriptArray E name bound st)
    (hspelling : spelling.map Char.toUpper = name)
    (hrun : split E spelling false text c st = .ok ((), st'))
    (hreads : ArrayReads E name bound (splitFields c text) st') : Splittable c text := by
  obtain ⟨v, b, st₁, hdeclared, heq⟩ := split_eq hname h hspelling text c
  rw [heq] at hrun
  obtain ⟨hfields, -⟩ := hdeclared.of_fill_reads hrun hreads
  have hbegins : BeginsWithField c text := by
    by_contra hnot
    exact splitTexts_take_ne hnot 2147483646 hfields
  refine ⟨hbegins, ?_⟩
  rw [hfields]
  exact List.length_take_le _ _

/-- After any statements on an array, `split` fills it with exactly the fields of the string if and only
if no white space is in front of them when the blank separates them, and the bound can count them. -/
theorem split_fills_iff {st₀ : Store} (hname : ArrayName name bound) (hunused : st₀.Unused E name bound)
    (hrun : StatementRun E name st₀ st) {spelling : CString} (hspelling : spelling.map Char.toUpper = name)
    (text : CString) (c : Char) :
    (∃ st', split E spelling false text c st = .ok ((), st') ∧
      ArrayReads E name bound (splitFields c text) st') ↔ Splittable c text := by
  have harray := hrun.scriptArray hname hunused.scriptArray
  constructor
  · rintro ⟨st', hsplit, hreads⟩
    exact splittable_of_reads hname harray hspelling hsplit hreads
  · intro hsplit
    exact split_reads hname harray hspelling hsplit

end statement

/-! ### Splitting on an array that is in use -/

/-- An environment without regular expressions that match. -/
noncomputable def sampleScripts : ScriptEnv :=
  .of sampleEnv sampleTypes sampleTypes_bound 1 sampleTypes_anything (fun _ _ => .notMatched)
    fun _ _ _ h => nomatch h

theorem arrayName_X : ArrayName "X_%".toList "X_N".toList where
  valid := by decide
  placeholders := by decide
  computed := by decide
  validBound := by decide

/-- Splitting `d e` after `a,b,c` leaves two fields. -/
theorem split_fills_X_again :
    ∃ st st', StatementRun sampleScripts "X_%".toList Store.empty st ∧
      split sampleScripts "x_%".toList false "a,b,c".toList ',' Store.empty = .ok ((), st) ∧
      split sampleScripts "x_%".toList false "d e".toList ' ' st = .ok ((), st') ∧
      ArrayReads sampleScripts "X_%".toList "X_N".toList ["d".toList, "e".toList] st' := by
  have hunused := unused_empty sampleScripts "X_%".toList "X_N".toList
  have hspelling : "x_%".toList.map Char.toUpper = "X_%".toList := by decide
  have hsplittable : Splittable ',' "a,b,c".toList := ⟨by simp [BeginsWithField], by decide⟩
  obtain ⟨st, hfirst, -⟩ := split_reads arrayName_X hunused.scriptArray hspelling hsplittable
  have hrun : StatementRun sampleScripts "X_%".toList Store.empty st :=
    .single ⟨.split "x_%".toList false "a,b,c".toList ',', hspelling, hfirst⟩
  obtain ⟨st', hsecond, hreads⟩ :=
    (split_fills_iff arrayName_X hunused hrun hspelling "d e".toList ' ').mpr
      ⟨fun _ => by decide, by decide⟩
  exact ⟨st, st', hrun, hfirst, hsecond, hreads⟩

/-- Splitting ` a` at the blank makes two fields, of which the first one is empty. -/
theorem split_keeps_leading_blank :
    (∃ st', split sampleScripts "x_%".toList false " a".toList ' ' Store.empty = .ok ((), st') ∧
      ArrayReads sampleScripts "X_%".toList "X_N".toList [[], ['a']] st') ∧
    splitFields ' ' " a".toList = [['a']] ∧
    ¬ ∃ st', split sampleScripts "x_%".toList false " a".toList ' ' Store.empty = .ok ((), st') ∧
      ArrayReads sampleScripts "X_%".toList "X_N".toList (splitFields ' ' " a".toList) st' := by
  have harray := (unused_empty sampleScripts "X_%".toList "X_N".toList).scriptArray
  have hspelling : "x_%".toList.map Char.toUpper = "X_%".toList := by decide
  refine ⟨?_, by decide, ?_⟩
  · obtain ⟨v, b, st₁, hdeclared, heq⟩ := split_eq arrayName_X harray hspelling " a".toList ' '
    have htexts : splitTexts ' ' " a".toList = [[], ['a']] := by
      rw [splitTexts_blank]
      decide
    rw [heq, htexts]
    exact hdeclared.fill_reads (by decide) fun field _ => sampleScripts.anything_matches field
  · rintro ⟨st', hsplit, hreads⟩
    have hbegins := (splittable_of_reads arrayName_X harray hspelling hsplit hreads).begins rfl
    exact absurd hbegins (by decide)

end Mkfli4l
