import Mkfli4l.Lib.Runs
import Mkfli4l.Script.Environment

/-!
# Submatches

The groups of a regular expression that `=~` stores in `MATCH_%` and `fgrep` in `FGREP_MATCH_%`
(`libmkfli4l/regex.c`, `libmkfli4l/parse.c`).  `regexp_user` copies the offsets up to the first group
that takes no part in the match and marks everything behind it as unused; both statements stop there.
A group that takes part behind one that does not is therefore lost.
-/

namespace Mkfli4l

open Lib

/-! ### The offsets that are copied -/

theorem copyMatches_takeWhile (n : ℕ) (groups : List Regmatch) :
    (copyMatches n (groups ++ [.none])).takeWhile Regmatch.participates =
      (groups.take n).takeWhile Regmatch.participates := by
  have hunused : Regmatch.none.participates = false := rfl
  have hpad : ∀ k : ℕ, (List.replicate (k + 1) Regmatch.none).takeWhile Regmatch.participates = [] := by
    intro k
    rw [List.replicate_succ, List.takeWhile_cons, hunused, if_neg Bool.false_ne_true]
  induction n generalizing groups with
  | zero => simp [copyMatches]
  | succ n ih =>
      cases groups with
      | nil =>
          rw [List.nil_append, copyMatches, hunused, if_neg Bool.false_ne_true, hpad]
          rfl
      | cons m groups =>
          rw [List.cons_append, copyMatches, List.take_succ_cons]
          cases hm : m.participates with
          | true => rw [if_pos rfl, List.takeWhile_cons, List.takeWhile_cons, hm, ih]
          | false => rw [if_neg Bool.false_ne_true, hpad, List.takeWhile_cons, hm]; rfl

section regexp

variable {E : ScriptEnv} {value expr : CString} {groups : List Regmatch}

theorem regexpUser_matched (h : E.regexec expr value = .matched groups) (nmatch : ℕ) :
    regexpUser E value expr nmatch = .matched (copyMatches nmatch (groups ++ [.none])) := by
  simp only [regexpUser, vartypeMatchExt, h]

theorem regexpUser_notMatched (h : E.regexec expr value = .notMatched) (nmatch : ℕ) :
    regexpUser E value expr nmatch = .notMatched := by
  simp only [regexpUser, vartypeMatchExt, h]

theorem copied_groups (h : E.regexec expr value = .matched groups) (n : ℕ) :
    ((copyMatches (n + 1) (groups ++ [.none])).drop 1).takeWhile Regmatch.participates =
      ((groups.drop 1).take n).takeWhile Regmatch.participates := by
  obtain ⟨⟨whole, rest, rfl, hwhole⟩, -⟩ := E.posix expr value groups h
  rw [List.cons_append, copyMatches, if_pos hwhole, List.drop_one, List.tail_cons, List.drop_one,
    List.tail_cons, copyMatches_takeWhile]

theorem Regmatch.cutOut_eq (h : E.regexec expr value = .matched groups) {m : Regmatch} (hm : m ∈ groups)
    (hparticipates : m.participates = true) : m.cutOut value = m.text value := by
  obtain ⟨hso, heo, -⟩ := (E.posix expr value groups h).2 m hm hparticipates
  have hlen : (m.eo - m.so).toNat = m.eo.toNat - m.so.toNat := by omega
  rw [Regmatch.cutOut, Regmatch.text, hlen, List.drop_take]

end regexp

/-! ### The operator `=~` -/

/-- The groups that there is room for, without the whole match. -/
def numberedGroups (groups : List Regmatch) : List Regmatch := (groups.drop 1).take (pmaxMatch - 1)

/-- No group takes part in a match behind one that does not. -/
def Gapless (groups : List Regmatch) : Prop :=
  groups.Pairwise fun m m' => m'.participates = true → m.participates = true

instance (groups : List Regmatch) : Decidable (Gapless groups) :=
  inferInstanceAs (Decidable (groups.Pairwise fun m m' => m'.participates = true → m.participates = true))

/-- For every group that takes part in the match, there is an element that reads as its text, and the
bound covers it. -/
def GroupsRead (E : ScriptEnv) (name bound : CString) (groups : List Regmatch) (value : CString)
    (st : Store) : Prop :=
  ∃ v b n, st.graph.tryGetMember name = some (.var name v) ∧
    st.graph.tryGetMember bound = some (.var bound b) ∧
    BoundReads (E.defs st.graph) (E.callees st.graph) b n st.slots ∧
    ∀ i m, (numberedGroups groups)[i]? = some m → m.participates = true →
      i < n ∧ ReadsText (E.defs st.graph) (E.callees st.graph) ⟨v, [UInt32.ofNat i]⟩ (m.text value) st.slots

/-- The condition under which `=~` keeps all groups: there is no gap between them, and their texts are
of the type of the array. -/
structure GroupsKept (E : ScriptEnv) (type : VarTypeId) (groups : List Regmatch) (value : CString) : Prop where
  gapless : Gapless (numberedGroups groups)
  conform : ∀ m ∈ numberedGroups groups, m.participates = true →
    E.types.vartypeMatch type (m.text value) = true

section strmatch

variable {E : ScriptEnv} {name bound : CString} {st st' : Store} {value expr : CString}
  {groups : List Regmatch} {type : VarTypeId} {v b : VarId}

/-- The texts that `=~` stores. -/
def storedTexts (groups : List Regmatch) (value : CString) : List CString :=
  ((numberedGroups groups).takeWhile Regmatch.participates).map fun m => m.text value

theorem storedTexts_length_le (groups : List Regmatch) (value : CString) :
    (storedTexts groups value).length ≤ 19 := by
  rw [storedTexts, List.length_map]
  refine (List.takeWhile_sublist _).length_le.trans ?_
  exact List.length_take_le _ _

theorem strStrmatch_eq (hname : ArrayName matchSetVar bound) (h : ScriptArray E matchSetVar bound st)
    (hregexec : E.regexec expr value = .matched groups) :
    ∃ (v b : VarId) (st₁ : Store) (s : Slots),
      st₁.Declared E matchSetVar bound (E.typeAfter st.graph matchSetVar false false) v b ∧
      strStrmatch E value expr st = .ok (true, ⟨st₁.graph, s⟩) ∧
      s.HoldsTexts (E.defs st₁.graph) v b
        (scriptVar matchSetVar (E.typeAfter st.graph matchSetVar false false) b) (storedTexts groups value) := by
  have hspelling : matchSetVar.map Char.toUpper = matchSetVar := by decide
  obtain ⟨v, b, st₁, hdeclare, hdeclared⟩ :=
    checkAddWeakDeclaration_declared hname h hspelling false false
  have hfirst : (0 : UInt32).toNat = ([] : List CString).length := rfl
  have hroom : ([] : List CString).length + (storedTexts groups value).length < 4294967296 := by
    have hle := storedTexts_length_le groups value
    rw [List.length_nil]
    omega
  obtain ⟨s, hwrites, hholds⟩ :=
    writeElements_holds hdeclared.transient E.room hdeclared.holdsTexts hfirst hroom
  have hslots : onSlots E (fun D callees => writeElements D callees v 0 (storedTexts groups value)) st₁ =
      .ok ((), ⟨st₁.graph, s⟩) := onSlots_ok hwrites
  have hcopied : (((copyMatches pmaxMatch (groups ++ [.none])).drop 1).takeWhile
      Regmatch.participates).map (fun m => m.text value) = storedTexts groups value := by
    rw [storedTexts, numberedGroups]
    exact congrArg _ (copied_groups hregexec 19)
  refine ⟨v, b, st₁, s, hdeclared, ?_, hholds⟩
  unfold strStrmatch
  rw [Exec.bind_of_ok hdeclare]
  simp only [regexpUser_matched hregexec, hcopied]
  rw [Exec.bind_of_ok hslots]
  rfl

theorem strStrmatch_iff (hname : ArrayName matchSetVar bound) (h : ScriptArray E matchSetVar bound st)
    (hregexec : E.regexec expr value = .matched groups) :
    (∃ st', strStrmatch E value expr st = .ok (true, st') ∧
      GroupsRead E matchSetVar bound groups value st') ↔
      GroupsKept E (E.typeAfter st.graph matchSetVar false false) groups value := by
  obtain ⟨v, b, st₁, s, hdeclared, hrun, hholds⟩ := strStrmatch_eq hname h hregexec
  have hlen := storedTexts_length_le groups value
  have hindex : ∀ i, i < 4294967296 → (UInt32.ofNat i).toNat = i := fun i hi =>
    UInt32.toNat_ofNat_of_lt' (by unfold UInt32.size; omega)
  have hnumbered : ∀ i m, (numberedGroups groups)[i]? = some m → i < 19 := by
    intro i m hi
    have hlt := (List.getElem?_eq_some_iff.mp hi).1
    have hle : (numberedGroups groups).length ≤ 19 := List.length_take_le _ _
    omega
  -- what is read for an element that has been written
  have hreads : ∀ i m, ((numberedGroups groups).takeWhile Regmatch.participates)[i]? = some m → i < 19 →
      ∀ text, ReadsText (E.defs st₁.graph) (E.callees st₁.graph) ⟨v, [UInt32.ofNat i]⟩ text s ↔
        text = m.text value ∧
          E.types.vartypeMatch (E.typeAfter st.graph matchSetVar false false) (m.text value) = true := by
    intro i m hi hsmall text
    have hstored : (storedTexts groups value)[(UInt32.ofNat i).toNat]? = some (m.text value) := by
      rw [hindex i (by omega), storedTexts, List.getElem?_map, hi]
      rfl
    have hread := hholds.reads hdeclared.transient hstored (by rw [hindex i (by omega)]; omega) E.room text
    rw [E.defs_types] at hread
    exact hread
  constructor
  · rintro ⟨st', hrun', hall⟩
    rw [hrun] at hrun'
    obtain ⟨-, rfl⟩ := Prod.mk.inj (Except.ok.inj hrun')
    obtain ⟨v', b', n, hmember, -, -, hgroups⟩ := hall
    obtain rfl : v = v' :=
      (ScopeMember.var.inj (Option.some.inj (hdeclared.defined.member.symm.trans hmember))).2
    have hgapless : Gapless (numberedGroups groups) := by
      refine pairwise_of_getElem?_takeWhile fun i m hi hm => ?_
      by_contra hge
      have hmissing := unreadable_of_numSlots_le (s := s) hdeclared.transient (i := UInt32.ofNat i) (by
        rw [UInt32.le_iff_toNat_le, hholds.numSlots, hindex i (by have := hnumbered i m hi; omega),
          storedTexts, List.length_map]
        exact Nat.not_lt.mp hge) (E.callees st₁.graph)
      exact (hgroups i m hi hm).2.not_unreadable hmissing
    refine ⟨hgapless, fun m hmem hm => ?_⟩
    obtain ⟨i, hi⟩ := List.mem_iff_getElem?.mp hmem
    have hfront := getElem?_takeWhile_of_pairwise hgapless hi hm
    exact ((hreads i m hfront (hnumbered i m hi) _).mp (hgroups i m hi hm).2).2
  · intro hkept
    refine ⟨_, hrun, v, b, _, hdeclared.defined.member, hdeclared.defined.bound.member,
      boundReads_of_holds hdeclared.transient hholds.bound E.room, fun i m hi hm => ?_⟩
    have hfront := getElem?_takeWhile_of_pairwise hkept.gapless hi hm
    have hlt := (List.getElem?_eq_some_iff.mp hfront).1
    refine ⟨?_, (hreads i m hfront (hnumbered i m hi) _).mpr
      ⟨rfl, hkept.conform m (List.mem_of_getElem? hi) hm⟩⟩
    rw [storedTexts, List.length_map] at hlen ⊢
    omega

end strmatch

/-! ### The statement `fgrep` -/

/-- The texts of the groups of a line that there is room for, the whole match included. -/
def lineGroups (E : ScriptEnv) (expr buff : CString) : List Regmatch :=
  match E.regexec expr buff with
  | .matched groups => groups.take pmaxMatch
  | _ => []

/-- The texts that a line contributes: those of all groups that take part in the match. -/
def lineTexts (E : ScriptEnv) (expr buff : CString) : List CString :=
  ((lineGroups E expr buff).filter Regmatch.participates).map fun m => m.text buff

/-- The texts of all lines. -/
def grepTexts (E : ScriptEnv) (expr : CString) (lines : List CString) : List CString :=
  lines.flatMap (lineTexts E expr)

/-- The texts that `fgrep` stores for a line. -/
def storedLineTexts (E : ScriptEnv) (expr buff : CString) : List CString :=
  ((lineGroups E expr buff).takeWhile Regmatch.participates).map fun m => m.text buff

section fgrep

variable {E : ScriptEnv} {bound : CString} {st st' : Store} {expr : CString} {v b : VarId}

theorem writeElements_append (D : Defs) (c : Callees) (v : VarId) (i : UInt32) (xs ys : List CString) :
    writeElements D c v i (xs ++ ys) = (do
      writeElements D c v i xs
      writeElements D c v (i + UInt32.ofNat xs.length) ys) := by
  induction xs generalizing i with
  | nil => simp [writeElements]
  | cons x xs ih =>
      have hnext : i + 1 + UInt32.ofNat xs.length = i + UInt32.ofNat (x :: xs).length := by
        rw [List.length_cons, UInt32.ofNat_add, UInt32.add_assoc, UInt32.add_comm 1]
        rfl
      rw [List.cons_append, writeElements, writeElements, bind_assoc]
      congr 1
      funext _
      rw [ih, hnext]

theorem onSlots_bind {α β : Type} (x : Defs → Callees → SlotExec α) (f : α → Defs → Callees → SlotExec β) :
    (onSlots E fun D c => x D c >>= fun a => f a D c) = onSlots E x >>= fun a => onSlots E (f a) := by
  funext st
  rw [Exec.bind_apply]
  simp only [onSlots, Exec.bind_apply]
  cases x (E.defs st.graph) (E.callees st.graph) st.slots with
  | error fault => rfl
  | ok r => rfl

theorem grepLines_eq (hcompiles : ∀ value, E.regexec expr value ≠ .compileError) (v : VarId) (i : UInt32)
    (lines : List CString) :
    grepLines E v expr i lines =
      onSlots E fun D c => writeElements D c v i (lines.flatMap (storedLineTexts E expr)) := by
  induction lines generalizing i with
  | nil => rfl
  | cons buff lines ih =>
      rw [grepLines, List.flatMap_cons]
      cases hresult : E.regexec expr buff with
      | compileError => exact absurd hresult (hcompiles buff)
      | notMatched =>
          have hnone : storedLineTexts E expr buff = [] := by
            simp only [storedLineTexts, lineGroups, hresult]
            rfl
          simp only [regexpUser_notMatched hresult, hnone, List.nil_append]
          exact ih i
      | matched groups =>
          have htexts : ((copyMatches pmaxMatch (groups ++ [.none])).takeWhile
              Regmatch.participates).map (fun m => m.cutOut buff) = storedLineTexts E expr buff := by
            simp only [storedLineTexts, lineGroups, hresult]
            rw [copyMatches_takeWhile]
            refine List.map_congr_left fun m hm => ?_
            have hfront := (List.takeWhile_sublist _).subset hm
            exact Regmatch.cutOut_eq hresult (List.take_subset _ _ hfront) (List.mem_takeWhile_imp hm)
          simp only [regexpUser_matched hresult, htexts, writeElements_append]
          rw [ih, onSlots_bind]

theorem storedLineTexts_length_le (buff : CString) :
    (storedLineTexts E expr buff).length ≤ (lineTexts E expr buff).length := by
  rw [storedLineTexts, lineTexts, List.length_map, List.length_map]
  exact (takeWhile_sublist_filter _ _).length_le

theorem storedLineTexts_length_eq_iff (buff : CString) :
    (storedLineTexts E expr buff).length = (lineTexts E expr buff).length ↔
      Gapless (lineGroups E expr buff) := by
  rw [storedLineTexts, lineTexts, List.length_map, List.length_map, Gapless, ← takeWhile_eq_filter_iff]
  constructor
  · exact (takeWhile_sublist_filter _ _).eq_of_length
  · intro heq
    rw [heq]

theorem storedLineTexts_eq {buff : CString} (h : Gapless (lineGroups E expr buff)) :
    storedLineTexts E expr buff = lineTexts E expr buff := by
  rw [storedLineTexts, lineTexts, takeWhile_eq_filter_iff.mpr h]

theorem length_eq_of_flatMap_le {α β : Type} {f g : α → List β} (hle : ∀ a, (f a).length ≤ (g a).length)
    {l : List α} (h : (l.flatMap g).length ≤ (l.flatMap f).length) :
    ∀ a ∈ l, (f a).length = (g a).length := by
  induction l with
  | nil => exact fun a ha => absurd ha List.not_mem_nil
  | cons x l ih =>
      have hrest : ∀ l : List α, (l.flatMap f).length ≤ (l.flatMap g).length := by
        intro l
        induction l with
        | nil => exact le_refl _
        | cons y l ih =>
            have hy := hle y
            simp only [List.flatMap_cons, List.length_append]
            omega
      have hx := hle x
      have hl := hrest l
      simp only [List.flatMap_cons, List.length_append] at h
      intro a ha
      rcases List.mem_cons.mp ha with rfl | ha
      · omega
      · exact ih (by omega) a ha

/-- The condition under which `fgrep` keeps all groups: on no line is there a gap between them, the
bound can count their texts, and these are of the type of the array. -/
structure GrepKept (E : ScriptEnv) (type : VarTypeId) (expr : CString) (lines : List CString) : Prop where
  gapless : ∀ buff ∈ lines, Gapless (lineGroups E expr buff)
  few : (grepTexts E expr lines).length ≤ 2147483647
  conform : ∀ text ∈ grepTexts E expr lines, E.types.vartypeMatch type text = true

theorem parseFgrep_iff (hname : ArrayName fgrepSetVar bound) (h : ScriptArray E fgrepSetVar bound st)
    (hcompiles : ∀ value, E.regexec expr value ≠ .compileError) (files : List CString) :
    (∃ st', parseFgrep E files expr st = .ok ((), st') ∧
      ArrayReads E fgrepSetVar bound (grepTexts E expr (files.flatMap readLines)) st') ↔
      GrepKept E (E.typeAfter st.graph fgrepSetVar false false) expr (files.flatMap readLines) := by
  have hspelling : fgrepSetVar.map Char.toUpper = fgrepSetVar := by decide
  obtain ⟨v, b, st₁, hdeclare, hdeclared⟩ :=
    checkAddWeakDeclaration_declared hname h hspelling false false
  have hparse : parseFgrep E files expr st = onSlots E (fun D c => writeElements D c v 0
      ((files.flatMap readLines).flatMap (storedLineTexts E expr))) st₁ := by
    unfold parseFgrep
    rw [Exec.bind_of_ok hdeclare]
    simp only [grepLines_eq hcompiles]
  rw [hparse]
  generalize files.flatMap readLines = lines
  constructor
  · rintro ⟨st', hrun, hreads⟩
    obtain ⟨hexpected, hconform⟩ := hdeclared.of_fill_reads hrun hreads
    have hlength := congrArg List.length hexpected
    rw [List.length_take] at hlength
    refine ⟨fun buff hbuff => ?_, by omega, hconform⟩
    rw [← storedLineTexts_length_eq_iff]
    refine length_eq_of_flatMap_le storedLineTexts_length_le ?_ buff hbuff
    show (grepTexts E expr lines).length ≤ _
    omega
  · intro hkept
    have hstored : lines.flatMap (storedLineTexts E expr) = grepTexts E expr lines :=
      List.flatMap_congr fun buff hbuff => storedLineTexts_eq (hkept.gapless buff hbuff)
    rw [hstored]
    exact hdeclared.fill_reads hkept.few hkept.conform

end fgrep

/-! ### Both of them -/

/-- After any statements on their arrays, a successful `=~` makes all groups readable if and only if
there is no gap between them and their texts are of the type of the array; and `fgrep` appends the
texts of all groups of all lines if and only if this holds on every line and the bound can count them. -/
theorem submatches_kept_iff (E : ScriptEnv) :
    (∀ bound st₀ st value expr groups, ArrayName matchSetVar bound → st₀.Unused E matchSetVar bound →
      StatementRun E matchSetVar st₀ st → E.regexec expr value = .matched groups →
      ((∃ st', strStrmatch E value expr st = .ok (true, st') ∧
          GroupsRead E matchSetVar bound groups value st') ↔
        GroupsKept E (E.typeAfter st.graph matchSetVar false false) groups value)) ∧
    ∀ bound st₀ st files expr, ArrayName fgrepSetVar bound → st₀.Unused E fgrepSetVar bound →
      StatementRun E fgrepSetVar st₀ st → (∀ value, E.regexec expr value ≠ .compileError) →
      ((∃ st', parseFgrep E files expr st = .ok ((), st') ∧
          ArrayReads E fgrepSetVar bound (grepTexts E expr (files.flatMap readLines)) st') ↔
        GrepKept E (E.typeAfter st.graph fgrepSetVar false false) expr (files.flatMap readLines)) := by
  constructor
  · intro bound st₀ st value expr groups hname hunused hrun hregexec
    exact strStrmatch_iff hname (hrun.scriptArray hname hunused.scriptArray) hregexec
  · intro bound st₀ st files expr hname hunused hrun hcompiles
    exact parseFgrep_iff hname (hrun.scriptArray hname hunused.scriptArray) hcompiles files

/-! ### Matching `(a)|(b)` -/

/-- The offsets for `(a)|(b)` and the values `a` and `b`. -/
def alternatives (expr value : CString) : RegexpResult :=
  if expr = "(a)|(b)".toList then
    if value = ['a'] then .matched [⟨0, 1⟩, ⟨0, 1⟩, .none]
    else if value = ['b'] then .matched [⟨0, 1⟩, .none, ⟨0, 1⟩]
    else .notMatched
  else .notMatched

theorem alternatives_posix (expr value : CString) (groups : List Regmatch)
    (h : alternatives expr value = .matched groups) : PosixOffsets value groups := by
  unfold alternatives at h
  split at h
  · split at h
    · next ha =>
        obtain rfl := RegexpResult.matched.inj h
        subst ha
        exact ⟨⟨_, _, rfl, rfl⟩, by decide⟩
    · split at h
      · next hb =>
          obtain rfl := RegexpResult.matched.inj h
          subst hb
          exact ⟨⟨_, _, rfl, rfl⟩, by decide⟩
      · contradiction
  · contradiction

theorem alternatives_compiles (expr value : CString) : alternatives expr value ≠ .compileError := by
  unfold alternatives
  split
  · split
    · exact fun h => nomatch h
    · split
      · exact fun h => nomatch h
      · exact fun h => nomatch h
  · exact fun h => nomatch h

/-- An environment with the regular expression `(a)|(b)`. -/
noncomputable def alternativeScripts : ScriptEnv :=
  .of sampleEnv sampleTypes sampleTypes_bound 1 sampleTypes_anything alternatives alternatives_posix

theorem arrayName_match : ArrayName matchSetVar "MATCH_N".toList where
  valid := by decide
  placeholders := by decide
  computed := by decide
  validBound := by decide

theorem arrayName_fgrep : ArrayName fgrepSetVar "FGREP_MATCH_N".toList where
  valid := by decide
  placeholders := by decide
  computed := by decide
  validBound := by decide

/-- The first alternative is kept, by `=~` and by `fgrep`. -/
theorem submatches_kept_first :
    (∃ st', strStrmatch alternativeScripts ['a'] "(a)|(b)".toList Store.empty = .ok (true, st') ∧
      GroupsRead alternativeScripts matchSetVar "MATCH_N".toList [⟨0, 1⟩, ⟨0, 1⟩, .none] ['a'] st') ∧
    ∃ st', parseFgrep alternativeScripts ["a\n".toList] "(a)|(b)".toList Store.empty = .ok ((), st') ∧
      ArrayReads alternativeScripts fgrepSetVar "FGREP_MATCH_N".toList [['a'], ['a']] st' := by
  obtain ⟨hstrmatch, hfgrep⟩ := submatches_kept_iff alternativeScripts
  have hlines : ["a\n".toList].flatMap readLines = [['a']] := by
    simp [readLines, fgets, chompLine, cutAt, shorten]
  have htexts : grepTexts alternativeScripts "(a)|(b)".toList [['a']] = [['a'], ['a']] := by
    decide
  constructor
  · refine (hstrmatch _ _ _ ['a'] "(a)|(b)".toList _ arrayName_match (unused_empty _ _ _) .refl rfl).mpr
      ⟨by decide, fun m _ _ => rfl⟩
  · have hcompiles : ∀ value, alternativeScripts.regexec "(a)|(b)".toList value ≠ .compileError :=
      alternatives_compiles "(a)|(b)".toList
    have hread := (hfgrep _ _ _ ["a\n".toList] "(a)|(b)".toList arrayName_fgrep (unused_empty _ _ _) .refl
      hcompiles).mpr ?_
    · rwa [hlines, htexts] at hread
    · rw [hlines]
      exact ⟨by decide, by rw [htexts]; decide, fun text _ => rfl⟩

/-- The second alternative is lost: the value `b` matches, but there is no element for the group. -/
theorem strmatch_loses_second :
    alternativeScripts.regexec "(a)|(b)".toList ['b'] = .matched [⟨0, 1⟩, .none, ⟨0, 1⟩] ∧
    (∃ st', strStrmatch alternativeScripts ['b'] "(a)|(b)".toList Store.empty = .ok (true, st')) ∧
    ¬ ∃ st', strStrmatch alternativeScripts ['b'] "(a)|(b)".toList Store.empty = .ok (true, st') ∧
      GroupsRead alternativeScripts matchSetVar "MATCH_N".toList [⟨0, 1⟩, .none, ⟨0, 1⟩] ['b'] st' := by
  have harray := (unused_empty alternativeScripts matchSetVar "MATCH_N".toList).scriptArray
  have hregexec : alternativeScripts.regexec "(a)|(b)".toList ['b'] = .matched [⟨0, 1⟩, .none, ⟨0, 1⟩] := rfl
  refine ⟨hregexec, ?_, fun hread => ?_⟩
  · obtain ⟨v, b, st₁, s, -, hrun, -⟩ := strStrmatch_eq arrayName_match harray hregexec
    exact ⟨_, hrun⟩
  · have hgapless := ((strStrmatch_iff arrayName_match harray hregexec).mp hread).gapless
    exact absurd hgapless (by decide)

end Mkfli4l
