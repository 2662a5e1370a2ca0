import Mkfli4l.Lib.Layout

/-!
# Line ends

An entry of the archive list may ask for the line ends of UNIX or of DOS (`dtou` and `utod` in
`archive/archive.c`).  Both conversions hold carriage returns back until a byte tells whether they
belong to the end of a line, and all they keep of them is their number, an `int`.

Carriage returns that are still held back at the end of the file are lost.  Without these, the two
conversions replace the line ends and nothing else, however many carriage returns a line end has.
-/

namespace Mkfli4l
namespace Archive

open Lib

/-- A carriage return. -/
def cr : UInt8 := 13

/-- A line feed. -/
def lf : UInt8 := 10

/-- The loop of `dtou` and of `utod`, which differ in what they write at the end of a line.  `none`
means that the counter overflows. -/
def convert (eol : Bytes) : ℕ → Bytes → Option Bytes
  | _, [] => some []
  | cnt, c :: input =>
      if c = cr then
        -- don't copy multiple CRs at end of line
        if cnt = 2147483647 then none else convert eol (cnt + 1) input
      else if c = lf then (convert eol 0 input).map fun out => eol ++ out
      else (convert eol 0 input).map fun out => List.replicate cnt cr ++ c :: out

def dtou (input : Bytes) : Option Bytes := convert [lf] 0 input

def utod (input : Bytes) : Option Bytes := convert [cr, lf] 0 input

/-! ### Texts and their lines -/

/-- A line with its end, a block `CR*LF`.  The block is as large as possible, so that the text of the
line does not end in a carriage return. -/
structure Line where
  text : Bytes
  crs : ℕ
  noLf : lf ∉ text
  maximal : text.getLast? ≠ some cr

/-- The bytes of a line. -/
def Line.source (l : Line) : Bytes := l.text ++ (List.replicate l.crs cr ++ [lf])

/-- The line with another end. -/
def Line.withEnd (eol : Bytes) (l : Line) : Bytes := l.text ++ eol

/-- A text: its lines, and what stands behind the last line end. -/
structure LineText where
  lines : List Line
  last : Bytes
  noLf : lf ∉ last

/-- The bytes of a text. -/
def LineText.source (t : LineText) : Bytes := t.lines.flatMap Line.source ++ t.last

/-- The text with other line ends. -/
def LineText.withEnds (eol : Bytes) (t : LineText) : Bytes := t.lines.flatMap (Line.withEnd eol) ++ t.last

/-- Each maximal block `CR*LF` of `x` is replaced by `eol`, and no other byte is changed. -/
def ReplacesEnds (eol x y : Bytes) : Prop := ∃ t : LineText, t.source = x ∧ y = t.withEnds eol

theorem LineText.exists_cons (t : LineText) (c : UInt8) : ∃ t' : LineText, t'.source = c :: t.source := by
  obtain ⟨lines, last, hlast⟩ := t
  cases lines with
  | nil =>
      by_cases hc : c = lf
      · subst hc
        exact ⟨⟨[⟨[], 0, List.not_mem_nil, nofun⟩], last, hlast⟩, rfl⟩
      · refine ⟨⟨[], c :: last, ?_⟩, rfl⟩
        intro hmem
        rcases List.mem_cons.mp hmem with heq | hmem
        · exact hc heq.symm
        · exact hlast hmem
  | cons l lines =>
      by_cases hc : c = lf
      · subst hc
        exact ⟨⟨⟨[], 0, List.not_mem_nil, nofun⟩ :: l :: lines, last, hlast⟩, rfl⟩
      · obtain ⟨text, crs, hnoLf, hmaximal⟩ := l
        cases text with
        | nil =>
            by_cases hcr : c = cr
            · -- one more carriage return in front of an empty line
              subst hcr
              exact ⟨⟨⟨[], crs + 1, hnoLf, hmaximal⟩ :: lines, last, hlast⟩, rfl⟩
            · refine ⟨⟨⟨[c], crs, ?_, ?_⟩ :: lines, last, hlast⟩, rfl⟩
              · simpa using fun heq : lf = c => hc heq.symm
              · simpa using hcr
        | cons d text =>
            refine ⟨⟨⟨c :: d :: text, crs, ?_, ?_⟩ :: lines, last, hlast⟩, rfl⟩
            · intro hmem
              rcases List.mem_cons.mp hmem with heq | hmem
              · exact hc heq.symm
              · exact hnoLf hmem
            · rw [List.getLast?_cons_cons]
              exact hmaximal

theorem LineText.exists_source (x : Bytes) : ∃ t : LineText, t.source = x := by
  induction x with
  | nil => exact ⟨⟨[], [], List.not_mem_nil⟩, rfl⟩
  | cons c x ih =>
      obtain ⟨t, ht⟩ := ih
      obtain ⟨t', ht'⟩ := t.exists_cons c
      exact ⟨t', ht'.trans (by rw [ht])⟩

/-! ### What is held back -/

/-- The number of carriage returns in a row always fits into an `int`. -/
def runsFit : ℕ → Bytes → Prop
  | _, [] => True
  | cnt, c :: input => if c = cr then cnt < 2147483647 ∧ runsFit (cnt + 1) input else runsFit 0 input

variable {eol x y text : Bytes} {cnt k : ℕ} {c : UInt8}

theorem convert_append (hnoLf : lf ∉ text) (hmaximal : text.getLast? ≠ some cr) (hne : text ≠ [])
    (hfit : runsFit cnt text) (rest : Bytes) :
    convert eol cnt (text ++ rest) =
      (convert eol 0 rest).map fun out => List.replicate cnt cr ++ text ++ out := by
  induction text generalizing cnt with
  | nil => exact absurd rfl hne
  | cons c text ih =>
      have hlf : c ≠ lf := fun heq => hnoLf (heq ▸ List.mem_cons_self)
      have hnoLf' : lf ∉ text := fun hmem => hnoLf (List.mem_cons_of_mem c hmem)
      rw [List.cons_append, convert]
      rw [runsFit] at hfit
      by_cases hcr : c = cr
      · subst hcr
        rw [if_pos rfl] at hfit ⊢
        cases text with
        | nil => exact absurd rfl hmaximal
        | cons d text =>
            rw [List.getLast?_cons_cons] at hmaximal
            rw [if_neg (Nat.ne_of_lt hfit.1), ih hnoLf' hmaximal (List.cons_ne_nil d text) hfit.2]
            congr 1
            funext out
            simp [List.replicate_succ']
      · rw [if_neg hcr] at hfit ⊢
        rw [if_neg hlf]
        cases text with
        | nil => simp
        | cons d text =>
            rw [List.getLast?_cons_cons] at hmaximal
            rw [ih hnoLf' hmaximal (List.cons_ne_nil d text) hfit, Option.map_map]
            congr 1
            funext out
            simp

theorem convert_replicate (hfit : cnt + k ≤ 2147483647) (rest : Bytes) :
    convert eol cnt (List.replicate k cr ++ rest) = convert eol (cnt + k) rest := by
  induction k generalizing cnt with
  | zero => rfl
  | succ k ih =>
      rw [List.replicate_succ, List.cons_append, convert, if_pos rfl, if_neg (by omega),
        ih (by omega), Nat.add_right_comm, Nat.add_assoc]

theorem convert_line (l : Line) (hfit : runsFit 0 l.text) (hcrs : l.crs ≤ 2147483647) (rest : Bytes) :
    convert eol 0 (l.source ++ rest) = (convert eol 0 rest).map fun out => l.withEnd eol ++ out := by
  have hend : convert eol 0 (List.replicate l.crs cr ++ lf :: rest) =
      (convert eol 0 rest).map fun out => eol ++ out := by
    rw [convert_replicate (by omega), convert, if_neg (by decide), if_pos rfl]
  have hsource : l.source ++ rest = l.text ++ (List.replicate l.crs cr ++ lf :: rest) := by
    simp [Line.source]
  rw [hsource]
  by_cases hne : l.text = []
  · rw [hne, List.nil_append, hend]
    simp [Line.withEnd, hne]
  · rw [convert_append l.noLf l.maximal hne hfit, hend, Option.map_map]
    congr 1
    funext out
    simp [Line.withEnd]

theorem convert_last (hnoLf : lf ∉ text) (hmaximal : text.getLast? ≠ some cr) (hfit : runsFit 0 text) :
    convert eol 0 text = some text := by
  by_cases hne : text = []
  · rw [hne, convert]
  · have hcopy : convert eol 0 (text ++ []) = _ := convert_append hnoLf hmaximal hne hfit []
    rw [List.append_nil] at hcopy
    rw [hcopy, convert]
    simp

/-- In no part of the text there are too many carriage returns in a row. -/
structure LineText.Fits (t : LineText) : Prop where
  texts : ∀ l ∈ t.lines, runsFit 0 l.text
  ends : ∀ l ∈ t.lines, l.crs ≤ 2147483647
  last : runsFit 0 t.last

theorem LineText.convert_source (t : LineText) (hfits : t.Fits) (hlast : t.last.getLast? ≠ some cr) :
    convert eol 0 t.source = some (t.withEnds eol) := by
  obtain ⟨lines, last, hnoLf⟩ := t
  induction lines with
  | nil => exact convert_last hnoLf hlast hfits.last
  | cons l lines ih =>
      have hrest := ih ⟨fun l' hl' => hfits.texts l' (List.mem_cons_of_mem l hl'),
        fun l' hl' => hfits.ends l' (List.mem_cons_of_mem l hl'), hfits.last⟩ hlast
      have hsource : LineText.source ⟨l :: lines, last, hnoLf⟩ =
          l.source ++ LineText.source ⟨lines, last, hnoLf⟩ := by
        simp [LineText.source]
      rw [hsource, convert_line l (hfits.texts l List.mem_cons_self) (hfits.ends l List.mem_cons_self), hrest]
      simp [LineText.withEnds]

/-! ### When the conversions fail -/

theorem convert_isSome_iff (hcnt : cnt ≤ 2147483647) :
    (convert eol cnt x).isSome = true ↔ runsFit cnt x := by
  induction x generalizing cnt with
  | nil => simp [convert, runsFit]
  | cons c x ih =>
      rw [convert, runsFit]
      by_cases hcr : c = cr
      · rw [if_pos hcr, if_pos hcr]
        by_cases hmax : cnt = 2147483647
        · rw [if_pos hmax]
          simp [hmax]
        · rw [if_neg hmax, ih (by omega)]
          exact ⟨fun h => ⟨by omega, h⟩, fun h => h.2⟩
      · rw [if_neg hcr, if_neg hcr]
        split
        · rw [Option.isSome_map, ih (Nat.zero_le _)]
        · rw [Option.isSome_map, ih (Nat.zero_le _)]

theorem convert_getLast? (heol : eol.getLast? = some lf) (h : convert eol cnt x = some y) :
    y.getLast? ≠ some cr := by
  induction x generalizing cnt y with
  | nil =>
      obtain rfl := Option.some.inj h
      exact nofun
  | cons c x ih =>
      rw [convert] at h
      have hdiffer : some lf ≠ some cr := by decide
      split at h
      · split at h
        · contradiction
        · exact ih h
      · next hcr =>
          split at h
          · obtain ⟨out, hout, rfl⟩ := Option.map_eq_some_iff.mp h
            rw [List.getLast?_append, heol]
            cases hlast : out.getLast? with
            | none => exact hdiffer
            | some d => simpa [hlast] using ih hout
          · obtain ⟨out, hout, rfl⟩ := Option.map_eq_some_iff.mp h
            rw [List.getLast?_append, List.getLast?_cons]
            cases hlast : out.getLast? with
            | none => simpa using hcr
            | some d => simpa [hlast] using ih hout

theorem replicate_infix_append_cons {α : Type} {a b : α} (hne : b ≠ a) {l r : List α}
    (h : List.replicate k a <:+: l ++ b :: r) :
    List.replicate k a <:+: l ∨ List.replicate k a <:+: r := by
  obtain ⟨front, back, heq⟩ := h
  have hnot : ∀ u w, List.replicate k a ≠ u ++ b :: w := by
    intro u w hsplit
    have hmem : b ∈ List.replicate k a := by
      rw [hsplit]
      simp
    exact hne (List.eq_of_mem_replicate hmem)
  rcases List.append_eq_append_iff.mp heq with ⟨u, hl, -⟩ | ⟨u, hu, hback⟩
  · exact .inl ⟨front, u, hl.symm⟩
  · cases u with
    | nil =>
        rw [List.append_nil] at hu
        exact .inl ⟨front, [], by rw [List.append_nil, hu]⟩
    | cons d u =>
        obtain ⟨rfl, rfl⟩ := List.cons.inj hback
        rcases List.append_eq_append_iff.mp hu with ⟨w, hl, hrun⟩ | ⟨w, -, hrun⟩
        · exact absurd hrun (hnot w u)
        · cases w with
          | nil => exact absurd hrun.symm (hnot [] u)
          | cons d w =>
              obtain ⟨rfl, rfl⟩ := List.cons.inj hrun
              exact .inr ⟨w, back, rfl⟩

theorem runsFit_iff (hcnt : cnt ≤ 2147483647) :
    runsFit cnt x ↔ ∀ k, List.replicate k cr <:+: List.replicate cnt cr ++ x → k ≤ 2147483647 := by
  induction x generalizing cnt with
  | nil =>
      refine ⟨fun _ k hk => ?_, fun _ => trivial⟩
      have hle := hk.length_le
      rw [List.append_nil, List.length_replicate, List.length_replicate] at hle
      omega
  | cons c x ih =>
      rw [runsFit]
      by_cases hcr : c = cr
      · subst hcr
        have hone : List.replicate cnt cr ++ cr :: x = List.replicate (cnt + 1) cr ++ x := by
          simp [List.replicate_succ']
        rw [if_pos rfl, hone]
        by_cases hmax : cnt < 2147483647
        · rw [ih hmax]
          exact ⟨fun h => h.2, fun h => ⟨hmax, h⟩⟩
        · refine ⟨fun h => absurd h.1 hmax, fun h => ?_⟩
          have hle := h (cnt + 1) List.infix_append_left
          omega
      · rw [if_neg hcr, ih (Nat.zero_le _)]
        constructor
        · intro h k hk
          rcases replicate_infix_append_cons hcr hk with hk | hk
          · have hle := hk.length_le
            rw [List.length_replicate, List.length_replicate] at hle
            omega
          · exact h k hk
        · intro h k hk
          have hrest : x <:+: List.replicate cnt cr ++ c :: x :=
            (List.suffix_cons c x).isInfix.trans List.infix_append_right
          exact h k (hk.trans hrest)

/-! ### Fitting texts -/

theorem runsFit_append_lf (rest : Bytes) :
    runsFit cnt (text ++ lf :: rest) ↔ runsFit cnt text ∧ runsFit 0 rest := by
  induction text generalizing cnt with
  | nil =>
      have hlf : lf ≠ cr := by decide
      simp [runsFit, hlf]
  | cons c text ih =>
      rw [List.cons_append, runsFit, runsFit]
      split
      · rw [ih, and_assoc]
      · exact ih

theorem runsFit_append_replicate (hmaximal : text.getLast? ≠ some cr) :
    runsFit 0 (text ++ List.replicate k cr) ↔ runsFit 0 text ∧ k ≤ 2147483647 := by
  have hcount : ∀ cnt ≤ 2147483647, runsFit cnt (List.replicate k cr) ↔ cnt + k ≤ 2147483647 := by
    induction k with
    | zero => exact fun cnt hcnt => ⟨fun _ => hcnt, fun _ => trivial⟩
    | succ k ih =>
        intro cnt hcnt
        rw [List.replicate_succ, runsFit, if_pos rfl]
        by_cases hmax : cnt < 2147483647
        · rw [ih (cnt + 1) hmax]
          omega
        · omega
  have hnonempty : ∀ cnt, text ≠ [] →
      (runsFit cnt (text ++ List.replicate k cr) ↔ runsFit cnt text ∧ k ≤ 2147483647) := by
    induction text with
    | nil => exact fun _ hne => absurd rfl hne
    | cons c text ih =>
        intro cnt _
        rw [List.cons_append, runsFit, runsFit]
        cases text with
        | nil =>
            have hcr : c ≠ cr := by simpa using hmaximal
            rw [if_neg hcr, if_neg hcr, List.nil_append, hcount 0 (Nat.zero_le _), Nat.zero_add]
            exact ⟨fun h => ⟨trivial, h⟩, fun h => h.2⟩
        | cons d text =>
            rw [List.getLast?_cons_cons] at hmaximal
            split
            · rw [ih hmaximal _ (List.cons_ne_nil d text), and_assoc]
            · exact ih hmaximal _ (List.cons_ne_nil d text)
  by_cases hne : text = []
  · rw [hne, List.nil_append, hcount 0 (Nat.zero_le _), Nat.zero_add]
    exact ⟨fun h => ⟨trivial, h⟩, fun h => h.2⟩
  · exact hnonempty 0 hne

theorem LineText.fits_iff (t : LineText) : t.Fits ↔ runsFit 0 t.source := by
  obtain ⟨lines, last, hnoLf⟩ := t
  induction lines with
  | nil =>
      refine ⟨fun h => h.last, fun h => ⟨nofun, nofun, h⟩⟩
  | cons l lines ih =>
      have hsource : LineText.source ⟨l :: lines, last, hnoLf⟩ =
          (l.text ++ List.replicate l.crs cr) ++ lf :: LineText.source ⟨lines, last, hnoLf⟩ := by
        simp [LineText.source, Line.source]
      rw [hsource, runsFit_append_lf, runsFit_append_replicate l.maximal, ← ih]
      constructor
      · intro h
        exact ⟨⟨h.texts l List.mem_cons_self, h.ends l List.mem_cons_self⟩,
          fun l' hl' => h.texts l' (List.mem_cons_of_mem l hl'),
          fun l' hl' => h.ends l' (List.mem_cons_of_mem l hl'), h.last⟩
      · rintro ⟨⟨htext, hcrs⟩, htexts, hends, hlast⟩
        exact ⟨List.forall_mem_cons.mpr ⟨htext, htexts⟩, List.forall_mem_cons.mpr ⟨hcrs, hends⟩, hlast⟩

/-- The text with the same number of carriage returns in all line ends. -/
def LineText.withCrs (k : ℕ) (t : LineText) : LineText :=
  ⟨t.lines.map fun l => { l with crs := k }, t.last, t.noLf⟩

theorem LineText.source_withCrs (k : ℕ) (t : LineText) :
    (t.withCrs k).source = t.withEnds (List.replicate k cr ++ [lf]) := by
  unfold LineText.source LineText.withEnds LineText.withCrs
  rw [List.flatMap_map]
  rfl

theorem LineText.withEnds_withCrs (k : ℕ) (t : LineText) : (t.withCrs k).withEnds eol = t.withEnds eol := by
  unfold LineText.withEnds LineText.withCrs
  rw [List.flatMap_map]
  rfl

theorem LineText.Fits.withCrs {t : LineText} (h : t.Fits) (hk : k ≤ 2147483647) : (t.withCrs k).Fits where
  texts := by
    intro l hl
    obtain ⟨l', hl', rfl⟩ := List.mem_map.mp hl
    exact h.texts l' hl'
  ends := by
    intro l hl
    obtain ⟨l', -, rfl⟩ := List.mem_map.mp hl
    exact hk
  last := h.last

theorem LineText.getLast?_source (t : LineText) : t.source.getLast? = some cr ↔ t.last.getLast? = some cr := by
  unfold LineText.source
  rw [List.getLast?_append]
  cases hlast : t.last.getLast? with
  | some c => simp
  | none =>
      have hdiffer : lf ≠ cr := by decide
      rcases List.eq_nil_or_concat t.lines with hnil | ⟨lines, l, hlines⟩
      · simp [hnil]
      · simp [hlines, Line.source, hdiffer]

theorem LineText.getLast?_withEnds {t : LineText} (hlast : t.last.getLast? = some cr) :
    (t.withEnds eol).getLast? = some cr := by
  unfold LineText.withEnds
  rw [List.getLast?_append, hlast]
  rfl

/-- The two conversions replace the line ends of UNIX and of DOS and nothing else, and each of them has
the same effect behind the other one and behind itself. -/
structure ConvertsExactly (x : Bytes) : Prop where
  replaces : ∃ u d, dtou x = some u ∧ utod x = some d ∧ ReplacesEnds [lf] x u ∧
    ReplacesEnds [cr, lf] x d ∧ dtou d = some u ∧ utod u = some d ∧ dtou u = some u ∧ utod d = some d

/-- The conversions are exact if and only if the file does not end in a carriage return and has no more
of them in a row than an `int` can count. -/
theorem convertsExactly_iff (x : Bytes) : ConvertsExactly x ↔
    x.getLast? ≠ some cr ∧ ∀ k, List.replicate k cr <:+: x → k ≤ 2147483647 := by
  constructor
  · rintro ⟨u, d, hu, -, ⟨t, rfl, ht⟩, -⟩
    constructor
    · intro hlast
      have hend : (t.withEnds [lf]).getLast? = some cr :=
        LineText.getLast?_withEnds (t.getLast?_source.mp hlast)
      exact convert_getLast? rfl hu (ht ▸ hend)
    · have hsome : (convert [lf] 0 t.source).isSome = true := by
        rw [show convert [lf] 0 t.source = some u from hu]
        rfl
      exact (runsFit_iff (Nat.zero_le _)).mp ((convert_isSome_iff (Nat.zero_le _)).mp hsome)
  · rintro ⟨hlast, hruns⟩
    obtain ⟨t, rfl⟩ := LineText.exists_source x
    have hfits := t.fits_iff.mpr ((runsFit_iff (Nat.zero_le _)).mpr hruns)
    have hend : t.last.getLast? ≠ some cr := fun h => hlast (t.getLast?_source.mpr h)
    -- both results are again texts, with one and the same number of carriage returns everywhere
    have hunix : t.withEnds [lf] = (t.withCrs 0).source := (t.source_withCrs 0).symm
    have hdos : t.withEnds [cr, lf] = (t.withCrs 1).source := (t.source_withCrs 1).symm
    have hagain : ∀ k ≤ 2147483647, ∀ eol,
        convert eol 0 (t.withCrs k).source = some (t.withEnds eol) := by
      intro k hk eol
      rw [(t.withCrs k).convert_source (hfits.withCrs hk) hend, LineText.withEnds_withCrs]
    refine ⟨t.withEnds [lf], t.withEnds [cr, lf], t.convert_source hfits hend, t.convert_source hfits hend,
      ⟨t, rfl, rfl⟩, ⟨t, rfl, rfl⟩, ?_, ?_, ?_, ?_⟩
    · rw [hdos]
      exact hagain 1 (by decide) [lf]
    · rw [hunix]
      exact hagain 0 (by decide) [cr, lf]
    · conv_lhs => rw [hunix]
      exact hagain 0 (by decide) [lf]
    · conv_lhs => rw [hdos]
      exact hagain 1 (by decide) [cr, lf]

/-- The carriage return at the end of `a\r` is lost. -/
theorem dtou_loses_last : dtou [97, cr] = some [97] ∧ ¬ ConvertsExactly [97, cr] := by
  constructor
  · decide
  · rintro ⟨u, d, hu, -, ⟨t, hsource, ht⟩, -⟩
    have hlast : (t.withEnds [lf]).getLast? = some cr := by
      apply LineText.getLast?_withEnds
      rw [← t.getLast?_source, hsource]
      rfl
    have hcut : dtou [97, cr] = some [97] := by decide
    rw [hcut] at hu
    rw [← ht, ← Option.some.inj hu] at hlast
    exact absurd hlast (by decide)

end Archive
end Mkfli4l
