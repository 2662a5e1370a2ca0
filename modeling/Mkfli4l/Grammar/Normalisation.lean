import Mkfli4l.Grammar.Expressions

/-!
# What is left of strings and comments

`qstr_create` and the rules for comments of `varass_scanner.l` rewrite the text that has been scanned.
In a string the carriage returns go, then the escape characters, and at last each run of a line end and
the white space behind it becomes a space; `normalises_iff` says so without the loops.

In a comment the white space is skipped across the line ends, and behind it one character is taken for
the `#` of the line.  If the text of a line is empty, the `#` of the next line is reached while the
white space behind the first one is skipped, and it stays in the comment.
-/

namespace Mkfli4l
namespace Quoting

open Lib

/-- The white space that `concatenate_lines` skips. -/
def isBlank (c : Char) : Bool := c = ' ' || c = '\t' || c = '\x0b' || c = '\n'

/-! ## Strings -/

/-- One level of escape characters is taken away, an escaped line end altogether.  An escape character
at the end of the text escapes nothing. -/
inductive Unescapes : CString → CString → Prop
  | nil : Unescapes [] []
  | plain {c : Char} {s t : CString} (hc : c ≠ '\\') (h : Unescapes s t) : Unescapes (c :: s) (c :: t)
  | escaped {c : Char} {s t : CString} (hc : c ≠ '\n') (h : Unescapes s t) :
      Unescapes ('\\' :: c :: s) (c :: t)
  | lineEnd {s t : CString} (h : Unescapes s t) : Unescapes ('\\' :: '\n' :: s) t
  | last : Unescapes ['\\'] []

/-- Every maximal run of a line end and white space behind it becomes a space. -/
inductive JoinsLines : CString → CString → Prop
  | nil : JoinsLines [] []
  | keep {c : Char} {s t : CString} (hc : c ≠ '\n') (h : JoinsLines s t) : JoinsLines (c :: s) (c :: t)
  | run {blanks s t : CString} (hblanks : ∀ c ∈ blanks, isBlank c = true)
      (hmax : ∀ c ∈ s.head?, isBlank c = false) (h : JoinsLines s t) :
      JoinsLines ('\n' :: (blanks ++ s)) (' ' :: t)

/-- The value of a quoted string with this text. -/
def Normalises (deescape : Bool) (text value : CString) : Prop :=
  ∃ unescaped, (if deescape then Unescapes (text.filter (· != '\r')) unescaped
    else unescaped = text.filter (· != '\r')) ∧ JoinsLines unescaped value

theorem unescapes_both (s : CString) : Unescapes s (removeEscapeCharacters false s) ∧
    Unescapes ('\\' :: s) (removeEscapeCharacters true s) := by
  induction s with
  | nil => exact ⟨.nil, .last⟩
  | cons c s ih =>
      obtain ⟨hplain, hactive⟩ := ih
      constructor
      · by_cases hc : c = '\\'
        · simpa [removeEscapeCharacters, hc] using hactive
        · simpa [removeEscapeCharacters, hc] using Unescapes.plain hc hplain
      · by_cases hc : c = '\n'
        · simpa [removeEscapeCharacters, hc] using Unescapes.lineEnd hplain
        · simpa [removeEscapeCharacters, hc] using Unescapes.escaped hc hplain

theorem Unescapes.eq {s t : CString} (h : Unescapes s t) : removeEscapeCharacters false s = t := by
  induction h with
  | nil => rfl
  | plain hc h ih => simp [removeEscapeCharacters, hc, ih]
  | escaped hc h ih => simp [removeEscapeCharacters, hc, ih]
  | lineEnd h ih => simp [removeEscapeCharacters, ih]
  | last => simp [removeEscapeCharacters]

theorem unescapes_iff (s t : CString) : Unescapes s t ↔ removeEscapeCharacters false s = t := by
  constructor
  · exact Unescapes.eq
  · rintro rfl
    exact (unescapes_both s).1

theorem concatenateLines_blank {c : Char} (hc : isBlank c = true) (s : CString) :
    concatenateLines true (c :: s) = concatenateLines true s := by
  have hcases : c = ' ' ∨ c = '\t' ∨ c = '\x0b' ∨ c = '\n' := by simpa [isBlank, or_assoc] using hc
  rw [concatenateLines, if_pos ⟨rfl, hcases⟩]

theorem concatenateLines_notBlank {c : Char} (hc : isBlank c = false) (eatWs : Bool) (s : CString) :
    concatenateLines eatWs (c :: s) = c :: concatenateLines false s := by
  have hcases : ¬(c = ' ' ∨ c = '\t' ∨ c = '\x0b' ∨ c = '\n') := by
    intro h
    have hblank : isBlank c = true := by simpa [isBlank, or_assoc] using h
    exact absurd (hc.symm.trans hblank) (by decide)
  rw [concatenateLines, if_neg fun h => hcases h.2, if_neg fun h => hcases (.inr (.inr (.inr h)))]

theorem joinsLines_both (s : CString) : JoinsLines s (concatenateLines false s) ∧
    ∃ blanks rest, s = blanks ++ rest ∧ (∀ c ∈ blanks, isBlank c = true) ∧
      (∀ c ∈ rest.head?, isBlank c = false) ∧ JoinsLines rest (concatenateLines true s) := by
  induction s with
  | nil => exact ⟨.nil, [], [], rfl, by simp, by simp, .nil⟩
  | cons c s ih =>
      obtain ⟨hcopy, blanks, rest, hs, hblanks, hmax, hrest⟩ := ih
      have hfalse : JoinsLines (c :: s) (concatenateLines false (c :: s)) := by
        by_cases hc : c = '\n'
        · have hrun : JoinsLines ('\n' :: (blanks ++ rest)) (' ' :: concatenateLines true s) :=
            .run hblanks hmax hrest
          simpa [concatenateLines, hc, hs] using hrun
        · simpa [concatenateLines, hc] using JoinsLines.keep hc hcopy
      refine ⟨hfalse, ?_⟩
      cases hc : isBlank c with
      | true =>
          refine ⟨c :: blanks, rest, by rw [hs, List.cons_append], ?_, hmax, ?_⟩
          · exact List.forall_mem_cons.mpr ⟨hc, hblanks⟩
          · rwa [concatenateLines_blank hc]
      | false =>
          refine ⟨[], c :: s, rfl, by simp, ?_, ?_⟩
          · intro d hd
            obtain rfl : c = d := by simpa using hd
            exact hc
          · rw [concatenateLines_notBlank hc, ← concatenateLines_notBlank hc false]
            exact hfalse

theorem concatenateLines_skip {blanks : CString} (hblanks : ∀ c ∈ blanks, isBlank c = true) (s : CString) :
    concatenateLines true (blanks ++ s) = concatenateLines true s := by
  induction blanks with
  | nil => rfl
  | cons c blanks ih =>
      obtain ⟨hc, hblanks⟩ := List.forall_mem_cons.mp hblanks
      rw [List.cons_append, concatenateLines_blank hc, ih hblanks]

theorem JoinsLines.eq {s t : CString} (h : JoinsLines s t) : concatenateLines false s = t := by
  induction h with
  | nil => rfl
  | keep hc h ih => simp [concatenateLines, hc, ih]
  | @run blanks s t hblanks hmax h ih =>
      have hrest : concatenateLines true s = concatenateLines false s := by
        cases s with
        | nil => rfl
        | cons c s =>
            have hc : isBlank c = false := hmax c rfl
            rw [concatenateLines_notBlank hc, concatenateLines_notBlank hc]
      have hnl : concatenateLines false ('\n' :: (blanks ++ s)) =
          ' ' :: concatenateLines true (blanks ++ s) := by
        simp [concatenateLines]
      rw [hnl, concatenateLines_skip hblanks, hrest, ih]

theorem joinsLines_iff (s t : CString) : JoinsLines s t ↔ concatenateLines false s = t := by
  constructor
  · exact JoinsLines.eq
  · rintro rfl
    exact (joinsLines_both s).1

theorem normalises_iff (delim : Char) (text value : CString) (deescape valid : Bool) :
    Normalises deescape text value ↔ (qstrCreate delim text deescape valid).value = value := by
  have hcr : text.filter (· != '\r') = canonicalizeLineEndings text := rfl
  unfold Normalises qstrCreate
  rw [hcr]
  cases deescape with
  | false => simp [joinsLines_iff]
  | true => simp [joinsLines_iff, unescapes_iff]

/-! ## Comments -/

/-- What `concatenate_lines` skips where `eat_ws` is set: white space, and in a comment one character as
the `#` and the white space behind it. -/
def skipLineStart (commentMode : Bool) (s : CString) : CString :=
  if commentMode then ((s.dropWhile isBlank).drop 1).dropWhile isBlank else s.dropWhile isBlank

theorem length_skipLineStart_le (commentMode : Bool) (s : CString) :
    (skipLineStart commentMode s).length ≤ s.length := by
  have hfirst := (List.dropWhile_sublist isBlank (l := s)).length_le
  unfold skipLineStart
  split
  · have hsecond := (List.dropWhile_sublist isBlank (l := (s.dropWhile isBlank).drop 1)).length_le
    rw [List.length_drop] at hsecond
    omega
  · exact hfirst

/-- `concatenate_lines` with its parameter `comment_mode`, and the flag `eat_ws`. -/
def concatenateLinesMode (commentMode eatWs : Bool) (s : CString) : CString :=
  match s with
  | [] => []
  | c :: s =>
      if c = '\n' then ' ' :: concatenateLinesMode commentMode false (skipLineStart commentMode s)
      else if eatWs then concatenateLinesMode commentMode false (skipLineStart commentMode (c :: s))
      else c :: concatenateLinesMode commentMode false s
termination_by 2 * s.length + eatWs.toNat
decreasing_by
  · have hle := length_skipLineStart_le commentMode s
    simp
    omega
  · next heat =>
      have hle := length_skipLineStart_le commentMode (c :: s)
      subst heat
      simp at hle ⊢
      omega
  · simp
    omega

theorem concatenateLinesMode_nil (commentMode eatWs : Bool) :
    concatenateLinesMode commentMode eatWs [] = [] := by
  rw [concatenateLinesMode]

theorem concatenateLinesMode_lineEnd (commentMode eatWs : Bool) (s : CString) :
    concatenateLinesMode commentMode eatWs ('\n' :: s) =
      ' ' :: concatenateLinesMode commentMode false (skipLineStart commentMode s) := by
  rw [concatenateLinesMode, if_pos rfl]

theorem concatenateLinesMode_start (commentMode : Bool) {c : Char} (hc : c ≠ '\n') (s : CString) :
    concatenateLinesMode commentMode true (c :: s) =
      concatenateLinesMode commentMode false (skipLineStart commentMode (c :: s)) := by
  rw [concatenateLinesMode, if_neg hc, if_pos rfl]

theorem concatenateLinesMode_copy (commentMode : Bool) {t : CString} (ht : '\n' ∉ t) (s : CString) :
    concatenateLinesMode commentMode false (t ++ s) = t ++ concatenateLinesMode commentMode false s := by
  induction t with
  | nil => rfl
  | cons c t ih =>
      rw [List.mem_cons, not_or] at ht
      rw [List.cons_append, concatenateLinesMode, if_neg (Ne.symm ht.1), if_neg Bool.false_ne_true,
        ih ht.2, List.cons_append]

/-- A line of a comment: white space, the `#` and what stands behind it. -/
structure CommentLine where
  indent : CString
  body : CString
  indent_blank : ∀ c ∈ indent, isBlank c = true ∧ c ≠ '\n'
  body_line : '\n' ∉ body

namespace CommentLine

def line (l : CommentLine) : CString := l.indent ++ '#' :: l.body

/-- The text of the line, without the `#` and the white space behind it. -/
def text (l : CommentLine) : CString := l.body.dropWhile isBlank

theorem text_line (l : CommentLine) : '\n' ∉ l.text := fun hmem =>
  l.body_line ((List.dropWhile_sublist isBlank).subset hmem)

theorem skipLineStart_line (l : CommentLine) (more : CString) :
    skipLineStart true (l.line ++ more) = (l.body ++ more).dropWhile isBlank := by
  have hindent : ∀ c ∈ l.indent, isBlank c = true := fun c hc => (l.indent_blank c hc).1
  have hhash : isBlank '#' = false := by decide
  unfold skipLineStart line
  rw [if_pos rfl, List.append_assoc, List.dropWhile_append_of_pos hindent, List.cons_append,
    List.dropWhile_cons_of_neg (by simp [hhash]), List.drop_one, List.tail_cons]

theorem concatenateLinesMode_line (l : CommentLine) (more : CString) :
    concatenateLinesMode true true (l.line ++ more) =
      concatenateLinesMode true false ((l.body ++ more).dropWhile isBlank) := by
  have hhead : ∃ c s, l.line ++ more = c :: s ∧ c ≠ '\n' := by
    unfold line
    cases hindent : l.indent with
    | nil => exact ⟨'#', _, rfl, by decide⟩
    | cons c indent => exact ⟨c, _, rfl, (l.indent_blank c (by rw [hindent]; exact List.mem_cons_self)).2⟩
  obtain ⟨c, s, heq, hc⟩ := hhead
  rw [← l.skipLineStart_line, heq]
  exact concatenateLinesMode_start true hc s

theorem dropWhile_of_text_ne_nil {l : CommentLine} (h : l.text ≠ []) (more : CString) :
    (l.body ++ more).dropWhile isBlank = l.text ++ more := by
  rw [List.dropWhile_append, if_neg (by simpa [text, List.isEmpty_iff] using h)]
  rfl

theorem dropWhile_of_text_eq_nil {l next : CommentLine} (h : l.text = []) (more : CString) :
    (l.body ++ '\n' :: (next.line ++ more)).dropWhile isBlank = '#' :: (next.body ++ more) := by
  have hbody : ∀ c ∈ l.body, isBlank c = true := List.dropWhile_eq_nil_iff.mp h
  have hindent : ∀ c ∈ next.indent, isBlank c = true := fun c hc => (next.indent_blank c hc).1
  have hhash : isBlank '#' = false := by decide
  have hlf : isBlank '\n' = true := by decide
  unfold line
  rw [List.dropWhile_append_of_pos hbody, List.dropWhile_cons_of_pos hlf, List.append_assoc,
    List.dropWhile_append_of_pos hindent, List.cons_append, List.dropWhile_cons_of_neg (by simp [hhash])]

end CommentLine

/-- The lines of a comment as they stand in the file. -/
def commentText (lines : List CommentLine) : CString := ['\n'].intercalate (lines.map CommentLine.line)

/-- The texts of the lines, joined by single spaces. -/
def joinedTexts (lines : List CommentLine) : CString := [' '].intercalate (lines.map CommentLine.text)

theorem commentText_cons (l : CommentLine) (lines : List CommentLine) :
    ∃ more, commentText (l :: lines) = l.line ++ more := by
  cases lines with
  | nil => exact ⟨[], by simp [commentText]⟩
  | cons next lines => exact ⟨_, by rw [commentText, List.map_cons, List.map_cons,
      List.intercalate_cons_cons, List.append_assoc]⟩

theorem comment_iff (lines : List CommentLine) :
    concatenateLinesMode true true (commentText lines) = joinedTexts lines ↔
      ∀ l ∈ lines.dropLast, l.text ≠ [] := by
  induction lines with
  | nil => simp [commentText, joinedTexts, concatenateLinesMode_nil]
  | cons l lines ih =>
      cases lines with
      | nil =>
          have hcopy := concatenateLinesMode_copy true l.text_line []
          rw [concatenateLinesMode_nil, List.append_nil] at hcopy
          have hline := l.concatenateLinesMode_line []
          rw [List.append_nil, List.append_nil] at hline
          simp only [commentText, joinedTexts, List.map_cons, List.map_nil, List.intercalate_singleton,
            List.dropLast_singleton, List.not_mem_nil, false_implies, implies_true, iff_true]
          exact hline.trans hcopy
      | cons next lines =>
          obtain ⟨more, hmore⟩ := commentText_cons next lines
          have htext : commentText (l :: next :: lines) = l.line ++ '\n' :: commentText (next :: lines) := by
            simp [commentText, List.intercalate_cons_cons]
          have hjoined : joinedTexts (l :: next :: lines) = l.text ++ ' ' :: joinedTexts (next :: lines) := by
            simp [joinedTexts, List.intercalate_cons_cons]
          rw [htext, hjoined, l.concatenateLinesMode_line, List.dropLast_cons_cons, List.forall_mem_cons]
          by_cases h : l.text = []
          · -- its line end is skipped as a blank, so that the `#` of the next line is copied
            have hskip : (l.body ++ '\n' :: (next.line ++ more)).dropWhile isBlank =
                ['#'] ++ (next.body ++ more) := CommentLine.dropWhile_of_text_eq_nil h more
            rw [hmore, hskip, concatenateLinesMode_copy true (by decide), h]
            simp
          · -- the `#` of the next line is skipped along with the blanks around it
            have hnext : concatenateLinesMode true false (skipLineStart true (commentText (next :: lines))) =
                concatenateLinesMode true true (commentText (next :: lines)) := by
              rw [hmore, next.concatenateLinesMode_line, next.skipLineStart_line]
            rw [CommentLine.dropWhile_of_text_ne_nil h, concatenateLinesMode_copy true l.text_line,
              concatenateLinesMode_lineEnd, hnext, List.append_cancel_left_eq, List.cons.injEq, ih]
            simp [h]

/-- Strings are normalised as they are described, and comments where no line but the last one is
empty. -/
theorem normalises_strings_and_comments (delim : Char) (text : CString) (deescape valid : Bool)
    (lines : List CommentLine) :
    ('\r' ∉ (qstrCreate delim text deescape valid).value ∧
      '\n' ∉ (qstrCreate delim text deescape valid).value ∧
      ∀ value, Normalises deescape text value ↔ (qstrCreate delim text deescape valid).value = value) ∧
    (concatenateLinesMode true true (commentText lines) = joinedTexts lines ↔
      ∀ l ∈ lines.dropLast, l.text ≠ []) := by
  constructor
  · obtain ⟨hcr, hlf⟩ := ExprText.qstrCreate_lines delim text deescape valid
    exact ⟨hcr, hlf, fun value => normalises_iff delim text value deescape valid⟩
  · exact comment_iff lines

/-- A comment whose second line is empty. -/
def gappedComment : List CommentLine :=
  [⟨[], [' ', 'a'], by simp, by decide⟩, ⟨[], [], by simp, by decide⟩, ⟨[], [' ', 'b'], by simp, by decide⟩]

theorem concatenateLinesMode_gappedComment :
    commentText gappedComment = "# a\n#\n# b".toList ∧
      concatenateLinesMode true true (commentText gappedComment) = "a # b".toList ∧
      joinedTexts gappedComment = "a  b".toList := by
  have htext : commentText gappedComment = "# a\n#\n# b".toList := by decide
  refine ⟨htext, ?_, by decide⟩
  rw [htext]
  simp [concatenateLinesMode, skipLineStart, isBlank]

end Quoting
end Mkfli4l
