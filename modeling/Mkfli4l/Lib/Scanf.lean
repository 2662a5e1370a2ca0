import Mkfli4l.Lib.CNumber
import Mkfli4l.Lib.Runs

/-!
# Formatted input

`sscanf` with the directives that programs use to take a line apart.  It stops at the first directive
that does not fit, so what it has stored is a prefix of what the format asks for.  How a real number is
read is left open.
-/

namespace Mkfli4l
namespace Lib

/-- A directive of a format; a conversion of text or of an integer may have a field width. -/
inductive Directive
  | blank
  | literal (c : Char)
  | string (width : Option ℕ)
  | decimal (width : Option ℕ)
  | float
deriving DecidableEq

/-- What a conversion stores. -/
inductive ScanItem (F : Type*)
  | text (s : CString)
  | number (n : ℤ)
  | real (x : F)
deriving DecidableEq

/-- The characters that a conversion may look at. -/
def scanField : Option ℕ → CString → CString
  | none, s => s
  | some width, s => s.take width

/-- `sscanf`: what is stored, in the order of the conversions.  `scanFloat` reads a real number and gives
the rest of the text. -/
def sscanf {F : Type*} (scanFloat : CString → Option (F × CString)) :
    List Directive → CString → List (ScanItem F)
  | [], _ => []
  | .blank :: format, s => sscanf scanFloat format (s.dropWhile isSpaceC)
  | .literal c :: format, s => if s.head? = some c then sscanf scanFloat format s.tail else []
  | .string width :: format, s =>
      let s := s.dropWhile isSpaceC
      let word := (scanField width s).takeWhile fun c => !isSpaceC c
      if word = [] then [] else .text word :: sscanf scanFloat format (s.drop word.length)
  | .decimal width :: format, s =>
      let s := s.dropWhile isSpaceC
      let field := scanField width s
      let unsigned := (takeSign field).2
      let digits := unsigned.takeWhile (isDigitOf 10)
      if digits = [] then []
      else
        .number (toInt32 (strtol 10 field).value) ::
          sscanf scanFloat format (s.drop (field.length - unsigned.length + digits.length))
  | .float :: format, s =>
      match scanFloat (s.dropWhile isSpaceC) with
      | none => []
      | some (x, rest) => .real x :: sscanf scanFloat format rest

theorem sscanf_words {F : Type*} (scanFloat : CString → Option (F × CString)) (n : ℕ) (s : CString) :
    sscanf scanFloat (List.replicate n (.string none)) s = ((runsOf isSpaceC s).take n).map .text := by
  induction n generalizing s with
  | zero => rfl
  | succ n ih =>
      rw [List.replicate_succ, sscanf, ← runsOf_dropWhile s]
      dsimp only [scanField]
      cases hrest : s.dropWhile isSpaceC with
      | nil => rfl
      | cons c rest =>
          have hc : isSpaceC c = false := by
            have hhead := List.head_dropWhile_not isSpaceC (l := s) (by rw [hrest]; exact List.cons_ne_nil _ _)
            simpa [hrest] using hhead
          have hword : (c :: rest).takeWhile (fun c => !isSpaceC c) ≠ [] := by simp [hc]
          have hdrop : (c :: rest).drop ((c :: rest).takeWhile fun c => !isSpaceC c).length =
              (c :: rest).dropWhile fun c => !isSpaceC c := by
            nth_rewrite 2 [← List.takeWhile_append_dropWhile (p := fun c => !isSpaceC c) (l := c :: rest)]
            exact List.drop_left
          refine (if_neg hword).trans ?_
          rw [ih, hdrop, runsOf_cons_of_not hc, List.take_succ_cons, List.map_cons]

end Lib
end Mkfli4l
