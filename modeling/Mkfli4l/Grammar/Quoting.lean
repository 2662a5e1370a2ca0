import Mkfli4l.Lib.CNumber
import Mkfli4l.Lib.CharRegex
import Mkfli4l.Lib.LongestMatch

/-!
# Values in configuration files

`dump_value` writes a value into a configuration file, in single quotes if that is possible and in
double quotes otherwise.  The file is read back by the scanner of the configuration files, and the
file `rc.cfg`, which is written in the same way, by the shell of the router.

The scanner reads every value back.  The shell does not, since `$` and the backquote keep their
meaning in double quotes and `dump_value` does not mask them.
-/

namespace Mkfli4l
namespace Quoting

open Lib

/-! ## The writer -/

/-- The loop of `dump_value` over the characters of a value in double quotes. -/
def maskChars : CString → CString
  | [] => []
  | c :: value => if c = '"' ∨ c = '\\' then '\\' :: c :: maskChars value else c :: maskChars value

def dumpValue (value : CString) : CString :=
  if '\'' ∉ value then '\'' :: value ++ ['\''] else '"' :: maskChars value ++ ['"']

/-! ## The scanner of configuration files -/

/-- The rules of `varass_scanner.l`, in their order. -/
inductive ScanRule
  | eq | dot | lbracket | rbracket | lbrace | rbrace
  | idArrayIndex | id | wrongId
  | sqString | dqString | usqString | udqString
  | commentLine | comment | ws | bom | cr | lf | unknown
deriving DecidableEq

namespace ScanRule

open CharRegex

def upper : CharRegex := set fun c => c.isUpper
def upperOrDigit : CharRegex := set fun c => c.isUpper || c.isDigit
def idMemberName : CharRegex := seq upper (star upperOrDigit)
def idArrayIndexPattern : CharRegex := seq (set fun c => c.isDigit && c != '0') (star (set Char.isDigit))
def idComponent : CharRegex := alt idMemberName idArrayIndexPattern
def wsPattern : CharRegex := plus (set fun c => c == ' ' || c == '\t' || c == '\x0b')
def lineEnd : CharRegex := seq (opt (char '\r')) (char '\n')
def bomPattern : CharRegex := text ['\xef', '\xbb', '\xbf']

/-- A character allowed in a single-quoted string. -/
def sqChar : CharRegex := except ['\'', '\r', '\n']

/-- The lines of a string that follow the first one. -/
def moreLines (char : CharRegex) : CharRegex := star (seq lineEnd (opt (seq (plus wsPattern) (plus char))))

/-- An unclosed single-quoted string. -/
def usqPattern : CharRegex := seq (char '\'') (seq (star sqChar) (moreLines sqChar))

/-- A character allowed in a double-quoted string. -/
def dqChar : CharRegex :=
  alt (except ['"', '\\', '\r', '\n']) (seq (char '\\') (alt lineEnd (except ['\n'])))

/-- An unclosed double-quoted string. -/
def udqPattern : CharRegex := seq (char '"') (seq (star dqChar) (moreLines dqChar))

def cChar : CharRegex := except ['\r', '\n']
def commentPattern : CharRegex :=
  seq (char '#') (seq (star cChar)
    (star (seq lineEnd (seq (plus wsPattern) (seq (char '#') (star cChar))))))

/-- The pattern of a rule. -/
def pattern : ScanRule → CharRegex
  | eq => char '='
  | dot => char '.'
  | lbracket => char '['
  | rbracket => char ']'
  | lbrace => char '{'
  | rbrace => char '}'
  | idArrayIndex => idArrayIndexPattern
  | id => seq idMemberName (star (seq (char '_') idComponent))
  | wrongId => seq (set fun c => c.isAlpha)
      (star (set fun c => c.isAlpha || c.isDigit || c == '_' || c == '%'))
  | sqString => seq usqPattern (char '\'')
  | dqString => seq udqPattern (char '"')
  | usqString => usqPattern
  | udqString => udqPattern
  | commentLine => seq (opt bomPattern) (seq (star wsPattern) commentPattern)
  | comment => commentPattern
  | ws => wsPattern
  | bom => bomPattern
  | cr => char '\r'
  | lf => char '\n'
  | unknown => except ['\n']

/-- The rules that are tried; `commentLine` is tried at the beginning of a line only. -/
def rules (lineStart : Bool) : List ScanRule :=
  [eq, dot, lbracket, rbracket, lbrace, rbrace, idArrayIndex, id, wrongId, sqString, dqString,
    usqString, udqString] ++ (if lineStart then [commentLine] else []) ++
    [comment, ws, bom, cr, lf, unknown]

end ScanRule

def canonicalizeLineEndings (s : CString) : CString := s.filter fun c => c != '\r'

/-- `remove_escape_characters`, with the flag `escape_active`. -/
def removeEscapeCharacters : Bool → CString → CString
  | _, [] => []
  | escapeActive, c :: s =>
      if c = '\\' ∧ escapeActive = false then
        removeEscapeCharacters true s
      else if c ≠ '\n' ∨ escapeActive = false then
        c :: removeEscapeCharacters false s
      else
        removeEscapeCharacters false s

/-- `concatenate_lines` outside comments, with the flag `eat_ws`. -/
def concatenateLines : Bool → CString → CString
  | _, [] => []
  | eatWs, c :: s =>
      if eatWs ∧ (c = ' ' ∨ c = '\t' ∨ c = '\x0b' ∨ c = '\n') then concatenateLines true s
      else if c = '\n' then ' ' :: concatenateLines true s
      else c :: concatenateLines false s

structure QStr where
  delim : Char
  value : CString
  valid : Bool
deriving DecidableEq

def qstrCreate (delim : Char) (value : CString) (deescape valid : Bool) : QStr where
  delim := delim
  value :=
    let value := canonicalizeLineEndings value
    concatenateLines false (if deescape then removeEscapeCharacters false value else value)
  valid := valid

/-- What the scanner returns: a quoted string, or what another rule has found. -/
inductive Token
  | qstring (qstr : QStr)
  | other (rule : ScanRule) (text : CString)
deriving DecidableEq

/-- The action of a rule for the text it has matched. -/
def ScanRule.action (yytext : CString) : ScanRule → Token
  | .sqString => .qstring (qstrCreate '\'' (yytext.drop 1).dropLast false true)
  | .dqString => .qstring (qstrCreate '"' (yytext.drop 1).dropLast true true)
  | .usqString => .qstring (qstrCreate '\'' (yytext.drop 1) false false)
  | .udqString => .qstring (qstrCreate '"' (yytext.drop 1) true false)
  | rule => .other rule yytext

/-- One step of the scanner: the token, and the rest of the input. -/
def scan (lineStart : Bool) (input : CString) : Option (Token × CString) :=
  (longest (fun rule => rule.pattern.matchLength input) (ScanRule.rules lineStart)).map
    fun found => (found.1.action (input.take found.2), input.drop found.2)

/-! ## The shell -/

/-- What the shell makes of a character: itself, or the beginning of an expansion. -/
inductive ShellChar
  | literal (c : Char)
  | expansion (c : Char)
deriving DecidableEq

/-- Nothing is special in single quotes. -/
def shellSingle : CString → Option (List ShellChar × CString)
  | [] => none
  | c :: s =>
      if c = '\'' then some ([], s)
      else (shellSingle s).map fun found => (.literal c :: found.1, found.2)

/-- In double quotes, `$` and the backquote are special, and a backslash is special in front of one
of the characters `$`, backquote, `"` and backslash. -/
def shellDouble : CString → Option (List ShellChar × CString)
  | [] => none
  | c :: s =>
      if c = '"' then some ([], s)
      else if c = '$' ∨ c = '`' then
        (shellDouble s).map fun found => (.expansion c :: found.1, found.2)
      else if c = '\\' then
        match s with
        | [] => none
        | d :: s' =>
            if d = '$' ∨ d = '`' ∨ d = '"' ∨ d = '\\' then
              (shellDouble s').map fun found => (.literal d :: found.1, found.2)
            else
              (shellDouble (d :: s')).map fun found => (.literal c :: found.1, found.2)
      else (shellDouble s).map fun found => (.literal c :: found.1, found.2)

/-- The shell reads a quoted word. -/
def shellQuoted : CString → Option (List ShellChar × CString)
  | [] => none
  | c :: s => if c = '\'' then shellSingle s else if c = '"' then shellDouble s else none

/-! ## Where a string ends -/

/-- `Ready` strings are closed by the delimiter, and no `Open` string goes on behind it. -/
structure Delimits (d : Char) (Open Ready : CString → Prop) : Prop where
  openPrefix : ∀ {u v}, u <+: v → Open v → Open u
  readyOpen : ∀ {u}, Ready u → Open u
  closes : ∀ {u}, Ready u → ¬ Open (u ++ [d])

namespace Delimits

variable {d : Char} {Open Ready : CString → Prop} {u v rest : CString}

theorem length_le (h : Delimits d Open Ready) (hv : Ready v) (hu : Open u)
    (hpre : u <+: v ++ d :: rest) : u.length ≤ v.length := by
  by_contra hlong
  have hclosed : v ++ [d] <+: v ++ d :: rest := ⟨rest, by simp⟩
  have hinside : v ++ [d] <+: u := by
    refine List.prefix_of_prefix_length_le hclosed hpre ?_
    rw [List.length_append, List.length_singleton]
    omega
  exact h.closes hv (h.openPrefix hinside hu)

theorem length_eq (h : Delimits d Open Ready) (hv : Ready v) (hu : Ready u)
    (hpre : u ++ [d] <+: v ++ d :: rest) : u.length = v.length := by
  refine Nat.le_antisymm
    (h.length_le hv (h.readyOpen hu) ((List.prefix_append u [d]).trans hpre)) ?_
  by_contra hshort
  have hinside : u ++ [d] <+: v := by
    refine List.prefix_of_prefix_length_le hpre (List.prefix_append v _) ?_
    rw [List.length_append, List.length_singleton]
    omega
  exact h.closes hu (h.openPrefix hinside (h.readyOpen hv))

end Delimits

theorem delimits_single : Delimits '\'' (fun u => '\'' ∉ u) (fun u => '\'' ∉ u) where
  openPrefix := fun hpre hv hu => hv (hpre.subset hu)
  readyOpen := id
  closes := fun _ h => h (by simp)

/-- Reads a double-quoted string; the flag tells whether the last character was a backslash that
masks the next one.  Nothing comes out if the string is closed. -/
def dqRun : Bool → CString → Option Bool
  | masked, [] => some masked
  | true, _ :: s => dqRun false s
  | false, c :: s => if c = '"' then none else dqRun (c == '\\') s

theorem dqRun_append (masked : Bool) (u v : CString) :
    dqRun masked (u ++ v) = (dqRun masked u).bind fun masked => dqRun masked v := by
  induction u generalizing masked with
  | nil => rfl
  | cons c u ih =>
      cases masked with
      | true => exact ih false
      | false =>
          by_cases hc : c = '"'
          · simp [dqRun, hc]
          · simp only [List.cons_append, dqRun, if_neg hc, ih]

theorem delimits_double :
    Delimits '"' (fun u => dqRun false u ≠ none) (fun u => dqRun false u = some false) where
  openPrefix := by
    rintro u v ⟨t, rfl⟩ hv hu
    rw [dqRun_append, hu] at hv
    exact hv rfl
  readyOpen := fun hu hnone => nomatch hu.symm.trans hnone
  closes := by
    intro u hu hopen
    rw [dqRun_append, hu] at hopen
    exact hopen (by simp [dqRun])

/-! ## The patterns of strings -/

section Patterns

open CharRegex ScanRule

theorem mem_char_seq {c : Char} {r : CharRegex} {w : CString} (h : w ∈ (seq (char c) r).lang) :
    ∃ u ∈ r.lang, w = c :: u := by
  obtain ⟨x, hx, u, hu, rfl⟩ := Language.mem_mul.mp h
  obtain ⟨d, hd, rfl⟩ := mem_set_lang.mp hx
  exact ⟨u, hu, by rw [beq_iff_eq.mp hd]; rfl⟩

theorem usqPattern_ready {w : CString} (h : w ∈ usqPattern.lang) : ∃ u, w = '\'' :: u ∧ '\'' ∉ u := by
  obtain ⟨u, hu, rfl⟩ := mem_char_seq h
  exact ⟨u, rfl, notMem_of_avoids (by decide) hu⟩

/-- A text in which no character is masked at the end and which is not closed. -/
def DqReady (r : CharRegex) : Prop := ∀ w ∈ r.lang, dqRun false w = some false

namespace DqReady

variable {a b : CharRegex}

theorem seq (ha : DqReady a) (hb : DqReady b) : DqReady (seq a b) := by
  intro w hw
  obtain ⟨u, hu, v, hv, rfl⟩ := Language.mem_mul.mp hw
  rw [dqRun_append, ha u hu]
  exact hb v hv

theorem alt (ha : DqReady a) (hb : DqReady b) : DqReady (alt a b) := by
  rintro w (hw | hw)
  · exact ha w hw
  · exact hb w hw

theorem star (ha : DqReady a) : DqReady (star a) := by
  intro w hw
  obtain ⟨words, rfl, hwords⟩ := Language.mem_kstar.mp hw
  clear hw
  induction words with
  | nil => rfl
  | cons word words ih =>
      rw [List.flatten_cons, dqRun_append, ha word (hwords word List.mem_cons_self)]
      exact ih fun y hy => hwords y (List.mem_cons_of_mem _ hy)

theorem empty : DqReady CharRegex.empty := by
  intro w hw
  rw [(Language.mem_one _).mp hw]
  rfl

theorem set {p : Char → Bool} (hquote : p '"' = false) (hback : p '\\' = false) :
    DqReady (CharRegex.set p) := by
  intro w hw
  obtain ⟨c, hc, rfl⟩ := mem_set_lang.mp hw
  have hne : c ≠ '"' := by
    rintro rfl
    exact nomatch hquote.symm.trans hc
  have hne' : c ≠ '\\' := by
    rintro rfl
    exact nomatch hback.symm.trans hc
  simp [dqRun, hne, hne']

end DqReady

theorem dqReady_lineEnd : DqReady lineEnd :=
  .seq (.alt (.set (by decide) (by decide)) .empty) (.set (by decide) (by decide))

theorem dqReady_dqChar : DqReady dqChar := by
  refine .alt (.set (by decide) (by decide)) fun w hw => ?_
  obtain ⟨u, hu, rfl⟩ := mem_char_seq hw
  rcases hu with hu | hu
  · obtain ⟨x, hx, y, hy, rfl⟩ := Language.mem_mul.mp hu
    obtain ⟨c, hc, rfl⟩ := mem_set_lang.mp hy
    obtain rfl : c = '\n' := beq_iff_eq.mp hc
    rcases hx with hx | hx
    · obtain ⟨d, hd, rfl⟩ := mem_set_lang.mp hx
      obtain rfl : d = '\r' := beq_iff_eq.mp hd
      rfl
    · rw [(Language.mem_one _).mp hx]
      rfl
  · obtain ⟨c, -, rfl⟩ := mem_set_lang.mp hu
    simp [dqRun]

theorem udqPattern_ready {w : CString} (h : w ∈ udqPattern.lang) :
    ∃ u, w = '"' :: u ∧ dqRun false u = some false := by
  obtain ⟨u, hu, rfl⟩ := mem_char_seq h
  have hws : DqReady wsPattern := .seq (.set (by decide) (by decide)) (.star (.set (by decide) (by decide)))
  have hbody : DqReady (CharRegex.seq (CharRegex.star dqChar) (moreLines dqChar)) :=
    .seq (.star dqReady_dqChar) (.star (.seq dqReady_lineEnd (.alt (.seq (.seq hws (.star hws))
      (.seq dqReady_dqChar (.star dqReady_dqChar))) .empty)))
  exact ⟨u, rfl, hbody u hu⟩

section Strings

variable {q : Char} {unclosed : CharRegex} {Open Ready : CString → Prop} {v : CString}

theorem matchLength_closed (hdelimits : Delimits q Open Ready)
    (hunclosed : ∀ w ∈ unclosed.lang, ∃ u, w = q :: u ∧ Ready u) (rest : CString)
    (hv : q :: v ∈ unclosed.lang) :
    (seq unclosed (char q)).matchLength (q :: v ++ q :: rest) = some (v.length + 2) := by
  obtain ⟨v', hv', hready⟩ := hunclosed _ hv
  obtain ⟨-, rfl⟩ := List.cons.inj hv'
  have hlength : (q :: v ++ q :: rest).length = v.length + 2 + rest.length := by
    simp only [List.length_append, List.length_cons]
    omega
  have htake : (q :: v ++ q :: rest).take (v.length + 2) = q :: v ++ [q] := by
    simp [List.take_append]
  refine matchLength_eq (by omega) (by omega) ?_ fun m hm hmem => ?_
  · rw [htake]
    exact append_mem_seq hv char_mem
  · obtain ⟨x, hx, y, hy, hxy⟩ := Language.mem_mul.mp hmem
    obtain ⟨c, hc, rfl⟩ := mem_set_lang.mp hy
    obtain rfl := beq_iff_eq.mp hc
    obtain ⟨u, rfl, hu⟩ := hunclosed x hx
    have hpre : c :: u ++ [c] <+: c :: v ++ c :: rest := hxy ▸ List.take_prefix m _
    have huv := hdelimits.length_eq hready hu ((List.cons_prefix_cons.mp hpre).2)
    have hlen := congrArg List.length hxy
    rw [List.length_take_of_le hm] at hlen
    simp only [List.length_append, List.length_cons, List.length_nil] at hlen
    omega

theorem matchLength_unclosed_le (hdelimits : Delimits q Open Ready)
    (hunclosed : ∀ w ∈ unclosed.lang, ∃ u, w = q :: u ∧ Ready u) {rest : CString} {n : Nat}
    (hv : q :: v ∈ unclosed.lang) (hn : unclosed.matchLength (q :: v ++ q :: rest) = some n) :
    n ≤ v.length + 1 := by
  obtain ⟨v', hv', hready⟩ := hunclosed _ hv
  obtain ⟨-, rfl⟩ := List.cons.inj hv'
  obtain ⟨-, hle, hmem⟩ := matchLength_some hn
  obtain ⟨u, hu, hready'⟩ := hunclosed _ hmem
  have hpre : q :: u <+: q :: v ++ q :: rest := hu ▸ List.take_prefix n _
  have huv := hdelimits.length_le hready (hdelimits.readyOpen hready')
    ((List.cons_prefix_cons.mp hpre).2)
  have hlen := congrArg List.length hu
  rw [List.length_take_of_le hle, List.length_cons] at hlen
  omega

end Strings

theorem scan_quoted (lineStart : Bool) {q : Char} (closed unclosed : ScanRule)
    {Open Ready : CString → Prop} (hdelimits : Delimits q Open Ready)
    (hclosed : closed.pattern = seq unclosed.pattern (char q)) (hrule : closed ∈ rules lineStart)
    (hunclosed : ∀ w ∈ unclosed.pattern.lang, ∃ u, w = q :: u ∧ Ready u)
    (hothers : ∀ rule ∈ rules lineStart, rule ≠ closed → rule ≠ unclosed → rule ≠ unknown →
      rule.pattern.starts q = false) {v : CString} (rest : CString)
    (hv : q :: v ∈ unclosed.pattern.lang) :
    scan lineStart (q :: v ++ q :: rest) = some (closed.action (q :: v ++ [q]), rest) := by
  have htake : (q :: v ++ q :: rest).take (v.length + 2) = q :: v ++ [q] := by
    simp [List.take_append]
  have hdrop : (q :: v ++ q :: rest).drop (v.length + 2) = rest := by simp [List.drop_append]
  have hmatch : closed.pattern.matchLength (q :: v ++ q :: rest) = some (v.length + 2) := by
    rw [hclosed]
    exact matchLength_closed hdelimits hunclosed rest hv
  have hlongest : longest (fun rule => rule.pattern.matchLength (q :: v ++ q :: rest))
      (rules lineStart) = some (closed, v.length + 2) := by
    refine longest_eq hrule hmatch fun rule hrule' hne n hn => ?_
    by_cases hun : rule = unclosed
    · subst hun
      have := matchLength_unclosed_le hdelimits hunclosed hv hn
      omega
    · by_cases hunknown : rule = unknown
      · subst hunknown
        have hone : n = 1 := matchLength_set hn
        omega
      · have hnone := matchLength_eq_none (s := v ++ q :: rest) (hothers rule hrule' hne hun hunknown)
        exact nomatch hn.symm.trans hnone
  rw [scan, hlongest, Option.map_some, htake, hdrop]

end Patterns

/-! ## Reading back -/

section ReadBack

open CharRegex ScanRule

variable {value rest : CString}

theorem canonicalizeLineEndings_eq (h : '\r' ∉ value) : canonicalizeLineEndings value = value := by
  refine List.filter_eq_self.mpr fun c hc => ?_
  simp only [bne_iff_ne]
  rintro rfl
  exact h hc

theorem concatenateLines_eq (h : '\n' ∉ value) : concatenateLines false value = value := by
  induction value with
  | nil => rfl
  | cons c value ih =>
      rw [List.mem_cons, not_or] at h
      simp [concatenateLines, Ne.symm h.1, ih h.2]

theorem removeEscapeCharacters_maskChars :
    removeEscapeCharacters false (maskChars value) = value := by
  induction value with
  | nil => rfl
  | cons c value ih =>
      by_cases hmask : c = '"' ∨ c = '\\'
      · have hc : c ≠ '\n' := by
          rintro rfl
          exact absurd hmask (by decide)
        simp [maskChars, hmask, removeEscapeCharacters, hc, ih]
      · rw [not_or] at hmask
        simp [maskChars, hmask.1, hmask.2, removeEscapeCharacters, ih]

theorem notMem_maskChars {c : Char} (hc : c ≠ '\\') (h : c ∉ value) : c ∉ maskChars value := by
  induction value with
  | nil => exact h
  | cons d value ih =>
      rw [List.mem_cons, not_or] at h
      unfold maskChars
      split
      · simp [hc, h.1, ih h.2]
      · simp [h.1, ih h.2]

theorem mem_star_sqChar (hquote : '\'' ∉ value) (hcr : '\r' ∉ value) (hlf : '\n' ∉ value) :
    value ∈ (star sqChar).lang := by
  have hwords : ∀ word ∈ value.map fun c => [c], word ∈ sqChar.lang := by
    intro word hword
    obtain ⟨c, hc, rfl⟩ := List.mem_map.mp hword
    refine mem_set_lang.mpr ⟨c, ?_, rfl⟩
    have hne : c ≠ '\'' ∧ c ≠ '\r' ∧ c ≠ '\n' :=
      ⟨ne_of_mem_of_not_mem hc hquote, ne_of_mem_of_not_mem hc hcr, ne_of_mem_of_not_mem hc hlf⟩
    simp [hne.1, hne.2.1, hne.2.2]
  have hflatten : (value.map fun c => [c]).flatten = value := by
    rw [← List.flatMap_def, List.flatMap_singleton']
  exact hflatten ▸ mem_star_of_flatten hwords

theorem mem_star_dqChar (hcr : '\r' ∉ value) (hlf : '\n' ∉ value) :
    maskChars value ∈ (star dqChar).lang := by
  induction value with
  | nil => exact nil_mem_star
  | cons c value ih =>
      rw [List.mem_cons, not_or] at hcr hlf
      have hrest := ih hcr.2 hlf.2
      obtain ⟨words, hwords, hmem⟩ := Language.mem_kstar.mp hrest
      unfold maskChars
      split
      · have hword : ['\\', c] ∈ dqChar.lang :=
          .inr (append_mem_seq (s := ['\\']) char_mem
            (.inr (mem_set_lang.mpr ⟨c, by simp [Ne.symm hlf.1], rfl⟩)))
        refine Language.mem_kstar.mpr ⟨['\\', c] :: words, by simp [hwords], fun y hy => ?_⟩
        rcases List.mem_cons.mp hy with rfl | hy
        · exact hword
        · exact hmem y hy
      · next hmask =>
          rw [not_or] at hmask
          have hword : [c] ∈ dqChar.lang :=
            .inl (mem_set_lang.mpr ⟨c, by simp [hmask.1, hmask.2, Ne.symm hlf.1, Ne.symm hcr.1], rfl⟩)
          refine Language.mem_kstar.mpr ⟨[c] :: words, by simp [hwords], fun y hy => ?_⟩
          rcases List.mem_cons.mp hy with rfl | hy
          · exact hword
          · exact hmem y hy

theorem scan_dumpValue (lineStart : Bool) (hcr : '\r' ∉ value) (hlf : '\n' ∉ value) :
    ∃ delim, scan lineStart (dumpValue value ++ rest) = some (.qstring ⟨delim, value, true⟩, rest) := by
  unfold dumpValue
  split
  · next hquote =>
      have hmem : '\'' :: value ∈ usqPattern.lang :=
        append_mem_seq (s := ['\'']) char_mem
          (List.append_nil value ▸ append_mem_seq (mem_star_sqChar hquote hcr hlf) nil_mem_star)
      have hscan := scan_quoted lineStart .sqString .usqString delimits_single rfl
        (by cases lineStart <;> decide) (fun w hw => usqPattern_ready hw)
        (by cases lineStart <;> decide) rest hmem
      refine ⟨'\'', ?_⟩
      have hinput : '\'' :: value ++ ['\''] ++ rest = '\'' :: value ++ '\'' :: rest := by simp
      rw [hinput, hscan]
      simp [ScanRule.action, qstrCreate, canonicalizeLineEndings_eq hcr, concatenateLines_eq hlf]
  · have hmem : '"' :: maskChars value ∈ udqPattern.lang :=
      append_mem_seq (s := ['"']) char_mem
        (List.append_nil (maskChars value) ▸ append_mem_seq (mem_star_dqChar hcr hlf) nil_mem_star)
    have hscan := scan_quoted lineStart .dqString .udqString delimits_double rfl
      (by cases lineStart <;> decide) (fun w hw => udqPattern_ready hw)
      (by cases lineStart <;> decide) rest hmem
    refine ⟨'"', ?_⟩
    have hinput : '"' :: maskChars value ++ ['"'] ++ rest = '"' :: maskChars value ++ '"' :: rest := by
      simp
    rw [hinput, hscan]
    have hcr' : '\r' ∉ maskChars value := notMem_maskChars (by decide) hcr
    simp [ScanRule.action, qstrCreate, canonicalizeLineEndings_eq hcr',
      removeEscapeCharacters_maskChars, concatenateLines_eq hlf]

theorem shellSingle_eq (h : '\'' ∉ value) :
    shellSingle (value ++ '\'' :: rest) = some (value.map .literal, rest) := by
  induction value with
  | nil => simp [shellSingle]
  | cons c value ih =>
      rw [List.mem_cons, not_or] at h
      simp [shellSingle, Ne.symm h.1, ih h.2]

/-- What the shell makes of a character that `dump_value` has put in double quotes. -/
def inDoubleQuotes (c : Char) : ShellChar := if c = '$' ∨ c = '`' then .expansion c else .literal c

theorem shellDouble_close : shellDouble ('"' :: rest) = some ([], rest) := by
  rw [shellDouble.eq_def]
  rfl

theorem shellDouble_masked {c : Char} (h : c = '"' ∨ c = '\\') :
    shellDouble ('\\' :: c :: rest) =
      (shellDouble rest).map fun found => (.literal c :: found.1, found.2) := by
  rw [shellDouble.eq_def]
  rcases h with rfl | rfl <;> rfl

theorem shellDouble_plain {c : Char} (h : ¬ (c = '"' ∨ c = '\\')) :
    shellDouble (c :: rest) =
      (shellDouble rest).map fun found => (inDoubleQuotes c :: found.1, found.2) := by
  rw [not_or] at h
  rw [shellDouble.eq_def]
  by_cases hexpand : c = '$' ∨ c = '`'
  · simp only [if_neg h.1, if_pos hexpand, inDoubleQuotes]
  · simp only [if_neg h.1, if_neg h.2, if_neg hexpand, inDoubleQuotes]

theorem shellDouble_eq :
    shellDouble (maskChars value ++ '"' :: rest) = some (value.map inDoubleQuotes, rest) := by
  induction value with
  | nil => exact shellDouble_close
  | cons c value ih =>
      by_cases hmask : c = '"' ∨ c = '\\'
      · have hplain : inDoubleQuotes c = .literal c := by rcases hmask with rfl | rfl <;> rfl
        rw [maskChars, if_pos hmask, List.cons_append, List.cons_append, shellDouble_masked hmask, ih,
          List.map_cons, hplain]
        rfl
      · rw [maskChars, if_neg hmask, List.cons_append, shellDouble_plain hmask, ih]
        rfl

theorem shellQuoted_dumpValue_iff (rest : CString) :
    shellQuoted (dumpValue value ++ rest) = some (value.map .literal, rest) ↔
      '\'' ∉ value ∨ '$' ∉ value ∧ '`' ∉ value := by
  unfold dumpValue
  split
  · next hquote =>
      have hinput : '\'' :: value ++ ['\''] ++ rest = '\'' :: (value ++ '\'' :: rest) := by simp
      rw [hinput, shellQuoted, if_pos rfl, shellSingle_eq hquote]
      simp [hquote]
  · next hquote =>
      have hinput : '"' :: maskChars value ++ ['"'] ++ rest = '"' :: (maskChars value ++ '"' :: rest) := by
        simp
      rw [hinput, shellQuoted, if_neg (by decide), if_pos rfl, shellDouble_eq, Option.some_inj,
        Prod.mk.injEq, List.map_inj_left]
      have hliteral : ∀ c, inDoubleQuotes c = .literal c ↔ c ≠ '$' ∧ c ≠ '`' := by
        intro c
        unfold inDoubleQuotes
        by_cases hexpand : c = '$' ∨ c = '`'
        · rw [if_pos hexpand]
          exact ⟨(fun h => nomatch h), fun h => absurd hexpand (not_or.mpr h)⟩
        · rw [if_neg hexpand]
          exact ⟨fun _ => not_or.mp hexpand, fun _ => rfl⟩
      simp only [hliteral, and_true, hquote, false_or]
      constructor
      · exact fun h => ⟨fun hmem => (h _ hmem).1 rfl, fun hmem => (h _ hmem).2 rfl⟩
      · exact fun h c hc => ⟨ne_of_mem_of_not_mem hc h.1, ne_of_mem_of_not_mem hc h.2⟩

end ReadBack

/-- A value without line ends and NUL is read back by the scanner and by the shell if and only if it
needs no double quotes, or has no character that keeps its meaning in them. -/
theorem dumpValue_readBack_iff {value : CString}
    (hvalue : '\r' ∉ value ∧ '\n' ∉ value ∧ '\x00' ∉ value) :
    ((∀ lineStart rest, ∃ delim,
        scan lineStart (dumpValue value ++ rest) = some (.qstring ⟨delim, value, true⟩, rest)) ∧
      ∀ rest, shellQuoted (dumpValue value ++ rest) = some (value.map .literal, rest)) ↔
      '\'' ∉ value ∨ '$' ∉ value ∧ '`' ∉ value := by
  simp only [shellQuoted_dumpValue_iff, forall_const, and_iff_right_iff_imp]
  exact fun _ lineStart rest => scan_dumpValue lineStart hvalue.1 hvalue.2.1

/-- A value with both quotes and a backslash. -/
theorem dumpValue_readBack_sample :
    let value := "it's \"5\\\"".toList
    ((∀ lineStart rest, ∃ delim,
        scan lineStart (dumpValue value ++ rest) = some (.qstring ⟨delim, value, true⟩, rest)) ∧
      ∀ rest, shellQuoted (dumpValue value ++ rest) = some (value.map .literal, rest)) := by
  intro value
  exact (dumpValue_readBack_iff (by decide)).mpr (by decide)

/-- The shell expands the dollar sign. -/
theorem dumpValue_expanded :
    ¬ ∀ value : CString, '\r' ∉ value ∧ '\n' ∉ value ∧ '\x00' ∉ value →
      (∀ lineStart rest, ∃ delim,
        scan lineStart (dumpValue value ++ rest) = some (.qstring ⟨delim, value, true⟩, rest)) ∧
      ∀ rest, shellQuoted (dumpValue value ++ rest) = some (value.map .literal, rest) := by
  intro h
  exact absurd ((shellQuoted_dumpValue_iff []).mp ((h "it's $5".toList (by decide)).2 []))
    (by decide)

end Quoting
end Mkfli4l
