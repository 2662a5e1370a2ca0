import Mkfli4l.Lib.Buffers
import Mkfli4l.Lib.Substrings

/-!
# The configuration of the boot loader

`mk_syslinux` copies a template line by line and puts the settings for the kernel in the place of a tag.
They come from configuration variables of any length and are put together in arrays of fixed size, and no
length is compared.  A time limit takes the place of everything behind it in its line, of a tag too, and the
tag is looked for in the whole line, also before the `APPEND` that makes it one.  `mkSyslinux_iff` says when
no array is left and every tag is replaced in full.
-/

namespace Mkfli4l
namespace Syslinux

open Lib

/-! ## The program -/

/-- The configuration variables that `mk_syslinux` reads. -/
inductive Variable
  | serConsole
  | serConsoleIf
  | serConsoleRate
  | serConsoleIfName
  | arch
  | debugStartup
  | debugLog
  | kernelBootOption
  | kernelBootOptionExt
  | bootmenuTime
  | bootType

/-- What `get_variable` returns: strings, for those that are set. -/
structure Config where
  getVariable : Variable → Option CString
  noNul : ∀ v s, getVariable v = some s → '\x00' ∉ s

/-- The values of `SER_CONSOLE` with which there is a serial console. -/
inductive SerConsole
  | onlyserial
  | secondary
  | primary
deriving DecidableEq

/-- A message of the program. -/
inductive LogMessage
  | error (text : CString)
  | warn (text : CString)

/-- The result of `mk_syslinux`. -/
inductive Error
  | ok
  | mksyslTmpl
  | mksyslCfg
  | mksyslAppend

namespace Config

variable (cfg : Config)

/-- The value of a variable as `%s` prints it. -/
def printed (v : Variable) : CString := (cfg.getVariable v).getD "(null)".toList

/-- The serial console, if there is one. -/
def serConsole : Option SerConsole :=
  match cfg.getVariable .serConsole with
  | none => none
  | some p =>
      if p = "yes".toList then some .onlyserial
      else if p = "secondary".toList then some .secondary
      else if p = "primary".toList then some .primary
      else none

/-- The device of the serial console. -/
def device : CString :=
  match cfg.getVariable .serConsoleIfName with
  | some ifname => "console=".toList ++ ifname ++ [','] ++ cfg.printed .serConsoleRate ++ "n8".toList
  | none =>
      "console=ttyS".toList ++ cfg.printed .serConsoleIf ++ [','] ++ cfg.printed .serConsoleRate ++ "n8".toList

/-- What is written for the serial console before the lines of the template. -/
def serialLines (mode : SerConsole) : List CString :=
  ("SERIAL ".toList ++ cfg.printed .serConsoleIf ++ [' '] ++ cfg.printed .serConsoleRate ++ ['\n']) ::
    if mode = .onlyserial then ["CONSOLE 0\n".toList] else []

/-- The warning about the device. -/
def warnings : List LogMessage :=
  match cfg.getVariable .serConsoleIfName, cfg.getVariable .arch with
  | none, some arch =>
      if arch ≠ "x86".toList ∧ arch ≠ "x86_64".toList then
        [.warn ("Using hard-coded mapping from serial console ".toList ++ cfg.printed .serConsoleIf ++
          " to device ttyS".toList ++ cfg.printed .serConsoleIf ++
          " which may fail on non-x86 architectures; use package 'hwsupp' instead!\n".toList)]
      else []
  | _, _ => []

def debugStartup : Bool := cfg.getVariable .debugStartup = some "yes".toList

def debugLog : Option CString :=
  if cfg.debugStartup then (cfg.getVariable .debugLog).filter (· ≠ []) else none

def bootParam : CString := (cfg.getVariable .kernelBootOption).getD []

def extBootParam : CString := ((cfg.getVariable .kernelBootOptionExt).getD []).dropWhile isSpaceC

end Config

/-- The screen comes first if the serial console is the primary one. -/
def primaryConsole (mode : SerConsole) (console : Buffer 40) : Option (Buffer 40) :=
  if mode = .primary then console.strcpy "console=tty0 ".toList else some console

/-- The screen comes last if the serial console is the secondary one. -/
def secondaryConsole (mode : SerConsole) (console : Buffer 40) : Option (Buffer 40) :=
  if mode = .secondary then console.strcat " console=tty0".toList else some console

/-- `console`, with the text for the kernel. -/
def setConsole (cfg : Config) (mode : SerConsole) (console : Buffer 40) : Option (Buffer 40) := do
  let console ← console.cut 0
  let console ← primaryConsole mode console
  let console ← console.strcat cfg.device
  secondaryConsole mode console

/-- The part for the serial console: the array `console`, what is written, and the messages. -/
def serialConsole (cfg : Config) (console : Buffer 40) :
    Option (Buffer 40 × List CString × List LogMessage) := do
  let console ← console.cut 0
  match cfg.serConsole with
  | none => some (console, [], [])
  | some mode =>
      let console ← setConsole cfg mode console
      some (console, cfg.serialLines mode, cfg.warnings)

/-- `timeout_str` at first. -/
def timeoutStr : Buffer 20 := ⟨"TIMEOUT 50".toList ++ List.replicate 10 '\x00', by decide⟩

/-- `timeout_str` for the time limit of the boot menu. -/
def setTimeout (cfg : Config) : Option (Buffer 20) :=
  match cfg.getVariable .bootmenuTime with
  | none => some timeoutStr
  | some p =>
      if p = [] then some timeoutStr
      else if cfg.getVariable .bootType = some "hd".toList then
        timeoutStr.strcpy ("TIMEOUT ".toList ++ p ++ ['0'])
      else timeoutStr.strcpy "TIMEOUT 1".toList

/-- The line end, of a DOS file or of any other, is cut off. -/
def cutLineEnd (buf : Buffer 256) : Option (Buffer 256) :=
  match findSub ['\r'] buf.text with
  | some p => buf.cut p
  | none =>
      match findSub ['\n'] buf.text with
      | some p => buf.cut p
      | none => some buf

/-- The time limit takes the place of what is there. -/
def replaceTimeout (timeoutStr : Buffer 20) (buf : Buffer 256) : Option (Buffer 256) :=
  match findSub "TIMEOUT".toList buf.text with
  | some p => do
      let buf ← buf.cut p
      buf.strcat timeoutStr.text
  | none => some buf

/-- An option for the kernel, if it is not empty. -/
def appendParam (param : CString) (buf : Buffer 256) : Option (Buffer 256) :=
  if param.length > 0 then do
    let buf ← buf.strcat [' ']
    buf.strcat param
  else some buf

/-- The options for debugging. -/
def appendDebug (cfg : Config) (buf : Buffer 256) : Option (Buffer 256) :=
  if cfg.debugStartup then do
    let buf ← buf.strcat " fli4ldebug=yes".toList
    match cfg.debugLog with
    | some debugLog => do
        let buf ← buf.strcat " fli4ldeblog=".toList
        buf.strcat debugLog
    | none => some buf
  else some buf

/-- The settings are put behind what is before the tag. -/
def appendSettings (cfg : Config) (console : Buffer 40) (buf : Buffer 256) : Option (Buffer 256) := do
  let buf ← buf.strcat console.text
  let buf ← appendParam cfg.bootParam buf
  let buf ← appendParam cfg.extBootParam buf
  appendDebug cfg buf

/-- In a line with `APPEND`, the settings take the place of the tag and of what is behind it. -/
def replaceTag (cfg : Config) (console : Buffer 40) (append : Bool) (buf : Buffer 256) : Option (Buffer 256) :=
  if append then
    match findSub "TAG".toList buf.text with
    | some p => do
        let buf ← buf.cut p
        appendSettings cfg console buf
    | none => some buf
  else some buf

/-- A line is rewritten; the result says if it has an `APPEND`. -/
def rewriteLine (cfg : Config) (console : Buffer 40) (timeoutStr : Buffer 20) (buf : Buffer 256) :
    Option (Bool × Buffer 256) := do
  let buf ← cutLineEnd buf
  let buf ← replaceTimeout timeoutStr buf
  let append := (findSub "APPEND".toList buf.text).isSome
  let buf ← replaceTag cfg console append buf
  some (append, buf)

/-- The loop over the template.  The result says if there is an `APPEND`, and what is written for what is
read. -/
def copyLines (cfg : Config) (console : Buffer 40) (timeoutStr : Buffer 20) :
    List CString → Buffer 256 → Option (Bool × List (CString × Option CString))
  | [], _ => some (false, [])
  | piece :: pieces, buf => do
      let buf ← buf.store 0 (piece ++ ['\x00'])
      if ['#', '#'] <+: buf.chars then do
        let (found, copied) ← copyLines cfg console timeoutStr pieces buf
        some (found, (piece, none) :: copied)
      else do
        let (append, buf) ← rewriteLine cfg console timeoutStr buf
        let (found, copied) ← copyLines cfg console timeoutStr pieces buf
        some (append || found, (piece, some (buf.text ++ ['\n'])) :: copied)

/-- The files: their names, the text of the template, and the reason why one cannot be opened. -/
structure Files where
  fnameS : CString
  fnameD : CString
  template : Except CString CString
  destination : Except CString Unit

/-- What `mk_syslinux` returns and does: what is written at first and for every text that is read from the
template, and the messages. -/
structure Result where
  error : Error
  serial : List CString
  copied : List (CString × Option CString)
  log : List LogMessage

/-- `mk_syslinux`; there is no result if it writes behind the end of an array. -/
def mkSyslinux (cfg : Config) (files : Files) (console : Buffer 40) (buf : Buffer 256) : Option Result :=
  match files.template with
  | .error strerror =>
      some ⟨.mksyslTmpl, [], [], [.error ("Error while opening template file '".toList ++ files.fnameS ++
        "': ".toList ++ strerror ++ ['\n'])]⟩
  | .ok template =>
      match files.destination with
      | .error strerror =>
          some ⟨.mksyslCfg, [], [], [.error ("Error while opening destination file '".toList ++ files.fnameD ++
            "': ".toList ++ strerror ++ ['\n'])]⟩
      | .ok () => do
          let (console, serial, warnings) ← serialConsole cfg console
          let timeoutStr ← setTimeout cfg
          let (found, copied) ← copyLines cfg console timeoutStr (fgetsAll 255 template) buf
          some (if found then ⟨.ok, serial, copied, warnings⟩
            else ⟨.mksyslAppend, serial, copied,
              warnings ++ [.error "Error: no APPEND-line found in syslinux-template\n".toList]⟩)

/-! ## What it is for -/

namespace Config

variable (cfg : Config)

/-- The setting of the console for the kernel. -/
def consoleSetting : CString :=
  match cfg.serConsole with
  | none => []
  | some mode =>
      (if mode = .primary then "console=tty0 ".toList else []) ++ (cfg.device ++
        if mode = .secondary then " console=tty0".toList else [])

/-- The time limit of the boot menu. -/
def timeoutSetting : CString :=
  match cfg.getVariable .bootmenuTime with
  | none => "TIMEOUT 50".toList
  | some p =>
      if p = [] then "TIMEOUT 50".toList
      else if cfg.getVariable .bootType = some "hd".toList then "TIMEOUT ".toList ++ p ++ ['0']
      else "TIMEOUT 1".toList

/-- The options for debugging. -/
def debugOptions : CString :=
  if cfg.debugStartup then
    " fli4ldebug=yes".toList ++
      match cfg.debugLog with
      | some debugLog => " fli4ldeblog=".toList ++ debugLog
      | none => []
  else []

/-- A blank before options, if there are any. -/
def separated (param : CString) : CString := if param = [] then [] else ' ' :: param

/-- What takes the place of a tag: the console, the boot options, the extended ones and those for debugging. -/
def settings : CString :=
  cfg.consoleSetting ++ (separated cfg.bootParam ++ (separated cfg.extBootParam ++ cfg.debugOptions))

/-- A line with the time limit in its place. -/
def retimed (line : CString) : CString :=
  match findSub "TIMEOUT".toList line with
  | some p => line.take p ++ cfg.timeoutSetting
  | none => line

/-- A line with the settings in the place of the first tag. -/
def tagged (line : CString) : CString :=
  match findSub "TAG".toList line with
  | some p => line.take p ++ cfg.settings
  | none => line

end Config

/-- A line without its line end. -/
def withoutLineEnd (line : CString) : CString :=
  match findSub ['\r'] line with
  | some p => line.take p
  | none =>
      match findSub ['\n'] line with
      | some p => line.take p
      | none => line

/-- The text of a line of the template. -/
def lineText (line : CString) : CString := withoutLineEnd (bufferText line)

/-- The position of the tag that follows `APPEND`. -/
def tagBehindAppend (line : CString) : Option ℕ :=
  (findSub "APPEND".toList line).bind fun a => (findSub "TAG".toList (line.drop a)).map (a + ·)

/-- A line of at most 254 characters, which is no double comment, has a tag behind `APPEND`. -/
structure TagAt (line : CString) (k : ℕ) : Prop where
  length_le : (line.takeWhile (· ≠ '\n')).length ≤ 254
  copied : ¬ ['#', '#'] <+: line
  tag : tagBehindAppend (lineText line) = some k

/-- Of every line of the template with a tag, what is before the tag is written, and all settings are behind
it. -/
def ReplacesTags (cfg : Config) (template : CString) (r : Result) : Prop :=
  ∀ past line rest, fileLines template = past ++ line :: rest → ∀ k, TagAt line k →
    ∃ before after,
      r.copied = before ++ (line, some ((lineText line).take k ++ cfg.settings ++ ['\n'])) :: after ∧
        (before.map Prod.fst).flatten = past.flatten

/-- There is room for a line with the time limit, and for a line with the settings. -/
structure Config.LineFits (cfg : Config) (line : CString) : Prop where
  timeout : ∀ p, findSub "TIMEOUT".toList line = some p → p + cfg.timeoutSetting.length ≤ 255
  tag : (findSub "APPEND".toList (cfg.retimed line)).isSome →
    ∀ p, findSub "TAG".toList (cfg.retimed line) = some p → p + cfg.settings.length ≤ 255

/-- There is room for all texts. -/
structure TextsFit (cfg : Config) (template : CString) : Prop where
  console : cfg.consoleSetting.length ≤ 39
  timeout : cfg.timeoutSetting.length ≤ 19
  lines : ∀ piece ∈ fgetsAll 255 template, ¬ ['#', '#'] <+: piece → cfg.LineFits (lineText piece)

/-- The time limit takes the place of what is before a tag too, but happens to be the same text. -/
def Config.SameText (cfg : Config) (line : CString) (k : ℕ) (timed : CString) : Prop :=
  if (findSub "APPEND".toList timed).isSome ∧ (findSub "TAG".toList timed).isSome then
    findSub "TAG".toList timed = some k ∧ timed.take k = line.take k
  else timed = line.take k ++ cfg.settings

/-- The tag behind `APPEND` is the first one in its line, and no time limit is before it. -/
def Config.KeepsTag (cfg : Config) (line : CString) (k : ℕ) : Prop :=
  (findSub "TAG".toList line = some k ∧ ∀ p, findSub "TIMEOUT".toList line = some p → k < p) ∨
    ∃ p < k, findSub "TIMEOUT".toList line = some p ∧ cfg.SameText line k (line.take p ++ cfg.timeoutSetting)

/-! ## What is written -/

/-- What is written for a line. -/
def Config.outText (cfg : Config) (line : CString) : CString :=
  if (findSub "APPEND".toList (cfg.retimed line)).isSome then cfg.tagged (cfg.retimed line) else cfg.retimed line

/-- What is written for what is read: nothing for a double comment. -/
def Config.outLine (cfg : Config) (piece : CString) : Option CString :=
  if ['#', '#'] <+: piece then none else some (cfg.outText (lineText piece) ++ ['\n'])

variable {cfg : Config} {console : Buffer 40} {timeout : Buffer 20} {line piece : CString} {k : ℕ}

/-! ### The texts are strings -/

namespace Config

theorem noNul_printed (cfg : Config) (v : Variable) : '\x00' ∉ cfg.printed v := by
  unfold printed
  cases hvalue : cfg.getVariable v with
  | none => decide
  | some s => exact cfg.noNul v s hvalue

theorem noNul_device (cfg : Config) : '\x00' ∉ cfg.device := by
  have hif := cfg.noNul_printed .serConsoleIf
  have hrate := cfg.noNul_printed .serConsoleRate
  unfold device
  cases hname : cfg.getVariable .serConsoleIfName with
  | none => simp_all
  | some ifname =>
      have hifname := cfg.noNul _ _ hname
      simp_all

theorem noNul_getD (cfg : Config) (v : Variable) : '\x00' ∉ (cfg.getVariable v).getD [] := by
  cases hvalue : cfg.getVariable v with
  | none => exact List.not_mem_nil
  | some s => exact cfg.noNul v s hvalue

theorem noNul_extBootParam (cfg : Config) : '\x00' ∉ cfg.extBootParam := fun hmem =>
  cfg.noNul_getD .kernelBootOptionExt ((List.dropWhile_suffix _).mem hmem)

theorem noNul_debugLog {debugLog : CString} (h : cfg.debugLog = some debugLog) : '\x00' ∉ debugLog := by
  unfold Config.debugLog at h
  split at h
  · exact cfg.noNul _ _ (Option.filter_eq_some_iff.mp h).1
  · exact nomatch h

theorem noNul_timeoutSetting (cfg : Config) : '\x00' ∉ cfg.timeoutSetting := by
  unfold timeoutSetting
  cases hvalue : cfg.getVariable .bootmenuTime with
  | none => exact show '\x00' ∉ "TIMEOUT 50".toList by decide
  | some p =>
      have hp := cfg.noNul _ _ hvalue
      dsimp only
      split_ifs
      · decide
      · simp_all
      · decide

end Config

/-! ### One step after the other -/

theorem takes_setConsole (cfg : Config) (mode : SerConsole) (t : CString) (ht : t.length < 40) :
    Buffer.Takes (setConsole cfg mode) t (Buffer.within 40
      ((if mode = .primary then "console=tty0 ".toList else []) ++ (cfg.device ++
        if mode = .secondary then " console=tty0".toList else []))) := by
  have hstart : Buffer.Takes (fun console => console.cut 0 >>= primaryConsole mode) t
      (Buffer.within 40 (if mode = .primary then "console=tty0 ".toList else [])) := by
    refine (Buffer.takes_cut ht (Nat.zero_le _)).bind (g := fun _ => _) fun s hs => ?_
    obtain rfl := Option.some.inj hs
    unfold primaryConsole
    by_cases hmode : mode = .primary
    · simp only [if_pos hmode]
      exact Buffer.takes_strcpy (by decide) _
    · simp only [if_neg hmode]
      exact Buffer.takes_some (Nat.zero_lt_succ _)
  have hend : Buffer.Appends (secondaryConsole mode)
      (if mode = .secondary then " console=tty0".toList else []) := by
    unfold secondaryConsole
    by_cases hmode : mode = .secondary
    · simp only [if_pos hmode]
      exact Buffer.appends_strcat (by decide)
    · simp only [if_neg hmode]
      exact Buffer.appends_nil
  have hall := hstart.append ((Buffer.appends_strcat cfg.noNul_device).bind hend)
  refine ⟨fun buf hbuf => ?_, hall.length_lt⟩
  rw [← hall.map_text buf hbuf, setConsole, bind_assoc]

theorem serialConsole_spec (cfg : Config) (console : Buffer 40) :
    (cfg.consoleSetting.length ≤ 39 → ∃ console' serial warnings,
      serialConsole cfg console = some (console', serial, warnings) ∧ console'.text = cfg.consoleSetting) ∧
    (¬ cfg.consoleSetting.length ≤ 39 → serialConsole cfg console = none) := by
  obtain ⟨console₀, hcut, htext⟩ : ∃ console₀, console.cut 0 = some console₀ ∧ console₀.text = [] :=
    Option.map_eq_some_iff.mp (Buffer.map_text_store console (Nat.zero_le _) (s := []) List.not_mem_nil)
  unfold serialConsole Config.consoleSetting
  rw [hcut]
  cases hmode : cfg.serConsole with
  | none => exact ⟨fun _ => ⟨console₀, [], [], rfl, htext⟩, fun hlong => absurd (Nat.zero_le _) hlong⟩
  | some mode =>
      have htakes := takes_setConsole cfg mode [] (Nat.zero_lt_succ _)
      dsimp only at *
      constructor
      · intro hshort
        rw [Buffer.within_of_lt (by omega)] at htakes
        obtain ⟨console', hset, htext'⟩ := htakes.done htext
        refine ⟨console', cfg.serialLines mode, cfg.warnings, ?_, htext'⟩
        rw [Option.bind_eq_bind, Option.bind_some, hset]
        rfl
      · intro hlong
        rw [Buffer.within_of_not_lt (by omega)] at htakes
        rw [Option.bind_eq_bind, Option.bind_some, htakes.fault htext]
        rfl

theorem map_text_setTimeout (cfg : Config) :
    (setTimeout cfg).map Buffer.text = Buffer.within 20 cfg.timeoutSetting := by
  have hnoNul := cfg.noNul_timeoutSetting
  unfold setTimeout
  unfold Config.timeoutSetting at hnoNul ⊢
  cases hvalue : cfg.getVariable .bootmenuTime with
  | none => rfl
  | some p =>
      rw [hvalue] at hnoNul
      dsimp only at hnoNul ⊢
      split_ifs at hnoNul ⊢
      · rfl
      · exact Buffer.map_text_strcpy timeoutStr hnoNul
      · exact Buffer.map_text_strcpy timeoutStr hnoNul

/-! ### A line -/

theorem withoutLineEnd_length_le (line : CString) : (withoutLineEnd line).length ≤ line.length := by
  unfold withoutLineEnd
  split
  · exact List.length_take_le' _ _
  · split
    · exact List.length_take_le' _ _
    · exact Nat.le.refl

theorem takes_cut_found {pat : CString} {p : ℕ} (hline : line.length < 256)
    (hfound : findSub pat line = some p) :
    Buffer.Takes (n := 256) (·.cut p) line (some (line.take p)) :=
  Buffer.takes_cut hline ((Nat.le_add_right _ _).trans (le_of_findSub hfound))

theorem takes_cutLineEnd (hline : line.length < 256) :
    Buffer.Takes cutLineEnd line (some (withoutLineEnd line)) := by
  unfold withoutLineEnd
  cases hcr : findSub ['\r'] line with
  | some p =>
      refine (takes_cut_found hline hcr).congr fun buf hbuf => ?_
      rw [cutLineEnd, hbuf, hcr]
  | none =>
      dsimp only
      cases hlf : findSub ['\n'] line with
      | some p =>
          refine (takes_cut_found hline hlf).congr fun buf hbuf => ?_
          rw [cutLineEnd, hbuf, hcr, hlf]
      | none =>
          refine (Buffer.takes_some hline).congr fun buf hbuf => ?_
          rw [cutLineEnd, hbuf, hcr, hlf]

theorem takes_replaceTimeout (htimeout : timeout.text = cfg.timeoutSetting) (hline : line.length < 256) :
    Buffer.Takes (replaceTimeout timeout) line (Buffer.within 256 (cfg.retimed line)) := by
  have hnoNul := cfg.noNul_timeoutSetting
  unfold Config.retimed
  cases hfound : findSub "TIMEOUT".toList line with
  | none =>
      dsimp only
      rw [Buffer.within_of_lt hline]
      refine (Buffer.takes_some hline).congr fun buf hbuf => ?_
      rw [replaceTimeout, hbuf, hfound]
  | some p =>
      have hsteps := (takes_cut_found hline hfound).bind fun s _ => Buffer.takes_strcat hnoNul s
      refine hsteps.congr fun buf hbuf => ?_
      rw [replaceTimeout, hbuf, hfound, htimeout]

theorem appends_param {param : CString} (hparam : '\x00' ∉ param) :
    Buffer.Appends (appendParam param) (Config.separated param) := by
  unfold Config.separated
  cases param with
  | nil => exact Buffer.appends_nil
  | cons c param => exact (Buffer.appends_strcat (by decide)).bind (Buffer.appends_strcat hparam)

theorem appends_debug (cfg : Config) : Buffer.Appends (appendDebug cfg) cfg.debugOptions := by
  unfold appendDebug Config.debugOptions
  cases hdebug : cfg.debugStartup with
  | false => exact Buffer.appends_nil
  | true =>
      refine (Buffer.appends_strcat (by decide)).bind ?_
      cases hlog : cfg.debugLog with
      | none => exact Buffer.appends_nil
      | some debugLog =>
          exact (Buffer.appends_strcat (by decide)).bind (Buffer.appends_strcat (cfg.noNul_debugLog hlog))

theorem appends_settings (hconsole : console.text = cfg.consoleSetting) :
    Buffer.Appends (appendSettings cfg console) cfg.settings := by
  have hnoNul : '\x00' ∉ console.text := Buffer.noNul_text console
  unfold appendSettings Config.settings
  rw [← hconsole]
  exact (Buffer.appends_strcat hnoNul).bind ((appends_param (cfg.noNul_getD _)).bind
    ((appends_param cfg.noNul_extBootParam).bind (appends_debug cfg)))

theorem takes_replaceTag (hconsole : console.text = cfg.consoleSetting) (hline : line.length < 256)
    (append : Bool) :
    Buffer.Takes (replaceTag cfg console append) line
      (Buffer.within 256 (if append then cfg.tagged line else line)) := by
  cases append with
  | false =>
      rw [if_neg Bool.false_ne_true, Buffer.within_of_lt hline]
      exact (Buffer.takes_some hline).congr fun _ _ => rfl
  | true =>
      rw [if_pos rfl]
      unfold Config.tagged
      cases hfound : findSub "TAG".toList line with
      | none =>
          dsimp only
          rw [Buffer.within_of_lt hline]
          refine (Buffer.takes_some hline).congr fun buf hbuf => ?_
          rw [replaceTag, if_pos rfl, hbuf, hfound]
      | some p =>
          have hfront : (line.take p).length < 256 := Nat.lt_of_le_of_lt (List.length_take_le' _ _) hline
          have hsteps := (takes_cut_found hline hfound).bind (g := fun _ => _) fun s hs => by
            obtain rfl := Option.some.inj hs
            exact appends_settings hconsole _ hfront
          refine hsteps.congr fun buf hbuf => ?_
          rw [replaceTag, if_pos rfl, hbuf, hfound]

/-! ### All lines -/

theorem lineFits_iff (hline : line.length < 256) :
    cfg.LineFits line ↔ (cfg.retimed line).length < 256 ∧ (cfg.outText line).length < 256 := by
  have hretimed : (cfg.retimed line).length < 256 ↔
      ∀ p, findSub "TIMEOUT".toList line = some p → p + cfg.timeoutSetting.length ≤ 255 := by
    unfold Config.retimed
    cases hfound : findSub "TIMEOUT".toList line with
    | none => exact iff_of_true hline nofun
    | some p =>
        have hle := le_of_findSub hfound
        simp only [List.length_append, Option.some.injEq, forall_eq']
        rw [List.length_take_of_le (by omega)]
        omega
  have htagged (hlt : (cfg.retimed line).length < 256) : (cfg.outText line).length < 256 ↔
      ((findSub "APPEND".toList (cfg.retimed line)).isSome →
        ∀ p, findSub "TAG".toList (cfg.retimed line) = some p → p + cfg.settings.length ≤ 255) := by
    unfold Config.outText Config.tagged
    by_cases happend : (findSub "APPEND".toList (cfg.retimed line)).isSome
    · rw [if_pos happend, forall_prop_of_true happend]
      cases hfound : findSub "TAG".toList (cfg.retimed line) with
      | none => exact iff_of_true hlt nofun
      | some p =>
          have hle := le_of_findSub hfound
          simp only [List.length_append, Option.some.injEq, forall_eq']
          rw [List.length_take_of_le (by omega)]
          omega
    · rw [if_neg happend]
      exact iff_of_true hlt fun happend' => absurd happend' happend
  constructor
  · intro hfits
    have hlt := hretimed.mpr hfits.timeout
    exact ⟨hlt, (htagged hlt).mpr hfits.tag⟩
  · rintro ⟨hlt, hlt'⟩
    exact ⟨hretimed.mp hlt, (htagged hlt).mp hlt'⟩

theorem lineText_length_lt (hpiece : piece.length ≤ 255) : (lineText piece).length < 256 := by
  have hle := withoutLineEnd_length_le (bufferText piece)
  have hle' : (bufferText piece).length ≤ piece.length := (List.takeWhile_prefix _).length_le
  rw [lineText]
  omega

theorem rewriteLine_spec (hconsole : console.text = cfg.consoleSetting)
    (htimeout : timeout.text = cfg.timeoutSetting) {buf : Buffer 256} (hbuf : buf.text = bufferText piece)
    (hpiece : piece.length ≤ 255) :
    (cfg.LineFits (lineText piece) → ∃ append buf', rewriteLine cfg console timeout buf = some (append, buf') ∧
      buf'.text = cfg.outText (lineText piece)) ∧
    (¬ cfg.LineFits (lineText piece) → rewriteLine cfg console timeout buf = none) := by
  have hlength := lineText_length_lt hpiece
  have hle : (bufferText piece).length ≤ piece.length := (List.takeWhile_prefix _).length_le
  obtain ⟨buf₁, hcut, htext₁⟩ := (takes_cutLineEnd (show (bufferText piece).length < 256 by omega)).done hbuf
  have hretime := takes_replaceTimeout htimeout hlength
  rw [lineFits_iff hlength, rewriteLine, hcut, Option.bind_eq_bind, Option.bind_some]
  by_cases hretimed : (cfg.retimed (lineText piece)).length < 256
  · rw [Buffer.within_of_lt hretimed] at hretime
    obtain ⟨buf₂, hreplaced, htext₂⟩ := hretime.done htext₁
    have htag := takes_replaceTag hconsole hretimed (findSub "APPEND".toList buf₂.text).isSome
    rw [htext₂] at htag
    rw [hreplaced, Option.bind_some, and_iff_right hretimed]
    by_cases hout : (cfg.outText (lineText piece)).length < 256
    · rw [← Config.outText, Buffer.within_of_lt hout] at htag
      obtain ⟨buf₃, htagged, htext₃⟩ := htag.done htext₂
      refine ⟨fun _ => ?_, fun hnot => absurd hout hnot⟩
      refine ⟨(findSub "APPEND".toList (cfg.retimed (lineText piece))).isSome, buf₃, ?_, htext₃⟩
      dsimp only
      rw [htext₂, htagged]
      rfl
    · rw [← Config.outText, Buffer.within_of_not_lt hout] at htag
      refine ⟨fun hfit => absurd hfit hout, fun _ => ?_⟩
      dsimp only
      rw [htext₂, htag.fault htext₂]
      rfl
  · rw [Buffer.within_of_not_lt hretimed] at hretime
    refine ⟨fun hfit => absurd hfit.1 hretimed, fun _ => ?_⟩
    rw [hretime.fault htext₁]
    rfl

theorem double_iff (piece rest : CString) :
    ['#', '#'] <+: [] ++ (piece ++ ['\x00']) ++ rest ↔ ['#', '#'] <+: piece := by
  match piece with
  | [] => simp
  | [c] => simp
  | c :: d :: piece => simp

theorem copyLines_spec (hconsole : console.text = cfg.consoleSetting)
    (htimeout : timeout.text = cfg.timeoutSetting)
    {pieces : List CString} (hpieces : ∀ piece ∈ pieces, piece.length ≤ 255) (buf : Buffer 256) :
    ((∀ piece ∈ pieces, ¬ ['#', '#'] <+: piece → cfg.LineFits (lineText piece)) →
      ∃ found, copyLines cfg console timeout pieces buf =
        some (found, pieces.map fun piece => (piece, cfg.outLine piece))) ∧
    (¬ (∀ piece ∈ pieces, ¬ ['#', '#'] <+: piece → cfg.LineFits (lineText piece)) →
      copyLines cfg console timeout pieces buf = none) := by
  induction pieces generalizing buf with
  | nil => exact ⟨fun _ => ⟨false, rfl⟩, fun hnot => absurd (by simp) hnot⟩
  | cons piece pieces ih =>
      obtain ⟨hpiece, hrest⟩ := List.forall_mem_cons.mp hpieces
      obtain ⟨buf₁, hread⟩ := Buffer.store_isSome buf 0 (piece ++ ['\x00']) (by
        rw [List.length_append, List.length_singleton]
        omega)
      have htext := Buffer.text_of_piece hread
      have hcomment : ['#', '#'] <+: buf₁.chars ↔ ['#', '#'] <+: piece := by
        rw [Buffer.chars_store hread]
        exact double_iff piece _
      rw [copyLines, hread]
      by_cases hdouble : ['#', '#'] <+: piece
      · -- a double comment is dropped, whatever its length
        obtain ⟨hfit, hnot⟩ := ih hrest buf₁
        have hout : cfg.outLine piece = none := if_pos hdouble
        have hall : (∀ p ∈ piece :: pieces, ¬ ['#', '#'] <+: p → cfg.LineFits (lineText p)) ↔
            ∀ p ∈ pieces, ¬ ['#', '#'] <+: p → cfg.LineFits (lineText p) := by
          rw [List.forall_mem_cons]
          exact and_iff_right fun hcopied => absurd hdouble hcopied
        rw [hall, Option.bind_eq_bind, Option.bind_some, if_pos (hcomment.mpr hdouble)]
        constructor
        · intro hfits
          obtain ⟨found, hcopy⟩ := hfit hfits
          refine ⟨found, ?_⟩
          rw [hcopy, List.map_cons, hout]
          rfl
        · intro hfits
          rw [hnot hfits]
          rfl
      · obtain ⟨hfit, hnot⟩ := rewriteLine_spec hconsole htimeout htext hpiece
        have hout : cfg.outLine piece = some (cfg.outText (lineText piece) ++ ['\n']) := if_neg hdouble
        rw [List.forall_mem_cons, Option.bind_eq_bind, Option.bind_some, if_neg (mt hcomment.mp hdouble),
          forall_prop_of_true hdouble]
        by_cases hfits : cfg.LineFits (lineText piece)
        · obtain ⟨append, buf₂, hrewritten, htext₂⟩ := hfit hfits
          obtain ⟨hfit', hnot'⟩ := ih hrest buf₂
          rw [and_iff_right hfits, hrewritten]
          constructor
          · intro hfits'
            obtain ⟨found, hcopy⟩ := hfit' hfits'
            refine ⟨append || found, ?_⟩
            rw [Option.bind_eq_bind, Option.bind_some]
            dsimp only
            rw [hcopy, List.map_cons, hout, ← htext₂]
            rfl
          · intro hfits'
            rw [Option.bind_eq_bind, Option.bind_some]
            dsimp only
            rw [hnot' hfits']
            rfl
        · refine ⟨fun hall => absurd hall.1 hfits, fun _ => ?_⟩
          rw [hnot hfits]
          rfl

theorem mkSyslinux_spec (cfg : Config) (fnameS fnameD template : CString)
    (console : Buffer 40) (buf : Buffer 256) :
    (TextsFit cfg template → ∃ r, mkSyslinux cfg ⟨fnameS, fnameD, .ok template, .ok ()⟩ console buf = some r ∧
      r.copied = (fgetsAll 255 template).map fun piece => (piece, cfg.outLine piece)) ∧
    (¬ TextsFit cfg template → mkSyslinux cfg ⟨fnameS, fnameD, .ok template, .ok ()⟩ console buf = none) := by
  obtain ⟨hconsole, hnoConsole⟩ := serialConsole_spec cfg console
  have htimeout := map_text_setTimeout cfg
  have hpieces : ∀ piece ∈ fgetsAll 255 template, piece.length ≤ 255 := fun piece hpiece =>
    length_le_of_mem_fgetsAll (by decide) hpiece
  dsimp only [mkSyslinux]
  by_cases hroom : cfg.consoleSetting.length ≤ 39
  · obtain ⟨console', serial, warnings, hset, htext⟩ := hconsole hroom
    simp only [hset, Option.bind_eq_bind, Option.bind_some]
    by_cases hshort : cfg.timeoutSetting.length ≤ 19
    · rw [Buffer.within_of_lt (by omega)] at htimeout
      obtain ⟨timeout, hlimit, htext'⟩ := Option.map_eq_some_iff.mp htimeout
      obtain ⟨hfit, hnot⟩ := copyLines_spec htext htext' hpieces buf
      rw [hlimit, Option.bind_some]
      constructor
      · intro hfits
        obtain ⟨found, hcopy⟩ := hfit hfits.lines
        rw [hcopy, Option.bind_some]
        refine ⟨_, rfl, ?_⟩
        dsimp only
        split <;> rfl
      · intro hfits
        rw [hnot fun hlines => hfits ⟨hroom, hshort, hlines⟩]
        rfl
    · rw [Buffer.within_of_not_lt (by omega)] at htimeout
      rw [Option.map_eq_none_iff.mp htimeout]
      exact ⟨fun hfits => absurd hfits.timeout hshort, fun _ => rfl⟩
  · rw [hnoConsole hroom]
    exact ⟨fun hfits => absurd hfits.console hroom, fun _ => rfl⟩

/-! ### The tag -/

theorem tag_behind {a j : ℕ} (happend : "APPEND".toList <+: line.drop a)
    (htag : "TAG".toList <+: (line.drop a).drop j) : 6 ≤ j := by
  by_contra hlt
  obtain ⟨rest, hrest⟩ := happend
  rw [← hrest] at htag
  have hcases : j = 0 ∨ j = 1 ∨ j = 2 ∨ j = 3 ∨ j = 4 ∨ j = 5 := by omega
  rcases hcases with rfl | rfl | rfl | rfl | rfl | rfl <;> simp at htag

theorem timeout_apart {p : ℕ} (htag : "TAG".toList <+: line.drop k) (htimeout : "TIMEOUT".toList <+: line.drop p)
    (hle : k ≤ p) : k + 3 ≤ p := by
  by_contra hlt
  obtain ⟨rest, hrest⟩ := htag
  obtain ⟨i, rfl⟩ := Nat.exists_eq_add_of_le hle
  rw [← List.drop_drop, ← hrest] at htimeout
  have hcases : i = 0 ∨ i = 1 ∨ i = 2 := by omega
  rcases hcases with rfl | rfl | rfl <;> simp at htimeout

theorem tagBehindAppend_eq_some (h : tagBehindAppend line = some k) :
    ∃ a, findSub "APPEND".toList line = some a ∧ a + 6 ≤ k ∧ k + 3 ≤ line.length ∧
      "TAG".toList <+: line.drop k := by
  obtain ⟨a, happend, hmap⟩ := Option.bind_eq_some_iff.mp h
  obtain ⟨j, htag, rfl⟩ := Option.map_eq_some_iff.mp hmap
  have hle := le_of_findSub htag
  have hle' := le_of_findSub happend
  have hstart := (findSub_eq_some.mp htag).2.1
  have hbehind := tag_behind (findSub_eq_some.mp happend).2.1 hstart
  rw [List.length_drop] at hle
  rw [List.drop_drop] at hstart
  have hlength : "TAG".toList.length = 3 := rfl
  refine ⟨a, happend, by omega, by omega, hstart⟩

theorem outText_of_apart (cfg : Config) (h : tagBehindAppend line = some k)
    (hapart : ∀ p, findSub "TIMEOUT".toList line = some p → k < p) :
    ∃ first ≤ k, findSub "TAG".toList line = some first ∧
      cfg.outText line = line.take first ++ cfg.settings := by
  obtain ⟨a, happend, hbehind, hend, htag⟩ := tagBehindAppend_eq_some h
  obtain ⟨first, hfirst, hfound⟩ := findSub_le htag
  have hlength : "TAG".toList.length = 3 := rfl
  have hlength' : "APPEND".toList.length = 6 := rfl
  -- the characters up to the end of the tag stay
  have hsame : ∃ m, k + 3 ≤ m ∧ m ≤ line.length ∧ m ≤ (cfg.retimed line).length ∧
      line.take m = (cfg.retimed line).take m := by
    unfold Config.retimed
    cases htimeout : findSub "TIMEOUT".toList line with
    | none => exact ⟨line.length, by omega, Nat.le.refl, Nat.le.refl, rfl⟩
    | some p =>
        have hle := le_of_findSub htimeout
        have hfar := timeout_apart htag (findSub_eq_some.mp htimeout).2.1 (Nat.le_of_lt (hapart p htimeout))
        refine ⟨p, hfar, by omega, ?_, ?_⟩
        · rw [List.length_append, List.length_take_of_le (by omega)]
          exact Nat.le_add_right _ _
        · rw [List.take_left' (List.length_take_of_le (by omega))]
  obtain ⟨m, hm, hline, hretimed, htake⟩ := hsame
  have happend' := findSub_congr htake hretimed (by omega) happend
  have hfound' := findSub_congr htake hretimed (by omega) hfound
  refine ⟨first, hfirst, hfound, ?_⟩
  have hfront := congrArg (List.take first) htake
  rw [List.take_take, List.take_take, Nat.min_eq_left (by omega)] at hfront
  rw [Config.outText, happend', Option.isSome_some, if_pos rfl, Config.tagged, hfound', hfront]

theorem outText_eq_iff {timed : CString} (hretimed : cfg.retimed line = timed) (hk : k ≤ line.length) :
    cfg.outText line = line.take k ++ cfg.settings ↔ cfg.SameText line k timed := by
  unfold Config.outText Config.tagged Config.SameText
  rw [hretimed]
  cases happend : findSub "APPEND".toList timed with
  | none =>
      simp
  | some a =>
      cases htag : findSub "TAG".toList timed with
      | none => simp
      | some p =>
          have hle := le_of_findSub htag
          simp only [Option.isSome_some, if_true, and_self, Option.some.injEq, List.append_cancel_right_eq]
          constructor
          · intro htake
            have hlength := congrArg List.length htake
            rw [List.length_take_of_le (by omega), List.length_take_of_le hk] at hlength
            exact ⟨hlength, hlength ▸ htake⟩
          · rintro ⟨rfl, htake⟩
            exact htake

theorem outText_iff (h : tagBehindAppend line = some k) :
    cfg.outText line = line.take k ++ cfg.settings ↔ cfg.KeepsTag line k := by
  obtain ⟨-, -, -, hend, htag⟩ := tagBehindAppend_eq_some h
  by_cases hapart : ∀ p, findSub "TIMEOUT".toList line = some p → k < p
  · obtain ⟨first, hfirst, hfound, hout⟩ := outText_of_apart cfg h hapart
    rw [hout, List.append_cancel_right_eq]
    constructor
    · intro htake
      have hlength := congrArg List.length htake
      rw [List.length_take_of_le (by omega), List.length_take_of_le (by omega)] at hlength
      exact .inl ⟨hlength ▸ hfound, hapart⟩
    · rintro (⟨htag', -⟩ | ⟨p, hp, htimeout, -⟩)
      · rw [Option.some.inj (hfound.symm.trans htag')]
      · exact absurd (hapart p htimeout) (by omega)
  · simp only [not_forall] at hapart
    obtain ⟨p, htimeout, hp⟩ := hapart
    -- a tag and a time limit do not begin at one place
    have hlt : p < k := by
      rcases Nat.lt_or_eq_of_le (Nat.le_of_not_lt hp) with hlt | rfl
      · exact hlt
      · have hfar := timeout_apart htag (findSub_eq_some.mp htimeout).2.1 Nat.le.refl
        omega
    have hretimed : cfg.retimed line = line.take p ++ cfg.timeoutSetting := by
      rw [Config.retimed, htimeout]
    rw [outText_eq_iff hretimed (by omega)]
    constructor
    · exact fun hsame => .inr ⟨p, hlt, htimeout, hsame⟩
    · rintro (⟨-, hapart⟩ | ⟨p', -, htimeout', hsame⟩)
      · exact absurd (hapart p htimeout) hp
      · obtain rfl := Option.some.inj (htimeout.symm.trans htimeout')
        exact hsame

/-! ## When everything is written -/

/-- No array is left and every tag is replaced in full just if there is room for all texts, every tag is the
first one in its line, and no time limit is before it. -/
theorem mkSyslinux_iff (cfg : Config) (fnameS fnameD template : CString)
    (console : Buffer 40) (buf : Buffer 256) :
    (∃ r, mkSyslinux cfg ⟨fnameS, fnameD, .ok template, .ok ()⟩ console buf = some r ∧
      ReplacesTags cfg template r) ↔
    TextsFit cfg template ∧ ∀ line ∈ fileLines template, ∀ k, TagAt line k → cfg.KeepsTag (lineText line) k := by
  obtain ⟨hfit, hnot⟩ := mkSyslinux_spec cfg fnameS fnameD template console buf
  constructor
  · rintro ⟨r, hrun, hreplaces⟩
    have hfits : TextsFit cfg template := by
      by_contra hfits
      rw [hnot hfits] at hrun
      exact nomatch hrun
    obtain ⟨r', hrun', hcopied⟩ := hfit hfits
    obtain rfl := Option.some.inj (hrun.symm.trans hrun')
    refine ⟨hfits, fun line hline k htag => ?_⟩
    obtain ⟨past, rest, hsplit⟩ := List.append_of_mem hline
    obtain ⟨before, after, hwritten, -⟩ := hreplaces past line rest hsplit k htag
    rw [hcopied] at hwritten
    have hmem : (line, some ((lineText line).take k ++ cfg.settings ++ ['\n'])) ∈
        (fgetsAll 255 template).map fun piece => (piece, cfg.outLine piece) := by
      rw [hwritten]
      exact List.mem_append_right _ List.mem_cons_self
    obtain ⟨piece, -, hpair⟩ := List.mem_map.mp hmem
    obtain ⟨rfl, hout⟩ := Prod.mk.inj hpair
    rw [Config.outLine, if_neg htag.copied] at hout
    exact (outText_iff htag.tag).mp (List.append_cancel_right (Option.some.inj hout))
  · rintro ⟨hfits, hkeeps⟩
    obtain ⟨r, hrun, hcopied⟩ := hfit hfits
    refine ⟨r, hrun, fun past line rest hsplit k htag => ?_⟩
    have hline : line ∈ fileLines template := hsplit ▸ List.mem_append_right past List.mem_cons_self
    have hout := (outText_iff htag.tag).mpr (hkeeps line hline k htag)
    obtain ⟨before, after, hpieces, hpast⟩ := fgetsAll_of_fileLines hsplit (Nat.lt_succ_of_le htag.length_le)
    rw [hcopied, hpieces, List.map_append, List.map_cons, Config.outLine, if_neg htag.copied, hout]
    refine ⟨_, _, rfl, ?_⟩
    rw [List.map_map]
    exact (congrArg List.flatten (List.map_id before)).trans hpast

/-- A configuration in which only the boot options are set. -/
def bootOptions (options : CString) (hoptions : '\x00' ∉ options) : Config where
  getVariable
    | .kernelBootOption => some options
    | _ => none
  noNul v s hs := by
    cases v with
    | kernelBootOption => exact Option.some.inj hs ▸ hoptions
    | _ => exact nomatch hs

/-- An array with nothing in it. -/
def emptyBuffer (n : ℕ) : Buffer n := ⟨List.replicate n '\x00', List.length_replicate⟩

/-- Boot options that fill the array with the text before the tag. -/
def longOptions : Config :=
  bootOptions (List.replicate 248 'x') fun hmem => absurd (List.eq_of_mem_replicate hmem) (by decide)

/-- A line with a time limit in front of its tag. -/
def timedLine : CString := "TIMEOUT 5 APPEND TAG\n".toList

/-- Boot options that are too long, and a time limit in front of the tag. -/
theorem mkSyslinux_fails :
    (¬ ∃ r, mkSyslinux longOptions ⟨[], [], .ok "APPEND TAG\n".toList, .ok ()⟩ (emptyBuffer 40)
      (emptyBuffer 256) = some r ∧ ReplacesTags longOptions "APPEND TAG\n".toList r) ∧
    ¬ ∃ r, mkSyslinux (bootOptions ['x'] (by decide)) ⟨[], [], .ok timedLine, .ok ()⟩ (emptyBuffer 40)
      (emptyBuffer 256) = some r ∧ ReplacesTags (bootOptions ['x'] (by decide)) timedLine r := by
  constructor
  · rintro ⟨r, hrun, -⟩
    have hnone : (mkSyslinux longOptions ⟨[], [], .ok "APPEND TAG\n".toList, .ok ()⟩ (emptyBuffer 40)
      (emptyBuffer 256)).isNone = true := by decide +kernel
    rw [hrun] at hnone
    exact nomatch hnone
  · rintro ⟨r, hrun, hreplaces⟩
    have htag : TagAt timedLine 17 := ⟨by decide, by decide, by decide +kernel⟩
    obtain ⟨before, after, hwritten, -⟩ := hreplaces [] timedLine [] (by decide) 17 htag
    have hcopied : (mkSyslinux (bootOptions ['x'] (by decide)) ⟨[], [], .ok timedLine, .ok ()⟩ (emptyBuffer 40)
        (emptyBuffer 256)).map Result.copied =
          some [(timedLine, some "TIMEOUT 50\n".toList)] := by decide +kernel
    rw [hrun, Option.map_some, hwritten] at hcopied
    have hmem : (timedLine, some ((lineText timedLine).take 17 ++ (bootOptions ['x'] (by decide)).settings ++
        ['\n'])) ∈ [(timedLine, some "TIMEOUT 50\n".toList)] := by
      rw [← Option.some.inj hcopied]
      exact List.mem_append_right before List.mem_cons_self
    exact absurd (List.mem_singleton.mp hmem) (by decide +kernel)

end Syslinux
end Mkfli4l
