import Mkfli4l.Lib.Buffers
import Mkfli4l.Lib.Numerals
import Mkfli4l.Telmond.Tables

/-!
# Commands for incoming calls

`record_call` runs the commands that are configured for a number, with the date, the time and the numbers
put in for the placeholders.  Two cursors go through the template and through a buffer of 512 characters,
and neither is checked.  A percent sign at the end takes the first one behind the end of the template, and
long numbers take the second one behind the end of the buffer: `recordCall_iff` says when none of this
happens.
-/

namespace Mkfli4l
namespace Telmond

open Lib

/-! ## The program -/

/-- A local time, with a year of four digits. -/
structure Tm where
  year : ℕ
  mon : ℕ
  mday : ℕ
  hour : ℕ
  min : ℕ
  sec : ℕ
  year_lt : year < 10000
  mon_le : mon ≤ 12
  mday_le : mday ≤ 31
  hour_lt : hour < 24
  min_lt : min < 60
  sec_le : sec ≤ 60

namespace Tm

/-- A number with leading zeros. -/
def field (width n : ℕ) : CString := (paddedDigits 10 width n).map Nat.digitChar

/-- The date. -/
def date (tm : Tm) : CString := field 4 tm.year ++ '/' :: field 2 tm.mon ++ '/' :: field 2 tm.mday

/-- The time of day. -/
def time (tm : Tm) : CString := field 2 tm.hour ++ ':' :: field 2 tm.min ++ ':' :: field 2 tm.sec

def dateTime (tm : Tm) : CString := tm.date ++ ' ' :: tm.time

end Tm

/-- What `record_call` remembers of the last call. -/
structure Globals where
  lastNow : ℤ
  dateTimeStamp : CString
  caller : CString
  myPhone : CString

/-- The buffer for a command. -/
abbrev ExecBuffer := Buffer 512

/-- `strncpy`, which fills up with NUL characters. -/
def strncpy (buf : ExecBuffer) (t : ℕ) (src : CString) (n : ℕ) : Option ExecBuffer :=
  buf.store t (src.take n ++ List.replicate (n - src.length) '\x00')

/-- `strcpy`, with the terminating NUL character. -/
def strcpy (buf : ExecBuffer) (t : ℕ) (src : CString) : Option ExecBuffer := buf.store t (src ++ ['\x00'])

/-- The `switch` over the character behind a percent sign, with the cursor behind what is stored. -/
def placeholder (g : Globals) (myPhone : CString) (c : Char) (t : ℕ) (buf : ExecBuffer) :
    Option (ℕ × ExecBuffer) :=
  match c with
  | 'd' => (strncpy buf t g.dateTimeStamp 10).map fun buf => (t + 10, buf)
  | 't' => (strncpy buf t (g.dateTimeStamp.drop 11) 8).map fun buf => (t + 8, buf)
  | 'p' => (strcpy buf t g.caller).map fun buf => (t + g.caller.length, buf)
  | 'm' => (strcpy buf t myPhone).map fun buf => (t + myPhone.length, buf)
  | '%' => (buf.store t ['%']).map fun buf => (t + 1, buf)
  | c => (buf.store t ['%', c]).map fun buf => (t + 2, buf)

/-- The loop over the template, from the cursor up to the terminating NUL character.  Behind that there is
nothing to be read. -/
def expandLoop (g : Globals) (myPhone : CString) : List Char → ℕ → ExecBuffer → Option (ℕ × ExecBuffer)
  | [], _, _ => none
  | '\x00' :: _, t, buf => some (t, buf)
  | ['%'], _, _ => none
  | '%' :: c :: s, t, buf => (placeholder g myPhone c t buf).bind fun (t, buf) => expandLoop g myPhone s t buf
  | c :: s, t, buf => (buf.store t [c]).bind fun buf => expandLoop g myPhone s (t + 1) buf

/-- The command for a template, built in a buffer. -/
def expand (g : Globals) (myPhone : CString) (template : CString) (buf : ExecBuffer) : Option CString :=
  (expandLoop g myPhone (template ++ ['\x00']) 0 buf).bind fun (t, buf) => (buf.store t ['\x00']).map Buffer.text

/-- What `record_call` does outside: it writes the call to the log files, and runs commands. -/
inductive Effect
  | doLog (stamp caller myPhone : CString)
  | system (execCmd : CString)

/-- The entry is meant for the call. -/
def ExecEntry.Matches (caller myPhone : CString) (e : ExecEntry) : Prop :=
  e.msn = myPhone ∧ (e.caller = ['*'] ∨ e.caller = caller)

instance (caller myPhone : CString) (e : ExecEntry) : Decidable (e.Matches caller myPhone) :=
  inferInstanceAs (Decidable (_ ∧ _))

/-- The loop over `exec_list`.  The buffer of a round holds anything at first. -/
def execLoop (g : Globals) (caller myPhone : CString) (stack : ℕ → ExecBuffer) :
    ℕ → List ExecEntry → Option (List Effect)
  | _, [] => some []
  | i, e :: entries =>
      if e.Matches caller myPhone then
        (expand g myPhone e.execCmd (stack i)).bind fun execCmd =>
          (execLoop g caller myPhone stack (i + 1) entries).map fun effects => .system execCmd :: effects
      else execLoop g caller myPhone stack (i + 1) entries

def minimumCallTimeDifference : ℤ := 4

/-- The same call again. -/
def Globals.Repeated (g : Globals) (now : ℤ) (caller myPhone : CString) : Prop :=
  now - g.lastNow < minimumCallTimeDifference ∧ g.caller = caller ∧ g.myPhone = myPhone

instance (g : Globals) (now : ℤ) (caller myPhone : CString) : Decidable (g.Repeated now caller myPhone) :=
  inferInstanceAs (Decidable (_ ∧ _))

/-- What is remembered of a call. -/
def remember (now : ℤ) (tm : Tm) (caller myPhone : CString) : Globals :=
  ⟨now, tm.dateTime, caller.take 31, myPhone.take 31⟩

/-- `record_call`, if there is a directory for the log files or not; there is no result if a cursor goes
too far. -/
def recordCall (t : Tables) (logDirectory : Bool) (stack : ℕ → ExecBuffer) (g : Globals) (now : ℤ) (tm : Tm)
    (caller myPhone : CString) : Option (Globals × List Effect) :=
  if g.Repeated now caller myPhone then some (g, [])
  else
    let g := remember now tm caller myPhone
    let logged := if logDirectory then [.doLog tm.dateTime caller myPhone] else []
    (execLoop g caller myPhone stack 0 t.execEntries).map fun effects => (g, logged ++ effects)

/-! ## What it is for -/

/-- A template with the placeholders replaced. -/
def substitute (date time caller myPhone : CString) : CString → CString
  | '%' :: 'd' :: s => date ++ substitute date time caller myPhone s
  | '%' :: 't' :: s => time ++ substitute date time caller myPhone s
  | '%' :: 'p' :: s => caller ++ substitute date time caller myPhone s
  | '%' :: 'm' :: s => myPhone ++ substitute date time caller myPhone s
  | '%' :: '%' :: s => '%' :: substitute date time caller myPhone s
  | c :: s => c :: substitute date time caller myPhone s
  | [] => []

/-- The commands that are run. -/
def commands (effects : List Effect) : List CString :=
  effects.filterMap fun
    | .system execCmd => some execCmd
    | .doLog .. => none

/-- The commands for a call. -/
def commandsFor (t : Tables) (tm : Tm) (caller myPhone : CString) : List CString :=
  (t.execEntries.filter fun e => e.Matches caller myPhone).map fun e =>
    substitute tm.date tm.time caller myPhone e.execCmd

/-- The commands for a call are run with the placeholders replaced, unless it is the same call again. -/
def RunsCommands (t : Tables) (logDirectory : Bool) (stack : ℕ → ExecBuffer) (g : Globals) (now : ℤ) (tm : Tm)
    (caller myPhone : CString) : Prop :=
  ∃ g' effects, recordCall t logDirectory stack g now tm caller myPhone = some (g', effects) ∧
    commands effects = if g.Repeated now caller myPhone then [] else commandsFor t tm caller myPhone

/-! ## When it does so -/

/-- The number of percent signs at the end. -/
def percentTail (template : CString) : ℕ := (template.reverse.takeWhile (· = '%')).length

/-- Every percent sign at the end has another one beside it, and the command fits into the buffer. -/
structure TemplateFits (tm : Tm) (caller myPhone template : CString) : Prop where
  percent : Even (percentTail template)
  length : (substitute tm.date tm.time caller myPhone template).length < 512

/-! ### The parts of the time stamp -/

namespace Tm

theorem length_field {width n : ℕ} (h : n < 10 ^ width) : (field width n).length = width := by
  have hlength : (printPadded 10 width n).length = width := length_printPadded (by decide) h
  rw [printPadded, List.length_map] at hlength
  rw [field, List.length_map, hlength]

theorem noNul_field (width n : ℕ) : '\x00' ∉ field width n := by
  intro hmem
  obtain ⟨d, hd, hchar⟩ := List.mem_map.mp hmem
  have hlt := mem_paddedDigits (by decide) hd
  interval_cases d <;> exact absurd hchar (by decide)

theorem length_date (tm : Tm) : tm.date.length = 10 := by
  have hmon := tm.mon_le
  have hmday := tm.mday_le
  unfold date
  simp only [List.length_append, List.length_cons]
  rw [length_field tm.year_lt, length_field (by omega), length_field (by omega)]

theorem length_time (tm : Tm) : tm.time.length = 8 := by
  have hhour := tm.hour_lt
  have hmin := tm.min_lt
  have hsec := tm.sec_le
  unfold time
  simp only [List.length_append, List.length_cons]
  rw [length_field (by omega), length_field (by omega), length_field (by omega)]

theorem noNul_date (tm : Tm) : '\x00' ∉ tm.date := by
  unfold date
  simp [noNul_field]

theorem noNul_time (tm : Tm) : '\x00' ∉ tm.time := by
  unfold time
  simp [noNul_field]

end Tm

/-! ### Percent signs -/

theorem percentTail_cons (c : Char) (s : CString) :
    percentTail (c :: s) = if percentTail s = s.length ∧ c = '%' then percentTail s + 1 else percentTail s := by
  unfold percentTail
  rw [List.reverse_cons, List.takeWhile_append, List.length_reverse]
  by_cases hall : (s.reverse.takeWhile (· = '%')).length = s.length
  · rw [if_pos hall, List.length_append, List.length_reverse, hall]
    by_cases hc : c = '%'
    · rw [if_pos ⟨rfl, hc⟩, List.takeWhile_cons_of_pos (by simpa using hc)]
      rfl
    · rw [if_neg fun h => hc h.2, List.takeWhile_cons_of_neg (by simpa using hc)]
      rfl
  · rw [if_neg hall, if_neg fun h => hall h.1]

theorem percentTail_le (s : CString) : percentTail s ≤ s.length := by
  have hle := (List.takeWhile_sublist (· = '%') (l := s.reverse)).length_le
  rwa [List.length_reverse] at hle

theorem percentTail_other {c : Char} (hc : c ≠ '%') (s : CString) : percentTail (c :: s) = percentTail s := by
  rw [percentTail_cons, if_neg fun h => hc h.2]

theorem even_percentTail_pair (c : Char) (s : CString) :
    Even (percentTail ('%' :: c :: s)) ↔ Even (percentTail s) := by
  have hle := percentTail_le s
  rw [percentTail_cons, percentTail_cons, List.length_cons]
  by_cases hall : percentTail s = s.length ∧ c = '%'
  · rw [if_pos hall, if_pos ⟨by omega, rfl⟩, Nat.even_add_one, Nat.even_add_one, not_not]
  · rw [if_neg hall, if_neg (by omega)]

/-! ### A placeholder -/

section template

variable {tm : Tm} {now : ℤ} {caller myPhone s : CString} {t t' : ℕ} {buf buf' : ExecBuffer}

/-- What stands for a placeholder. -/
def placeholderText (tm : Tm) (caller myPhone : CString) (c : Char) : CString :=
  match c with
  | 'd' => tm.date
  | 't' => tm.time
  | 'p' => caller
  | 'm' => myPhone
  | '%' => ['%']
  | c => ['%', c]

theorem substitute_pair (tm : Tm) (caller myPhone : CString) (c : Char) (s : CString) :
    substitute tm.date tm.time caller myPhone ('%' :: c :: s) =
      placeholderText tm caller myPhone c ++ substitute tm.date tm.time caller myPhone s := by
  unfold placeholderText
  split
  · rfl
  · rfl
  · rfl
  · rfl
  · rfl
  · next hd ht hp hm hpercent =>
    rw [substitute, substitute]
    · rfl
    all_goals simp_all

theorem substitute_other {c : Char} (hc : c ≠ '%') (s : CString) :
    substitute tm.date tm.time caller myPhone (c :: s) =
      c :: substitute tm.date tm.time caller myPhone s := by
  rw [substitute]
  all_goals simp_all

/-- A placeholder is stored with no more than one character behind it, the terminating NUL. -/
theorem placeholder_eq (tm : Tm) (now : ℤ) (myPhone : CString) (hcaller : caller.length ≤ 31) (c : Char) (t : ℕ)
    (buf : ExecBuffer) :
    ∃ more : CString, more.length ≤ 1 ∧ placeholder (remember now tm caller myPhone) myPhone c t buf =
      (buf.store t (placeholderText tm caller myPhone c ++ more)).map fun buf =>
        (t + (placeholderText tm caller myPhone c).length, buf) := by
  have hdate := tm.length_date
  have htime := tm.length_time
  have hstamp : tm.dateTime.length = 19 := by
    rw [Tm.dateTime, List.length_append, List.length_cons, hdate, htime]
  unfold placeholder
  split
  · refine ⟨[], Nat.zero_le 1, ?_⟩
    have htext : placeholderText tm caller myPhone 'd' = tm.date := rfl
    have hstored : tm.dateTime.take 10 ++ List.replicate (10 - tm.dateTime.length) '\x00' = tm.date := by
      rw [hstamp, List.replicate_zero, List.append_nil, Tm.dateTime,
        List.take_append_of_le_length hdate.ge, List.take_of_length_le hdate.le]
    dsimp only [remember]
    rw [htext, strncpy, List.append_nil, hdate, hstored]
  · refine ⟨[], Nat.zero_le 1, ?_⟩
    have htext : placeholderText tm caller myPhone 't' = tm.time := rfl
    have hdrop : tm.dateTime.drop 11 = tm.time := by
      have hsplit : tm.dateTime = (tm.date ++ [' ']) ++ tm.time := by
        rw [Tm.dateTime, List.append_assoc]
        rfl
      rw [hsplit]
      exact List.drop_left' (by rw [List.length_append, hdate]; rfl)
    have hstored : tm.time.take 8 ++ List.replicate (8 - tm.time.length) '\x00' = tm.time := by
      rw [htime, List.replicate_zero, List.append_nil, List.take_of_length_le htime.le]
    dsimp only [remember]
    rw [htext, strncpy, List.append_nil, htime, hdrop, hstored]
  · refine ⟨['\x00'], le_refl 1, ?_⟩
    have htext : placeholderText tm caller myPhone 'p' = caller := rfl
    dsimp only [remember]
    rw [htext, strcpy, List.take_of_length_le hcaller]
  · refine ⟨['\x00'], le_refl 1, ?_⟩
    have htext : placeholderText tm caller myPhone 'm' = myPhone := rfl
    rw [htext, strcpy]
  · refine ⟨[], Nat.zero_le 1, ?_⟩
    have htext : placeholderText tm caller myPhone '%' = ['%'] := rfl
    rw [htext, List.append_nil, List.length_singleton]
  · next hd ht hp hm hpercent =>
    refine ⟨[], Nat.zero_le 1, ?_⟩
    have htext : placeholderText tm caller myPhone c = ['%', c] := by
      unfold placeholderText
      split
      · exact absurd rfl hd
      · exact absurd rfl ht
      · exact absurd rfl hp
      · exact absurd rfl hm
      · exact absurd rfl hpercent
      · rfl
    rw [htext, List.append_nil]
    rfl

theorem placeholder_spec (tm : Tm) (now : ℤ) (myPhone : CString) (hcaller : caller.length ≤ 31)
    (c : Char) (t : ℕ)
    (buf : ExecBuffer) :
    (t + (placeholderText tm caller myPhone c).length < 512 →
      ∃ t' buf', placeholder (remember now tm caller myPhone) myPhone c t buf = some (t', buf')) ∧
    ∀ t' buf', placeholder (remember now tm caller myPhone) myPhone c t buf = some (t', buf') →
      t' = t + (placeholderText tm caller myPhone c).length ∧
        buf'.chars.take t' = buf.chars.take t ++ placeholderText tm caller myPhone c := by
  obtain ⟨more, hmore, hstore⟩ := placeholder_eq tm now myPhone hcaller c t buf
  rw [hstore]
  constructor
  · intro hroom
    obtain ⟨buf', hbuf'⟩ := Buffer.store_isSome buf t
      (placeholderText tm caller myPhone c ++ more) (by rw [List.length_append]; omega)
    rw [hbuf']
    exact ⟨_, _, rfl⟩
  · intro t' buf' h
    obtain ⟨buf₁, hbuf₁, hpair⟩ := Option.map_eq_some_iff.mp h
    obtain ⟨rfl, rfl⟩ := Prod.mk.inj hpair
    exact ⟨rfl, Buffer.take_store_append hbuf₁⟩

/-! ### The loop over a template -/

/-- The loop ends if every percent sign at the end has another one beside it and there is room for the
text; when it ends, the text is in the buffer and the cursor is behind it. -/
theorem expandLoop_spec (tm : Tm) (now : ℤ) (myPhone : CString) (hcaller : caller.length ≤ 31)
    (hnoNul : '\x00' ∉ s) (t : ℕ) (buf : ExecBuffer) :
    (Even (percentTail s) → t + (substitute tm.date tm.time caller myPhone s).length < 512 →
      ∃ t' buf', expandLoop (remember now tm caller myPhone) myPhone (s ++ ['\x00']) t buf = some (t', buf')) ∧
    ∀ t' buf', expandLoop (remember now tm caller myPhone) myPhone (s ++ ['\x00']) t buf = some (t', buf') →
      Even (percentTail s) ∧ t' = t + (substitute tm.date tm.time caller myPhone s).length ∧
        buf'.chars.take t' = buf.chars.take t ++ substitute tm.date tm.time caller myPhone s := by
  induction hlen : s.length using Nat.strong_induction_on generalizing s t buf with
  | _ len ih =>
    cases s with
    | nil =>
        refine ⟨fun _ _ => ⟨t, buf, rfl⟩, ?_⟩
        intro t' buf' h
        obtain ⟨rfl, rfl⟩ := Prod.mk.inj (Option.some.inj h)
        exact ⟨⟨0, rfl⟩, rfl, (List.append_nil _).symm⟩
    | cons c s =>
        have hnoNul' : '\x00' ∉ s := fun hmem => hnoNul (List.mem_cons_of_mem c hmem)
        rw [List.length_cons] at hlen
        by_cases hc : c = '%'
        · subst hc
          cases s with
          | nil =>
              -- the NUL character is taken for a placeholder, and what follows it is read
              refine ⟨fun heven => absurd heven (by decide), ?_⟩
              intro t' buf' h
              obtain ⟨_, _, hend⟩ := Option.bind_eq_some_iff.mp h
              exact nomatch hend
          | cons c s =>
              have hnoNul' : '\x00' ∉ s := fun hmem => hnoNul' (List.mem_cons_of_mem c hmem)
              obtain ⟨hroom, hstored⟩ := placeholder_spec tm now myPhone hcaller c t buf
              rw [List.length_cons] at hlen
              rw [even_percentTail_pair, substitute_pair, List.length_append]
              constructor
              · intro heven hfit
                obtain ⟨t₁, buf₁, hfirst⟩ := hroom (by omega)
                have ht₁ := (hstored t₁ buf₁ hfirst).1
                obtain ⟨t', buf', hrest⟩ := (ih s.length (by omega) hnoNul' t₁ buf₁ rfl).1 heven (by omega)
                exact ⟨t', buf', Option.bind_eq_some_iff.mpr ⟨_, hfirst, hrest⟩⟩
              · intro t' buf' h
                obtain ⟨⟨t₁, buf₁⟩, hfirst, hrest⟩ := Option.bind_eq_some_iff.mp h
                obtain ⟨ht₁, htake⟩ := hstored t₁ buf₁ hfirst
                obtain ⟨heven, ht', htake'⟩ := (ih s.length (by omega) hnoNul' t₁ buf₁ rfl).2 t' buf' hrest
                exact ⟨heven, by omega, by rw [htake', htake, List.append_assoc]⟩
        · have hloop : expandLoop (remember now tm caller myPhone) myPhone (c :: s ++ ['\x00']) t buf =
              (buf.store t [c]).bind fun buf =>
                expandLoop (remember now tm caller myPhone) myPhone (s ++ ['\x00']) (t + 1) buf := by
            have hnul : c ≠ '\x00' := fun heq => hnoNul (heq ▸ List.mem_cons_self)
            rw [List.cons_append, expandLoop]
            · exact hnul
            · exact fun h => absurd h hc
            · exact fun _ _ h => absurd h hc
          rw [hloop, percentTail_other hc, substitute_other hc, List.length_cons]
          constructor
          · intro heven hfit
            obtain ⟨buf₁, hfirst⟩ := Buffer.store_isSome buf t [c] (by
              rw [List.length_singleton]
              omega)
            obtain ⟨t', buf', hrest⟩ := (ih s.length (by omega) hnoNul' (t + 1) buf₁ rfl).1 heven (by omega)
            exact ⟨t', buf', Option.bind_eq_some_iff.mpr ⟨buf₁, hfirst, hrest⟩⟩
          · intro t' buf' h
            obtain ⟨buf₁, hfirst, hrest⟩ := Option.bind_eq_some_iff.mp h
            have htake : buf₁.chars.take (t + 1) = buf.chars.take t ++ [c] := Buffer.take_store hfirst
            obtain ⟨heven, rfl, htake'⟩ := (ih s.length (by omega) hnoNul' (t + 1) buf₁ rfl).2 t' buf' hrest
            exact ⟨heven, by omega, by rw [htake', htake, List.append_assoc]; rfl⟩

/-! ### A command -/

theorem noNul_substitute (tm : Tm) (hcaller : '\x00' ∉ caller) (hphone : '\x00' ∉ myPhone)
    (hnoNul : '\x00' ∉ s) :
    '\x00' ∉ substitute tm.date tm.time caller myPhone s := by
  have hdate := tm.noNul_date
  have htime := tm.noNul_time
  fun_induction substitute tm.date tm.time caller myPhone s <;> simp_all

theorem expand_iff (tm : Tm) (now : ℤ) (hlength : caller.length ≤ 31) (hcaller : '\x00' ∉ caller)
    (hphone : '\x00' ∉ myPhone) (hnoNul : '\x00' ∉ s) (buf : ExecBuffer) (execCmd : CString) :
    expand (remember now tm caller myPhone) myPhone s buf = some execCmd ↔
      TemplateFits tm caller myPhone s ∧ execCmd = substitute tm.date tm.time caller myPhone s := by
  obtain ⟨hroom, hstored⟩ := expandLoop_spec tm now myPhone hlength hnoNul 0 buf
  have htext := noNul_substitute tm hcaller hphone hnoNul
  unfold expand
  constructor
  · intro h
    obtain ⟨⟨t, buf₁⟩, hloop, hend⟩ := Option.bind_eq_some_iff.mp h
    obtain ⟨buf₂, hterminated, rfl⟩ := Option.map_eq_some_iff.mp hend
    obtain ⟨heven, ht, htake⟩ := hstored t buf₁ hloop
    have hle := Buffer.le_of_store hterminated
    rw [List.take_zero, List.nil_append] at htake
    rw [List.length_singleton, ht, zero_add] at hle
    exact ⟨⟨heven, hle⟩, (Buffer.text_of_terminated hterminated (htake ▸ htext)).trans htake⟩
  · rintro ⟨hfits, rfl⟩
    obtain ⟨t, buf₁, hloop⟩ := hroom hfits.percent (by rw [zero_add]; exact hfits.length)
    obtain ⟨-, ht, htake⟩ := hstored t buf₁ hloop
    have hlt := hfits.length
    obtain ⟨buf₂, hterminated⟩ := Buffer.store_isSome buf₁ t ['\x00'] (by
      rw [List.length_singleton]
      omega)
    rw [List.take_zero, List.nil_append] at htake
    rw [hloop, Option.bind_some]
    dsimp only
    rw [hterminated, Option.map_some, Buffer.text_of_terminated hterminated (htake ▸ htext), htake]

theorem execLoop_iff (tm : Tm) (now : ℤ) (hlength : caller.length ≤ 31) (hcaller : '\x00' ∉ caller)
    (hphone : '\x00' ∉ myPhone) (stack : ℕ → ExecBuffer) (i : ℕ) (entries : List ExecEntry)
    (hnoNul : ∀ e ∈ entries, '\x00' ∉ e.execCmd) :
    (∃ effects, execLoop (remember now tm caller myPhone) caller myPhone stack i entries = some effects ∧
      commands effects = (entries.filter fun e => e.Matches caller myPhone).map fun e =>
        substitute tm.date tm.time caller myPhone e.execCmd) ↔
    ∀ e ∈ entries, e.Matches caller myPhone → TemplateFits tm caller myPhone e.execCmd := by
  induction entries generalizing i with
  | nil => exact iff_of_true ⟨[], rfl, rfl⟩ fun e he => nomatch he
  | cons e entries ih =>
      obtain ⟨hfirst, hrest⟩ := List.forall_mem_cons.mp hnoNul
      have hexpand := expand_iff tm now hlength hcaller hphone hfirst (stack i)
      specialize ih (i + 1) hrest
      rw [List.forall_mem_cons, ← ih, execLoop]
      by_cases hmatches : e.Matches caller myPhone
      · rw [if_pos hmatches, List.filter_cons_of_pos (by simpa using hmatches), List.map_cons]
        constructor
        · rintro ⟨effects, hrun, hcommands⟩
          obtain ⟨execCmd, hcmd, hmore⟩ := Option.bind_eq_some_iff.mp hrun
          obtain ⟨effects', hloop, rfl⟩ := Option.map_eq_some_iff.mp hmore
          exact ⟨fun _ => ((hexpand execCmd).mp hcmd).1, effects', hloop, (List.cons.inj hcommands).2⟩
        · rintro ⟨hfits, effects, hloop, hcommands⟩
          have hcmd := (hexpand _).mpr ⟨hfits hmatches, rfl⟩
          refine ⟨.system (substitute tm.date tm.time caller myPhone e.execCmd) :: effects, ?_, ?_⟩
          · rw [hcmd, Option.bind_some, hloop, Option.map_some]
          · rw [← hcommands]
            rfl
      · rw [if_neg hmatches, List.filter_cons_of_neg (by simpa using hmatches)]
        exact (and_iff_right fun h => absurd h hmatches).symm

/-- The commands for a call are run with the placeholders replaced if the templates of all entries for it
fit, or if it is the same call again. -/
theorem recordCall_iff (tables : Tables) (logDirectory : Bool) (stack : ℕ → ExecBuffer) (g : Globals) (now : ℤ)
    (tm : Tm) (hlength : caller.length ≤ 31) (hcaller : '\x00' ∉ caller) (hphone : '\x00' ∉ myPhone)
    (hnoNul : ∀ e ∈ tables.execEntries, '\x00' ∉ e.execCmd) :
    RunsCommands tables logDirectory stack g now tm caller myPhone ↔
      g.Repeated now caller myPhone ∨
        ∀ e ∈ tables.execEntries, e.Matches caller myPhone → TemplateFits tm caller myPhone e.execCmd := by
  unfold RunsCommands recordCall
  by_cases hrepeated : g.Repeated now caller myPhone
  · rw [if_pos hrepeated, if_pos hrepeated]
    exact iff_of_true ⟨g, [], rfl, rfl⟩ (.inl hrepeated)
  rw [if_neg hrepeated, if_neg hrepeated, or_iff_right hrepeated,
    ← execLoop_iff tm now hlength hcaller hphone stack 0 tables.execEntries hnoNul]
  dsimp only
  have hlogged : ∀ effects, commands ((if logDirectory then [.doLog tm.dateTime caller myPhone] else []) ++
      effects) = commands effects := by
    intro effects
    cases logDirectory <;> rfl
  constructor
  · rintro ⟨g', effects, hrun, hcommands⟩
    obtain ⟨effects', hloop, hpair⟩ := Option.map_eq_some_iff.mp hrun
    obtain ⟨rfl, rfl⟩ := Prod.mk.inj hpair
    rw [hlogged] at hcommands
    exact ⟨effects', hloop, hcommands⟩
  · rintro ⟨effects, hloop, hcommands⟩
    rw [hloop]
    exact ⟨_, _, rfl, (hlogged effects).trans hcommands⟩

end template

/-- Tables with one command, for all calls of a number. -/
def oneCommand (template : CString) : Tables :=
  { Tables.init with
    execList := fun _ => ⟨['1'], ['*'], template⟩
    execIdx := 1
    execIdx_le := by decide }

theorem execEntries_oneCommand (template : CString) :
    (oneCommand template).execEntries = [⟨['1'], ['*'], template⟩] := rfl

/-- New Year's Day 2016. -/
def newYear : Tm := ⟨2016, 1, 1, 0, 0, 0, by decide, by decide, by decide, by decide, by decide, by decide⟩

/-- No call has been recorded. -/
def noCall : Globals := ⟨0, [], [], []⟩

/-- Some characters on the stack. -/
def someBuffer : ExecBuffer := ⟨List.replicate 512 'x', List.length_replicate⟩

theorem recordCall_iff_phone :
    RunsCommands (oneCommand ['x', ' ', '%', 'p']) true (fun _ => someBuffer) noCall 1451602800 newYear
      ['2'] ['1'] := by
  have hentries := execEntries_oneCommand ['x', ' ', '%', 'p']
  refine (recordCall_iff _ _ _ _ _ _ (by decide) (by decide) (by decide) ?_).mpr (.inr ?_)
  · rw [hentries]
    decide
  · rw [hentries]
    intro e he _
    obtain rfl := List.mem_singleton.mp he
    exact ⟨by decide, by decide⟩

/-- A percent sign at the end, and a template of the greatest length that stands for too many characters. -/
theorem recordCall_overruns :
    ¬ RunsCommands (oneCommand ['%']) true (fun _ => someBuffer) noCall 1451602800 newYear ['2'] ['1'] ∧
      ¬ RunsCommands (oneCommand (List.replicate 63 ['%', 'p']).flatten) true (fun _ => someBuffer) noCall
        1451602800 newYear (List.replicate 31 '2') ['1'] := by
  constructor
  · rintro ⟨g', effects, hrun, -⟩
    have hnone : (recordCall (oneCommand ['%']) true (fun _ => someBuffer) noCall 1451602800 newYear ['2']
      ['1']).isNone = true := by decide +kernel
    rw [hrun] at hnone
    exact nomatch hnone
  · rintro ⟨g', effects, hrun, -⟩
    have hnone : (recordCall (oneCommand (List.replicate 63 ['%', 'p']).flatten) true (fun _ => someBuffer)
      noCall 1451602800 newYear (List.replicate 31 '2') ['1']).isNone = true := by decide +kernel
    rw [hrun] at hnone
    exact nomatch hnone

end Telmond
end Mkfli4l
