import Mkfli4l.Imond.Timetable
import Mkfli4l.Lib.LineReading
import Mkfli4l.Lib.Scanf

/-!
# Reading any file as `imond.conf`

`read_config` as it treats a file that nobody has checked.  The module keeps a record of the accesses to
the tables.  A week day that is not known is the day -1, the hours are any two characters that are read
as a number, the lines may name more devices than there are circuits, and the time table that is printed
at the end has a row for each of them: `safe_iff` says for which files all accesses are in range and the
loop over the days ends.
-/

namespace Mkfli4l
namespace Imond
namespace ConfigFile

open Lib Config

/-! ## The program -/

/-- An access to a table: to an element of `time_table` with the value that is written or read, to an
element of `conf_data` and to its own time table, to an element of `circuits`, or a string that is stored
in an array of `size` characters. -/
inductive Access
  | timeTable (i : ℤ) (value : ℤ)
  | confData (n : ℕ)
  | confTimeTable (n : ℕ) (i : ℤ)
  | circuit (i : ℕ)
  | buffer (size length : ℕ)
deriving DecidableEq

def daysPerWeek : ℕ := 7

/-- The access does not leave the table. -/
def Access.InRange : Access → Prop
  | timeTable i _ => 0 ≤ i ∧ i < 168
  | confData n => n < maxConfigLines
  | confTimeTable n i => n < maxConfigLines ∧ 0 ≤ i ∧ i < 168
  | circuit i => i < maxCircuits
  | buffer size length => length < size

/-- The format of a line. -/
def lineFormat : List Directive :=
  [.string (some 2), .literal '-', .string (some 2), .blank, .decimal (some 2), .literal '-',
    .decimal (some 2), .blank, .string none, .blank, .decimal none, .literal ':', .decimal none, .blank,
    .decimal none, .blank, .string none, .blank, .string none, .blank, .string none, .blank, .string none,
    .blank, .float, .blank, .decimal none]

/-- What `sscanf` has stored if it has stored all values. -/
structure ScannedLine where
  startWeekDay : CString
  endWeekDay : CString
  startHour : ℤ
  endHour : ℤ
  device : CString
  bandwidthRate : ℤ
  bandwidthTime : ℤ
  hupTimeout : ℤ
  lcr : CString
  defaultRoute : CString
  phoneBuf : CString
  circuit : CString
  chargePerMinute : ℚ
  chargeInt : ℤ

/-- The values that `sscanf` has stored, if there are 14 of them. -/
def scannedLine : List (ScanItem ℚ) → Option ScannedLine
  | [.text startWeekDay, .text endWeekDay, .number startHour, .number endHour, .text device,
      .number bandwidthRate, .number bandwidthTime, .number hupTimeout, .text lcr, .text defaultRoute,
      .text phoneBuf, .text circuit, .real chargePerMinute, .number chargeInt] =>
      some ⟨startWeekDay, endWeekDay, startHour, endHour, device, bandwidthRate, bandwidthTime, hupTimeout,
        lcr, defaultRoute, phoneBuf, circuit, chargePerMinute, chargeInt⟩
  | _ => none

/-- The texts among the values. -/
def texts : List (ScanItem ℚ) → List CString
  | [] => []
  | .text s :: items => s :: texts items
  | _ :: items => texts items

/-- The sizes of `start_week_day`, `end_week_day`, `device`, `lcr`, `default_route`, `phone_buf` and
`circuit`. -/
def textSizes : List ℕ := [16, 16, 16, 16, 16, 64, 32]

/-- The texts that `sscanf` stores. -/
def storedTexts (items : List (ScanItem ℚ)) : List Access :=
  ((texts items).zip textSizes).map fun text => .buffer text.2 text.1.length

namespace ScannedLine

/-- `convert_week_day_to_day`, with -1 if the week day is not known. -/
def day (weekDay : CString) : ℤ :=
  match convertWeekDayToDay (String.ofList weekDay) with
  | some i => i.val
  | none => -1

def startDay (l : ScannedLine) : ℤ := day l.startWeekDay

def endDay (l : ScannedLine) : ℤ := day l.endWeekDay

def isLcr (l : ScannedLine) : Bool := l.lcr = "yes".toList

/-- `device_1`, the device in front of the slash. -/
def device1 (l : ScannedLine) : CString := l.device.takeWhile (· ≠ '/')

/-- `device_2`, the device behind the slash, or nothing. -/
def device2 (l : ScannedLine) : CString := (l.device.dropWhile (· ≠ '/')).drop 1

end ScannedLine

/-- `fill_time_table` for line `n`. -/
def fillTimeTable (doFillGlobalTable : Bool) (n : ℕ) (startTime endTime : ℤ) : List Access :=
  (List.range (endTime - startTime).toNat).flatMap fun (k : ℕ) =>
    if doFillGlobalTable then [.timeTable (startTime + k) n, .confTimeTable n (startTime + k)]
    else [.confTimeTable n (startTime + k)]

/-- The body of the loop over the days. -/
def fillDay (isLcr : Bool) (n : ℕ) (startHour endHour day : ℤ) : List Access :=
  if endHour < startHour then
    fillTimeTable isLcr n (day * hoursPerDay + startHour) (day * hoursPerDay + hoursPerDay) ++
      fillTimeTable isLcr n (day * hoursPerDay + 0) (day * hoursPerDay + endHour)
  else
    fillTimeTable isLcr n (day * hoursPerDay + startHour) (day * hoursPerDay + endHour)

/-- The day that the loop goes on with. -/
def nextDay (day : ℤ) : ℤ := if day + 1 = daysPerWeek then 0 else day + 1

/-- The loop over the days.  `none` means that the rounds do not suffice. -/
def fillDays (isLcr : Bool) (n : ℕ) (startHour endHour endDay : ℤ) : ℕ → ℤ → Option (List Access)
  | 0, _ => none
  | rounds + 1, day =>
      let filled := fillDay isLcr n startHour endHour day
      if day = endDay then some filled
      else (fillDays isLcr n startHour endHour endDay rounds (nextDay day)).map (filled ++ ·)

/-- The entry of `circuits` for a line: an entry that is there keeps its name. -/
def storeCircuit (l : ScannedLine) (c : Circuit) : Circuit :=
  { c with
    device1 := l.device1
    device2 := l.device2
    bandwidthTime := l.bandwidthTime
    bandwidthRate := l.bandwidthRate
    hupTimeout := l.hupTimeout }

/-- The index of the circuit of a line, or the number of the circuits. -/
def circuitIdx (cfg : Settings) (l : ScannedLine) : ℕ :=
  cfg.circuits.findIdx fun c => c.device1 = l.device1

/-- The accesses to `circuits[i]` up to the circuit of the line, and the strings stored in it. -/
def circuitAccesses (cfg : Settings) (l : ScannedLine) : List Access :=
  (List.range (circuitIdx cfg l + 1)).map .circuit ++
    (if circuitIdx cfg l = cfg.circuits.length then [.buffer 32 l.circuit.length] else []) ++
    [.buffer 16 l.device1.length, .buffer 16 l.device2.length]

/-- `circuits` with the entry of a line. -/
def storeCircuits (cfg : Settings) (l : ScannedLine) : List Circuit :=
  if circuitIdx cfg l = cfg.circuits.length then cfg.circuits ++ [storeCircuit l (newCircuit l.circuit)]
  else cfg.circuits.modify (circuitIdx cfg l) (storeCircuit l)

/-- What a line that is read makes of the settings, where it has filled these elements. -/
def storeLine (cfg : Settings) (l : ScannedLine) (filled : List Access) : Settings :=
  let n := cfg.confData.length
  { timeTable := fun hour => if .timeTable hour n ∈ filled then n else cfg.timeTable hour
    confData := cfg.confData ++ [
      { timeTable := fun hour => decide (.confTimeTable n hour ∈ filled)
        isLcr := l.isLcr
        isDefaultRoute := l.defaultRoute = "yes".toList
        outgoingPhone := l.phoneBuf.takeWhile (· ≠ ':')
        incomingPhone := (l.phoneBuf.dropWhile (· ≠ ':')).drop 1
        circuitIdx := circuitIdx cfg l
        chargePerMinute := l.chargePerMinute
        chargeInt := l.chargeInt
        isPppoe := l.device = "pppoe".toList }]
    circuits := storeCircuits cfg l
    pppoeUsed := cfg.pppoeUsed || l.device = "pppoe".toList }

/-- How `read_config` ends: with the message about the format of a line, or with the settings. -/
inductive Outcome
  | formatError (line : ℕ)
  | settings (cfg : Settings)

/-- The loop over the lines, with the number of the line, and the accesses it makes.  The rounds are those
of the loop over the days. -/
def readLines (scanFloat : CString → Option (ℚ × CString)) (rounds : ℕ) :
    ℕ → Settings → List CString → Option (List Access × Outcome)
  | _, cfg, [] => some ([], .settings cfg)
  | line, cfg, buf :: bufs =>
      if buf.head? = some '#' then readLines scanFloat rounds (line + 1) cfg bufs
      else
        let n := cfg.confData.length
        let items := sscanf scanFloat lineFormat buf
        match scannedLine items with
        | none => some (.confData n :: storedTexts items, .formatError (line + 1))
        | some l =>
            (fillDays l.isLcr n l.startHour l.endHour l.endDay rounds l.startDay).bind fun filled =>
              let accesses := .confData n :: storedTexts items ++ circuitAccesses cfg l ++ filled
              if n + 1 = maxConfigLines then some (accesses, .settings (storeLine cfg l filled))
              else
                (readLines scanFloat rounds (line + 1) (storeLine cfg l filled) bufs).map
                  fun (more, outcome) => (accesses ++ more, outcome)

/-- The elements of `time_table` that are set before the file is read. -/
def clearTimeTable : List Access :=
  (List.range daysPerWeek).flatMap fun (i : ℕ) =>
    (List.range hoursPerDay).map fun (j : ℕ) => .timeTable (i * hoursPerDay + j) (-1)

/-- What `get_timetable (-1)` reads, and the text that it writes. -/
def timetableAccesses (printFloat : ℚ → CString) (cfg : Settings) : List Access :=
  (List.range (daysPerWeek * hoursPerDay)).map (fun i => .timeTable i (cfg.timeTable i)) ++
    cfg.confData.zipIdx.flatMap (fun conf => [.confData conf.2, .circuit conf.1.circuitIdx]) ++
    [.buffer answerSize (timetableText printFloat cfg).length]

/-- The accesses of the last statement, which prints the time table. -/
def Outcome.printed (printFloat : ℚ → CString) : Outcome → List Access
  | formatError _ => []
  | settings cfg => timetableAccesses printFloat cfg

/-- `read_config` for the text of `/etc/imond.conf`, of which `fgets` reads 127 characters at a time. -/
def readConfig (scanFloat : CString → Option (ℚ × CString)) (printFloat : ℚ → CString) (rounds : ℕ)
    (file : CString) : Option (List Access × Outcome) :=
  (readLines scanFloat rounds 0 Settings.init ((fgetsAll 127 file).map bufferText)).map
    fun (accesses, outcome) => (clearTimeTable ++ accesses ++ outcome.printed printFloat, outcome)

/-- The file is rejected or read, and no access leaves a table. -/
def Safe (scanFloat : CString → Option (ℚ × CString)) (printFloat : ℚ → CString) (file : CString) : Prop :=
  ∃ rounds accesses outcome, readConfig scanFloat printFloat rounds file = some (accesses, outcome) ∧
    ∀ a ∈ accesses, a.InRange

/-! ## When it is safe -/

/-- The texts fit into their arrays. -/
def TextsFit (items : List (ScanItem ℚ)) : Prop :=
  ∀ text ∈ (texts items).zip textSizes, text.1.length < text.2

/-- The hours from `s` up to `e` of the week, if there are any, belong to a week. -/
def SpanFits (s e : ℤ) : Prop := e ≤ s ∨ (0 ≤ s ∧ e ≤ 168)

/-- The days from one to another, possibly over the end of the week. -/
def Between (start stop d : ℤ) : Prop :=
  if start ≤ stop then start ≤ d ∧ d ≤ stop else (start ≤ d ∧ d ≤ 6) ∨ (0 ≤ d ∧ d ≤ stop)

namespace ScannedLine

/-- The day belongs to the range of days. -/
def Covers (l : ScannedLine) (d : ℤ) : Prop := Between l.startDay l.endDay d

/-- The last day is known, or neither day is. -/
def DaysEnd (l : ScannedLine) : Prop := l.endDay ≠ -1 ∨ l.startDay = -1

/-- On a day, the range of hours stays in the week; a range that wraps around has two parts. -/
def HoursFit (l : ScannedLine) (d : ℤ) : Prop :=
  if l.endHour < l.startHour then
    SpanFits (d * 24 + l.startHour) (d * 24 + 24) ∧ SpanFits (d * 24) (d * 24 + l.endHour)
  else SpanFits (d * 24 + l.startHour) (d * 24 + l.endHour)

end ScannedLine

/-- The lines that `sscanf` takes apart, if there is room for `k` more: up to the first one that has
another format. -/
def lookedAt : ℕ → List (List (ScanItem ℚ)) → List (List (ScanItem ℚ))
  | 0, _ => []
  | _ + 1, [] => []
  | k + 1, items :: lines => items :: if (scannedLine items).isSome then lookedAt k lines else []

/-- The values of the lines that are looked at: the file without its comments, taken apart. -/
def linesOf (scanFloat : CString → Option (ℚ × CString)) (bufs : List CString) :
    List (List (ScanItem ℚ)) :=
  (bufs.filter fun buf => buf.head? ≠ some '#').map (sscanf scanFloat lineFormat)

/-- The lines fit into the tables, where these devices have circuits already.  The last line may have
another format. -/
structure LinesFit (devices : List CString) (lines : List (List (ScanItem ℚ))) : Prop where
  texts : ∀ items ∈ lines, TextsFit items
  days : ∀ l ∈ lines.filterMap scannedLine, l.DaysEnd
  hours : ∀ l ∈ lines.filterMap scannedLine, ∀ d, l.Covers d → l.HoursFit d
  circuits : (devices ++ (lines.filterMap scannedLine).map ScannedLine.device1).dedup.length ≤ maxCircuits

/-- The entry of a line in the time table. -/
def ScannedLine.entry (l : ScannedLine) : Entry := ⟨l.device1, l.circuit, l.chargePerMinute, l.chargeInt⟩

/-- If no line has another format, the time table that is printed fits into its array. -/
def TimetableFits (printFloat : ℚ → CString) (lines : List (List (ScanItem ℚ))) : Prop :=
  (∀ items ∈ lines, (scannedLine items).isSome = true) →
    timetableLength printFloat ((lines.filterMap scannedLine).map ScannedLine.entry) < answerSize

/-- The lines of a file that are looked at. -/
def fileLines (scanFloat : CString → Option (ℚ × CString)) (file : CString) : List (List (ScanItem ℚ)) :=
  lookedAt maxConfigLines (linesOf scanFloat ((fgetsAll 127 file).map bufferText))

/-! ## The accesses of a line -/

section line

variable {g : Bool} {n : ℕ} {a : Access}

theorem mem_fillTimeTable {s e : ℤ} : a ∈ fillTimeTable g n s e ↔
    ∃ i, s ≤ i ∧ i < e ∧ ((g = true ∧ a = .timeTable i n) ∨ a = .confTimeTable n i) := by
  unfold fillTimeTable
  rw [List.mem_flatMap]
  constructor
  · rintro ⟨k, hk, ha⟩
    rw [List.mem_range] at hk
    refine ⟨s + k, by omega, by omega, ?_⟩
    cases g with
    | true => simpa using ha
    | false => simpa using ha
  · rintro ⟨i, hs, he, ha⟩
    have hi : s + ((i - s).toNat : ℤ) = i := by omega
    refine ⟨(i - s).toNat, List.mem_range.mpr (by omega), ?_⟩
    rw [hi]
    cases g with
    | true => simpa using ha
    | false => simpa using ha

theorem fillTimeTable_inRange (hn : n < maxConfigLines) (s e : ℤ) :
    (∀ a ∈ fillTimeTable g n s e, a.InRange) ↔ SpanFits s e := by
  constructor
  · intro h
    by_cases hse : e ≤ s
    · exact .inl hse
    · have hfirst : (Access.confTimeTable n s).InRange :=
        h _ (mem_fillTimeTable.mpr ⟨s, le_rfl, by omega, .inr rfl⟩)
      have hlast : (Access.confTimeTable n (e - 1)).InRange :=
        h _ (mem_fillTimeTable.mpr ⟨e - 1, by omega, by omega, .inr rfl⟩)
      exact .inr ⟨hfirst.2.1, by have := hlast.2.2; omega⟩
  · intro h a ha
    obtain ⟨i, hs, he, ha⟩ := mem_fillTimeTable.mp ha
    have hi : 0 ≤ i ∧ i < 168 := by rcases h with h | h <;> omega
    rcases ha with ⟨-, rfl⟩ | rfl
    · exact hi
    · exact ⟨hn, hi⟩

theorem fillDay_inRange (hn : n < maxConfigLines) (l : ScannedLine) (d : ℤ) :
    (∀ a ∈ fillDay g n l.startHour l.endHour d, a.InRange) ↔ l.HoursFit d := by
  have hhours : (hoursPerDay : ℤ) = 24 := rfl
  unfold fillDay ScannedLine.HoursFit
  split
  · rw [List.forall_mem_append, fillTimeTable_inRange hn, fillTimeTable_inRange hn, hhours, add_zero]
  · rw [fillTimeTable_inRange hn, hhours]

theorem day_range (weekDay : CString) : -1 ≤ ScannedLine.day weekDay ∧ ScannedLine.day weekDay ≤ 6 := by
  unfold ScannedLine.day
  split
  · next i _ =>
      have hi := i.isLt
      omega
  · omega

end line

/-! ### The loop over the days -/

variable {rounds : ℕ} {accesses : List Access} {outcome : Outcome}

section days

variable {isLcr : Bool} {n : ℕ} {startHour endHour start stop : ℤ}

theorem nextDay_range {day : ℤ} (hlow : -1 ≤ day) (hhigh : day ≤ 6) : 0 ≤ nextDay day ∧ nextDay day ≤ 6 := by
  unfold nextDay daysPerWeek
  split <;> omega

theorem between_next (hlow : -1 ≤ start) (hhigh : start ≤ 6) (hstop : 0 ≤ stop) (hstop' : stop ≤ 6)
    (hne : start ≠ stop) (d : ℤ) : Between start stop d ↔ d = start ∨ Between (nextDay start) stop d := by
  unfold Between nextDay daysPerWeek
  split_ifs <;> omega

theorem fillDays_spec {filled : List Access} (hlow : -1 ≤ start) (hhigh : start ≤ 6)
    (hstop : -1 ≤ stop) (hstop' : stop ≤ 6)
    (h : fillDays isLcr n startHour endHour stop rounds start = some filled) :
    (stop ≠ -1 ∨ start = -1) ∧
      ∀ a, a ∈ filled ↔ ∃ d, Between start stop d ∧ a ∈ fillDay isLcr n startHour endHour d := by
  induction rounds generalizing start filled with
  | zero => exact nomatch h
  | succ rounds ih =>
      rw [fillDays] at h
      by_cases heq : start = stop
      · -- the loop ends with this day
        have hself : ∀ d, Between start stop d ↔ d = start := by
          intro d
          unfold Between
          split <;> omega
        rw [if_pos heq] at h
        obtain rfl := Option.some.inj h
        exact ⟨by omega, fun a => by simp [hself]⟩
      · rw [if_neg heq] at h
        obtain ⟨rest, hrest, rfl⟩ := Option.map_eq_some_iff.mp h
        obtain ⟨hnext, hnext'⟩ := nextDay_range hlow hhigh
        obtain ⟨hends, hmem⟩ := ih (by omega) hnext' hrest
        -- the loop goes on to the next day, which is a known one
        have hstop₀ : 0 ≤ stop := by omega
        refine ⟨by omega, fun a => ?_⟩
        rw [List.mem_append, hmem]
        constructor
        · rintro (ha | ⟨d, hd, ha⟩)
          · exact ⟨start, (between_next hlow hhigh hstop₀ hstop' heq start).mpr (.inl rfl), ha⟩
          · exact ⟨d, (between_next hlow hhigh hstop₀ hstop' heq d).mpr (.inr hd), ha⟩
        · rintro ⟨d, hd, ha⟩
          rcases (between_next hlow hhigh hstop₀ hstop' heq d).mp hd with rfl | hd
          · exact .inl ha
          · exact .inr ⟨d, hd, ha⟩

/-- The number of rounds up to the last day. -/
def distance (start stop : ℤ) : ℤ := if start ≤ stop then stop - start else 7 + stop - start

theorem fillDays_rounds (hlow : -1 ≤ start) (hhigh : start ≤ 6) (hstop : 0 ≤ stop)
    (hstop' : stop ≤ 6) (hrounds : distance start stop < rounds) :
    ∃ filled, fillDays isLcr n startHour endHour stop rounds start = some filled := by
  induction rounds generalizing start with
  | zero =>
      unfold distance at hrounds
      split at hrounds <;> omega
  | succ rounds ih =>
      rw [fillDays]
      by_cases heq : start = stop
      · exact ⟨_, if_pos heq⟩
      · have hdistance : distance (nextDay start) stop < rounds := by
          unfold distance at hrounds
          unfold distance nextDay daysPerWeek
          split_ifs at hrounds ⊢ <;> omega
        obtain ⟨hnext, hnext'⟩ := nextDay_range hlow hhigh
        obtain ⟨rest, hrest⟩ := ih (by omega) hnext' hdistance
        exact ⟨_, by rw [if_neg heq, hrest]; rfl⟩

theorem fillDays_ends (hlow : -1 ≤ start) (hhigh : start ≤ 6) (hstop : -1 ≤ stop) (hstop' : stop ≤ 6)
    (hends : stop ≠ -1 ∨ start = -1) :
    ∃ filled, fillDays isLcr n startHour endHour stop 8 start = some filled := by
  by_cases hknown : 0 ≤ stop
  · apply fillDays_rounds hlow hhigh hknown hstop'
    unfold distance
    split <;> omega
  · have heq : start = stop := by omega
    exact ⟨_, by rw [fillDays, if_pos heq]⟩

end days

/-! ### The accesses of a line -/

section line

variable {cfg : Settings} {l : ScannedLine} {items : List (ScanItem ℚ)}

theorem circuitIdx_eq (cfg : Settings) (l : ScannedLine) : circuitIdx cfg l = cfg.devices.idxOf l.device1 :=
  findIdx_device cfg l.device1

theorem storeLine_adds (cfg : Settings) (l : ScannedLine) (filled : List Access) :
    cfg.Adds l.entry (storeLine cfg l filled) := by
  have hf : ∀ c, (storeCircuit l c).device1 = l.device1 := fun _ => rfl
  refine ⟨⟨_, rfl, circuitIdx_eq cfg l, rfl, rfl⟩, labels_store cfg hf (fun _ => rfl) l.circuit, fun i => ?_⟩
  simp only [storeLine]
  split
  · exact .inr rfl
  · exact .inl rfl

theorem devices_storeLine (cfg : Settings) (l : ScannedLine) (filled : List Access) :
    (storeLine cfg l filled).devices = addDevice cfg.devices l.device1 :=
  devices_of_labels (storeLine_adds cfg l filled).labels

theorem storedTexts_inRange (items : List (ScanItem ℚ)) :
    (∀ a ∈ storedTexts items, a.InRange) ↔ TextsFit items := by
  unfold storedTexts TextsFit
  rw [List.forall_mem_map]
  rfl

theorem TextsFit.lengths (h : TextsFit items) (hl : scannedLine items = some l) :
    l.device.length < 16 ∧ l.circuit.length < 32 := by
  unfold scannedLine at hl
  split at hl
  · obtain rfl := Option.some.inj hl
    unfold TextsFit at h
    simp only [texts, textSizes, List.zip_cons_cons, List.zip_nil_left, List.forall_mem_cons] at h
    exact ⟨h.2.2.1, h.2.2.2.2.2.2.1⟩
  · contradiction

theorem length_device1_le (l : ScannedLine) : l.device1.length ≤ l.device.length :=
  (List.takeWhile_sublist _).length_le

theorem length_device2_le (l : ScannedLine) : l.device2.length ≤ l.device.length := by
  have hdrop := (List.dropWhile_sublist (· ≠ '/') (l := l.device)).length_le
  unfold ScannedLine.device2
  rw [List.length_drop]
  omega

theorem circuitAccesses_inRange (hdevice : l.device.length < 16) (hcircuit : l.circuit.length < 32) :
    (∀ a ∈ circuitAccesses cfg l, a.InRange) ↔ circuitIdx cfg l < maxCircuits := by
  have h₁ : l.device1.length < 16 := (length_device1_le l).trans_lt hdevice
  have h₂ : l.device2.length < 16 := (length_device2_le l).trans_lt hdevice
  unfold circuitAccesses
  rw [List.forall_mem_append, List.forall_mem_append, List.forall_mem_map]
  constructor
  · rintro ⟨⟨hidx, -⟩, -⟩
    exact hidx _ (List.mem_range.mpr (Nat.lt_succ_self _))
  · intro hidx
    refine ⟨⟨fun i hi => ?_, ?_⟩, ?_⟩
    · have hle : i ≤ circuitIdx cfg l := Nat.lt_succ_iff.mp (List.mem_range.mp hi)
      exact hle.trans_lt hidx
    · split
      · exact List.forall_mem_singleton.mpr hcircuit
      · simp
    · exact List.forall_mem_cons.mpr ⟨h₁, List.forall_mem_singleton.mpr h₂⟩

theorem line_inRange {filled : List Access} (hn : cfg.confData.length < maxConfigLines)
    (hl : scannedLine items = some l)
    (hfilled : fillDays l.isLcr cfg.confData.length l.startHour l.endHour l.endDay rounds l.startDay =
      some filled) :
    (∀ a ∈ .confData cfg.confData.length :: storedTexts items ++ circuitAccesses cfg l ++ filled,
      a.InRange) ↔
      TextsFit items ∧ circuitIdx cfg l < maxCircuits ∧ ∀ d, l.Covers d → l.HoursFit d := by
  obtain ⟨hstart, hstart'⟩ := day_range l.startWeekDay
  obtain ⟨hstop, hstop'⟩ := day_range l.endWeekDay
  obtain ⟨-, hmem⟩ := fillDays_spec hstart hstart' hstop hstop' hfilled
  have hdays : (∀ a ∈ filled, a.InRange) ↔ ∀ d, l.Covers d → l.HoursFit d := by
    constructor
    · intro h d hd
      rw [← fillDay_inRange hn l d]
      exact fun a ha => h a ((hmem a).mpr ⟨d, hd, ha⟩)
    · intro h a ha
      obtain ⟨d, hd, ha⟩ := (hmem a).mp ha
      exact (fillDay_inRange hn l d).mpr (h d hd) a ha
  rw [List.forall_mem_append, List.cons_append, List.forall_mem_cons, List.forall_mem_append,
    storedTexts_inRange, hdays]
  constructor
  · rintro ⟨⟨-, htexts, hcircuit⟩, hdays⟩
    obtain ⟨hdevice, hname⟩ := htexts.lengths hl
    exact ⟨htexts, (circuitAccesses_inRange hdevice hname).mp hcircuit, hdays⟩
  · rintro ⟨htexts, hcircuit, hdays⟩
    obtain ⟨hdevice, hname⟩ := htexts.lengths hl
    exact ⟨⟨hn, htexts, (circuitAccesses_inRange hdevice hname).mpr hcircuit⟩, hdays⟩

end line

/-! ## The whole file -/

section file

variable {cfg : Settings} {l : ScannedLine} {items : List (ScanItem ℚ)}
  {lines : List (List (ScanItem ℚ))} {filled : List Access}

theorem linesFit_cons (hl : scannedLine items = some l) (filled : List Access) :
    LinesFit cfg.devices (items :: lines) ↔
      TextsFit items ∧ l.DaysEnd ∧ (∀ d, l.Covers d → l.HoursFit d) ∧
        LinesFit (storeLine cfg l filled).devices lines := by
  have hmap : (items :: lines).filterMap scannedLine = l :: lines.filterMap scannedLine :=
    List.filterMap_cons_some hl
  have hcount : ∀ more : List CString, (cfg.devices ++ l.device1 :: more).dedup.length =
      ((storeLine cfg l filled).devices ++ more).dedup.length := by
    intro more
    rw [devices_storeLine, length_dedup_addDevice]
  constructor
  · rintro ⟨htexts, hdays, hhours, hcircuits⟩
    rw [hmap] at hdays hhours hcircuits
    rw [List.map_cons, hcount] at hcircuits
    exact ⟨htexts _ List.mem_cons_self, hdays _ List.mem_cons_self, hhours _ List.mem_cons_self,
      fun i hi => htexts i (List.mem_cons_of_mem _ hi), fun i hi => hdays i (List.mem_cons_of_mem _ hi),
      fun i hi => hhours i (List.mem_cons_of_mem _ hi), hcircuits⟩
  · rintro ⟨htext, hday, hhour, htexts, hdays, hhours, hcircuits⟩
    refine ⟨List.forall_mem_cons.mpr ⟨htext, htexts⟩, ?_, ?_, ?_⟩
    · rw [hmap]
      exact List.forall_mem_cons.mpr ⟨hday, hdays⟩
    · rw [hmap]
      exact List.forall_mem_cons.mpr ⟨hhour, hhours⟩
    · rwa [hmap, List.map_cons, hcount]

theorem linesFit_nil (h : CircuitsFit cfg) : LinesFit cfg.devices [] :=
  ⟨by simp, by simp, by simp, h.dedup_le⟩

theorem linesFit_rejected (h : CircuitsFit cfg) (hnone : scannedLine items = none) :
    LinesFit cfg.devices [items] ↔ TextsFit items := by
  have hmap : [items].filterMap scannedLine = [] := by simp [hnone]
  constructor
  · intro hfit
    exact hfit.texts items List.mem_cons_self
  · intro htext
    refine ⟨by simpa using htext, ?_, ?_, ?_⟩
    · simp [hmap]
    · simp [hmap]
    · rw [hmap]
      exact h.dedup_le

theorem circuitIdx_lt_of_fit (h : CircuitsFit cfg) (hl : scannedLine items = some l)
    (hfit : LinesFit cfg.devices (items :: lines)) : circuitIdx cfg l < maxCircuits := by
  have hcount := hfit.circuits
  rw [List.filterMap_cons_some hl, List.map_cons] at hcount
  rw [circuitIdx_eq]
  exact h.idxOf_lt hcount

theorem circuitsFit_storeLine (h : CircuitsFit cfg) (hidx : circuitIdx cfg l < maxCircuits)
    (filled : List Access) : CircuitsFit (storeLine cfg l filled) := by
  rw [circuitIdx_eq] at hidx
  exact h.add (devices_storeLine cfg l filled) hidx

end file

section run

variable {scanFloat : CString → Option (ℚ × CString)} {cfg : Settings} {k line : ℕ} {bufs : List CString}

theorem length_confData_storeLine (cfg : Settings) (l : ScannedLine) (filled : List Access) :
    (storeLine cfg l filled).confData.length = cfg.confData.length + 1 := by
  simp [storeLine]

theorem linesOf_comment {buf : CString} (h : buf.head? = some '#') (bufs : List CString) :
    linesOf scanFloat (buf :: bufs) = linesOf scanFloat bufs := by
  simp [linesOf, h]

theorem linesOf_line {buf : CString} (h : buf.head? ≠ some '#') (bufs : List CString) :
    linesOf scanFloat (buf :: bufs) = sscanf scanFloat lineFormat buf :: linesOf scanFloat bufs := by
  simp [linesOf, h]

/-- What the lines that are looked at leave behind: the message about the last one, or their rows behind
the earlier ones. -/
def Outcome.Lists (entries : List Entry) (lines : List (List (ScanItem ℚ))) : Outcome → Prop
  | formatError _ => ∃ items ∈ lines, scannedLine items = none
  | settings cfg => cfg.confData.length ≤ maxConfigLines ∧
      (∀ items ∈ lines, (scannedLine items).isSome = true) ∧
      cfg.Lists (entries ++ (lines.filterMap scannedLine).map ScannedLine.entry)

theorem readLines_lists {entries : List Entry}
    (hlists : cfg.Lists entries) (hroom : cfg.confData.length + (k + 1) = maxConfigLines)
    (h : readLines scanFloat rounds line cfg bufs = some (accesses, outcome)) :
    outcome.Lists entries (lookedAt (k + 1) (linesOf scanFloat bufs)) := by
  induction bufs generalizing line cfg k entries accesses with
  | nil =>
      obtain ⟨-, rfl⟩ := Prod.mk.inj (Option.some.inj h)
      refine ⟨by omega, by simp [linesOf, lookedAt], ?_⟩
      simpa [linesOf, lookedAt] using hlists
  | cons buf bufs ih =>
      rw [readLines] at h
      by_cases hcomment : buf.head? = some '#'
      · rw [if_pos hcomment] at h
        rw [linesOf_comment hcomment]
        exact ih hlists hroom h
      · rw [if_neg hcomment] at h
        rw [linesOf_line hcomment, lookedAt]
        cases hl : scannedLine (sscanf scanFloat lineFormat buf) with
        | none =>
            simp only [hl] at h
            obtain ⟨-, rfl⟩ := Prod.mk.inj (Option.some.inj h)
            exact ⟨_, List.mem_cons_self, hl⟩
        | some l =>
            simp only [hl] at h
            obtain ⟨filled, hfilled, h⟩ := Option.bind_eq_some_iff.mp h
            have hlength := length_confData_storeLine cfg l filled
            have hnext := hlists.add (storeLine_adds cfg l filled)
            rw [Option.isSome_some, if_pos rfl]
            split at h
            · obtain ⟨-, rfl⟩ := Prod.mk.inj (Option.some.inj h)
              -- the last line for which there is room
              obtain rfl : k = 0 := by omega
              refine ⟨by omega, by simp [lookedAt, hl], ?_⟩
              simpa [lookedAt, hl] using hnext
            · obtain ⟨⟨more, outcome'⟩, hmore, heq⟩ := Option.map_eq_some_iff.mp h
              obtain ⟨-, rfl⟩ := Prod.mk.inj heq
              obtain ⟨k, rfl⟩ : ∃ j, k = j + 1 := ⟨k - 1, by omega⟩
              have hrest := ih (k := k) hnext (by omega) hmore
              cases outcome' with
              | formatError _ =>
                  obtain ⟨items, hitems, hnone⟩ := hrest
                  exact ⟨items, List.mem_cons_of_mem _ hitems, hnone⟩
              | settings cfg' =>
                  obtain ⟨hle, hall, hrows⟩ := hrest
                  refine ⟨hle, List.forall_mem_cons.mpr ⟨by rw [hl]; rfl, hall⟩, ?_⟩
                  rw [List.filterMap_cons_some hl, List.map_cons, ← List.singleton_append, ← List.append_assoc]
                  exact hrows

theorem linesFit_of_inRange
    (hcfg : CircuitsFit cfg) (hroom : cfg.confData.length + (k + 1) = maxConfigLines)
    (h : readLines scanFloat rounds line cfg bufs = some (accesses, outcome))
    (hall : ∀ a ∈ accesses, a.InRange) : LinesFit cfg.devices (lookedAt (k + 1) (linesOf scanFloat bufs)) := by
  induction bufs generalizing line cfg k accesses with
  | nil => exact linesFit_nil hcfg
  | cons buf bufs ih =>
      rw [readLines] at h
      by_cases hcomment : buf.head? = some '#'
      · rw [if_pos hcomment] at h
        rw [linesOf_comment hcomment]
        exact ih hcfg hroom h hall
      · rw [if_neg hcomment] at h
        rw [linesOf_line hcomment, lookedAt]
        cases hl : scannedLine (sscanf scanFloat lineFormat buf) with
        | none =>
            simp only [hl] at h
            obtain ⟨rfl, -⟩ := Prod.mk.inj (Option.some.inj h)
            -- nothing but the texts of a line with another format is stored
            have htext := (storedTexts_inRange _).mp (List.forall_mem_cons.mp hall).2
            simpa using (linesFit_rejected hcfg hl).mpr htext
        | some l =>
            simp only [hl] at h
            obtain ⟨filled, hfilled, h⟩ := Option.bind_eq_some_iff.mp h
            obtain ⟨hstart, hstart'⟩ := day_range l.startWeekDay
            obtain ⟨hstop, hstop'⟩ := day_range l.endWeekDay
            obtain ⟨hends, -⟩ := fillDays_spec hstart hstart' hstop hstop' hfilled
            have hn : cfg.confData.length < maxConfigLines := by omega
            rw [Option.isSome_some, if_pos rfl, linesFit_cons hl filled]
            split at h
            · next hlast =>
                obtain ⟨rfl, -⟩ := Prod.mk.inj (Option.some.inj h)
                -- the last line for which there is room
                obtain ⟨htext, hidx, hhours⟩ := (line_inRange hn hl hfilled).mp hall
                obtain rfl : k = 0 := by omega
                rw [lookedAt]
                exact ⟨htext, hends, hhours, linesFit_nil (circuitsFit_storeLine hcfg hidx filled)⟩
            · next hmore =>
                obtain ⟨⟨more, outcome'⟩, hmore', heq⟩ := Option.map_eq_some_iff.mp h
                obtain ⟨rfl, rfl⟩ := Prod.mk.inj heq
                obtain ⟨hline, hrest⟩ := List.forall_mem_append.mp hall
                -- the table has room for more lines, which are those of the induction hypothesis
                obtain ⟨htext, hidx, hhours⟩ := (line_inRange hn hl hfilled).mp hline
                obtain ⟨k, rfl⟩ : ∃ j, k = j + 1 := ⟨k - 1, by omega⟩
                refine ⟨htext, hends, hhours, ih (circuitsFit_storeLine hcfg hidx filled) ?_ hmore' hrest⟩
                rw [length_confData_storeLine]
                omega

theorem inRange_of_linesFit (hcfg : CircuitsFit cfg) (hroom : cfg.confData.length + (k + 1) = maxConfigLines)
    (hfit : LinesFit cfg.devices (lookedAt (k + 1) (linesOf scanFloat bufs))) :
    ∃ accesses outcome, readLines scanFloat 8 line cfg bufs = some (accesses, outcome) ∧
      ∀ a ∈ accesses, a.InRange := by
  induction bufs generalizing line cfg k with
  | nil => exact ⟨[], .settings cfg, rfl, by simp⟩
  | cons buf bufs ih =>
      rw [readLines]
      by_cases hcomment : buf.head? = some '#'
      · rw [linesOf_comment hcomment] at hfit
        rw [if_pos hcomment]
        exact ih hcfg hroom hfit
      · rw [linesOf_line hcomment, lookedAt] at hfit
        rw [if_neg hcomment]
        have hn : cfg.confData.length < maxConfigLines := by omega
        cases hl : scannedLine (sscanf scanFloat lineFormat buf) with
        | none =>
            rw [hl] at hfit
            have htext := (linesFit_rejected hcfg hl).mp hfit
            have hconf : (Access.confData cfg.confData.length).InRange := hn
            simp only [hl]
            exact ⟨_, _, rfl, List.forall_mem_cons.mpr ⟨hconf, (storedTexts_inRange _).mpr htext⟩⟩
        | some l =>
            rw [hl, Option.isSome_some, if_pos rfl] at hfit
            have hidx := circuitIdx_lt_of_fit hcfg hl hfit
            obtain ⟨hstart, hstart'⟩ := day_range l.startWeekDay
            obtain ⟨hstop, hstop'⟩ := day_range l.endWeekDay
            have hends : l.DaysEnd := hfit.days l (by rw [List.filterMap_cons_some hl]; exact List.mem_cons_self)
            obtain ⟨filled, hfilled⟩ : ∃ filled, fillDays l.isLcr cfg.confData.length l.startHour l.endHour
                l.endDay 8 l.startDay = some filled := fillDays_ends hstart hstart' hstop hstop' hends
            obtain ⟨htext, -, hhours, hrest⟩ := (linesFit_cons hl filled).mp hfit
            have hline := (line_inRange hn hl hfilled).mpr ⟨htext, hidx, hhours⟩
            simp only [hl, hfilled, Option.bind_some]
            split
            · exact ⟨_, _, rfl, hline⟩
            · next hmore =>
                obtain ⟨k, rfl⟩ : ∃ j, k = j + 1 := ⟨k - 1, by omega⟩
                obtain ⟨more, outcome, hrun, hmore⟩ := ih (circuitsFit_storeLine hcfg hidx filled)
                  (by rw [length_confData_storeLine]; omega) hrest
                exact ⟨_, outcome, by rw [hrun]; rfl, List.forall_mem_append.mpr ⟨hline, hmore⟩⟩

end run

theorem clearTimeTable_inRange : ∀ a ∈ clearTimeTable, a.InRange := by
  intro a ha
  obtain ⟨i, hi, ha⟩ := List.mem_flatMap.mp ha
  obtain ⟨j, hj, rfl⟩ := List.mem_map.mp ha
  rw [List.mem_range] at hi hj
  unfold daysPerWeek at hi
  unfold hoursPerDay at hj
  show 0 ≤ (i : ℤ) * 24 + j ∧ (i : ℤ) * 24 + j < 168
  omega

theorem timetableAccesses_inRange (printFloat : ℚ → CString) {cfg : Settings} {entries : List Entry}
    (h : cfg.Lists entries) (hlength : cfg.confData.length ≤ maxConfigLines)
    (hcircuits : (entries.map Entry.device).dedup.length ≤ maxCircuits) :
    (∀ a ∈ timetableAccesses printFloat cfg, a.InRange) ↔
      timetableLength printFloat entries < answerSize := by
  have htext := h.length_text printFloat
  unfold timetableAccesses
  rw [List.forall_mem_append, List.forall_mem_append, List.forall_mem_singleton]
  constructor
  · rintro ⟨-, hbuffer⟩
    have hfits : (timetableText printFloat cfg).length < answerSize := hbuffer
    omega
  · intro hshort
    refine ⟨⟨?_, ?_⟩, ?_⟩
    · intro a ha
      obtain ⟨i, hi, rfl⟩ := List.mem_map.mp ha
      have hi := List.mem_range.mp hi
      unfold daysPerWeek hoursPerDay at hi
      show 0 ≤ (i : ℤ) ∧ (i : ℤ) < 168
      omega
    · intro a ha
      obtain ⟨⟨conf, i⟩, hconf, ha⟩ := List.mem_flatMap.mp ha
      have hconf : cfg.confData[i]? = some conf := List.mem_zipIdx_iff_getElem?.mp hconf
      -- the row at this position names a circuit that is in use
      obtain ⟨hi, rfl⟩ := List.getElem?_eq_some_iff.mp hconf
      have hrow := List.Forall₂.get h.rows hi (h.rows.length_eq ▸ hi)
      have hidx := (List.getElem?_eq_some_iff.mp hrow.device).1
      rw [h.length_devices] at hidx
      rcases List.mem_cons.mp ha with rfl | ha
      · exact hi.trans_le hlength
      · rw [List.mem_singleton.mp ha]
        exact hidx.trans_le hcircuits
    · show (timetableText printFloat cfg).length < answerSize
      omega

section safe

variable {scanFloat : CString → Option (ℚ × CString)} {printFloat : ℚ → CString} {file : CString}

theorem printed_inRange
    (h : readLines scanFloat rounds 0 Settings.init ((fgetsAll 127 file).map bufferText) =
      some (accesses, outcome)) (hfit : LinesFit [] (fileLines scanFloat file)) :
    (∀ a ∈ outcome.printed printFloat, a.InRange) ↔ TimetableFits printFloat (fileLines scanFloat file) := by
  have hroom : Settings.init.confData.length + (127 + 1) = maxConfigLines := rfl
  have hleft := readLines_lists Settings.Lists.init hroom h
  cases outcome with
  | formatError _ =>
      obtain ⟨items, hitems, hnone⟩ := hleft
      constructor
      · intro _ hall
        have hsome := hall items hitems
        rw [hnone] at hsome
        exact nomatch hsome
      · simp [Outcome.printed]
  | settings cfg =>
      obtain ⟨hlength, hall, hlists⟩ := hleft
      have hcircuits := hfit.circuits
      rw [List.nil_append] at hlists hcircuits
      have hprinted := timetableAccesses_inRange printFloat hlists hlength (by rwa [List.map_map])
      exact ⟨fun hrange _ => hprinted.mp hrange, fun hfits => hprinted.mpr (hfits hall)⟩

theorem linesFit_of_safe (h : Safe scanFloat printFloat file) :
    LinesFit [] (fileLines scanFloat file) ∧ TimetableFits printFloat (fileLines scanFloat file) := by
  obtain ⟨rounds, accesses, outcome, hrun, hall⟩ := h
  obtain ⟨⟨read, outcome'⟩, hread, heq⟩ := Option.map_eq_some_iff.mp hrun
  obtain ⟨rfl, rfl⟩ := Prod.mk.inj heq
  have hroom : Settings.init.confData.length + (127 + 1) = maxConfigLines := rfl
  obtain ⟨hlines, hprinted⟩ := List.forall_mem_append.mp hall
  have hfit := linesFit_of_inRange circuitsFit_init hroom hread (List.forall_mem_append.mp hlines).2
  exact ⟨hfit, (printed_inRange hread hfit).mp hprinted⟩

end safe

/-- The file is read safely exactly if its lines fit into the tables, and so does the time table that is
printed. -/
theorem safe_iff (scanFloat : CString → Option (ℚ × CString)) (printFloat : ℚ → CString) (file : CString) :
    Safe scanFloat printFloat file ↔
      LinesFit [] (fileLines scanFloat file) ∧ TimetableFits printFloat (fileLines scanFloat file) := by
  constructor
  · exact linesFit_of_safe
  · rintro ⟨hfit, htable⟩
    have hroom : Settings.init.confData.length + (127 + 1) = maxConfigLines := rfl
    obtain ⟨read, outcome, hread, hall⟩ := inRange_of_linesFit circuitsFit_init hroom hfit
    refine ⟨8, clearTimeTable ++ read ++ outcome.printed printFloat, outcome, ?_, ?_⟩
    · unfold readConfig
      rw [hread]
      rfl
    · exact List.forall_mem_append.mpr ⟨List.forall_mem_append.mpr ⟨clearTimeTable_inRange, hall⟩,
        (printed_inRange hread hfit).mpr htable⟩

/-! ### A week day that is not known -/

/-- A line with week days that are not known. -/
def unknownDays : CString := "Xx-Xx 00-24 ippp0 0:0 300 yes yes 1:2 c 0 60\n".toList

/-- A real number without a point, as far as it is needed here. -/
def scanWhole (s : CString) : Option (ℚ × CString) :=
  if (s.takeWhile Char.isDigit).isEmpty then none
  else some (digitsValue 10 (s.takeWhile Char.isDigit), s.dropWhile Char.isDigit)

/-- What `sscanf` makes of it. -/
def unknownItems : List (ScanItem ℚ) :=
  [.text "Xx".toList, .text "Xx".toList, .number 0, .number 24, .text "ippp0".toList, .number 0,
    .number 0, .number 300, .text "yes".toList, .text "yes".toList, .text "1:2".toList, .text ['c'],
    .real 0, .number 60]

/-- The day is -1, so the line fills the hours -24 to -1. -/
theorem not_safe_unknownDays : ¬ Safe scanWhole (fun _ => "0.0000".toList) unknownDays := by
  intro h
  have hfit := (linesFit_of_safe h).1
  have hlines : fileLines scanWhole unknownDays = [unknownItems] := by decide
  have hday : ScannedLine.day "Xx".toList = -1 := by decide
  rw [hlines] at hfit
  have hcovers : Between (ScannedLine.day "Xx".toList) (ScannedLine.day "Xx".toList) (-1) := by
    rw [hday]
    exact ⟨le_rfl, le_rfl⟩
  have hhours := hfit.hours _ (List.mem_filterMap.mpr ⟨_, List.mem_singleton_self _, rfl⟩) (-1) hcovers
  have hspan : SpanFits (-1 * 24 + 0) (-1 * 24 + 24) := hhours
  unfold SpanFits at hspan
  omega

end ConfigFile
end Imond
end Mkfli4l
