import Mkfli4l.Imond.Config

/-!
# The answer to `timetable`

`get_timetable (-1)` writes the global time table and a row for each line of `imond.conf` into an array
of 4096 characters.  `read_config` prints this text at its end, and the answer to the command `timetable`
consists of it and of `OK`.  The length of the text follows from the lines, so that one can tell from them
whether the configuration is read and shown without leaving an array: at most 48 lines are.
-/

namespace Mkfli4l
namespace Imond
namespace Config

open Lib

/-! ## The text -/

/-- The size of `timetable_str` and of the `answer` of `print_status`. -/
def answerSize : ℕ := 4096

/-- The text of `" %2d"`. -/
def printColumn (n : ℤ) : CString := ' ' :: (formatInt n).leftpad 2 ' '

/-- The hours of a day and the line below them. -/
def printHeading : CString :=
  "   ".toList ++ (List.finRange 24).flatMap (fun (hour : Fin 24) => printColumn hour) ++ "\r\n ".toList ++
    List.replicate 74 '-' ++ "\r\n".toList

/-- The row of a day. -/
def printDay (cfg : Settings) (day : Fin 7) : CString :=
  ' ' :: (enWdayStrings day).toList ++
    (List.finRange 24).flatMap (fun hour => printColumn (getTimetable cfg (-1) day hour)) ++ "\r\n".toList

/-- The titles of the rows of the lines. -/
def printTitles : CString :=
  " \r\n No.  Name                     LCR     DRoute  Device  Ch/Min   ChInt\r\n".toList

def getCircuitNameByConfIdx (cfg : Settings) (confIdx : ℤ) : CString :=
  if 0 ≤ confIdx ∧ confIdx < cfg.confData.length ∧ 0 ≤ confCircuitIdx cfg confIdx then
    (cfg.circuits[(confCircuitIdx cfg confIdx).toNat]?.map Circuit.name).getD []
  else "unknown".toList

/-- How a flag is shown. -/
def yesNo (flag : Bool) : CString := if flag then "yes".toList else "no".toList

/-- The row of a line.  `printFloat` stands for the way `printf` writes a real number with four digits
behind the point. -/
def printConf (printFloat : ℚ → CString) (cfg : Settings) (conf : ConfData) (i : ℕ) : CString :=
  ' ' :: (formatInt (i + 1)).leftpad 2 ' ' ++ "   ".toList ++
    (getCircuitNameByConfIdx cfg i).rightpad 20 ' ' ++ "     ".toList ++
    (yesNo conf.isLcr).rightpad 7 ' ' ++ [' '] ++ (yesNo conf.isDefaultRoute).rightpad 7 ' ' ++ [' '] ++
    (cfg.devices[conf.circuitIdx]?.getD []).rightpad 7 ' ' ++ [' '] ++
    (printFloat conf.chargePerMinute).leftpad 6 ' ' ++ "    ".toList ++
    (formatInt conf.chargeInt).leftpad 3 ' ' ++ ['\n']

/-- The text of `get_timetable (-1)`. -/
def timetableText (printFloat : ℚ → CString) (cfg : Settings) : CString :=
  printHeading ++ (List.finRange 7).flatMap (printDay cfg) ++ printTitles ++
    cfg.confData.zipIdx.flatMap fun conf => printConf printFloat cfg conf.1 conf.2

/-- `get_timetable (-1)` with its array: `none` if the text leaves it. -/
def timetable (printFloat : ℚ → CString) (cfg : Settings) : Option CString :=
  if (timetableText printFloat cfg).length < answerSize then some (timetableText printFloat cfg) else none

/-- The answer of `print_status` to the command `timetable`. -/
def timetableAnswer (printFloat : ℚ → CString) (cfg : Settings) : Option CString := do
  let text ← timetable printFloat cfg
  if text.length + 4 < answerSize then some (text ++ "OK\r\n".toList) else none

/-! ## Reading with the arrays -/

/-- The texts of a line fit into `device`, `lcr`, `default_route`, `phone_buf` and `circuit`. -/
def ConfLine.TextsFit (l : ConfLine) : Prop :=
  l.device.length < 16 ∧ l.lcr.length < 16 ∧ l.defaultRoute.length < 16 ∧ l.phoneBuf.length < 64 ∧
    l.circuit.length < 32

instance (l : ConfLine) : Decidable l.TextsFit := inferInstanceAs (Decidable (_ ∧ _))

/-- The body of the loop of `read_config`: `none` if it leaves an array. -/
def loadLine (cfg : Settings) (l : ConfLine) : Option Settings :=
  if l.TextsFit ∧ (cfg.circuits.findIdx fun c => c.device1 = l.device1) < maxCircuits then
    some (readLine cfg l)
  else none

/-- The loop over the lines. -/
def loadLines : Settings → List ConfLine → Option Settings
  | cfg, [] => some cfg
  | cfg, l :: lines => do
      let cfg ← loadLine cfg l
      if cfg.confData.length = maxConfigLines then some cfg else loadLines cfg lines

/-- `read_config`, which prints the time table at its end: `none` if it leaves an array. -/
def loadConfig (printFloat : ℚ → CString) (lines : List ConfLine) : Option Settings := do
  let cfg ← loadLines Settings.init lines
  let _ ← timetable printFloat cfg
  return cfg

/-- The lines are read, the command `timetable` is answered, and the circuit that is used at the hour is
the one of the line that is shown for it. -/
def ShowsWhatIsUsed (printFloat : ℚ → CString) (lines : List ConfLine) (hour : Hour) : Prop :=
  ∃ cfg, loadConfig printFloat lines = some cfg ∧ (timetableAnswer printFloat cfg).isSome = true ∧
    ShownIsUsed cfg hour

/-! ## The length of the text -/

/-- What the row of a line shows of it, apart from the flags. -/
structure Entry where
  device : CString
  circuit : CString
  chargePerMinute : ℚ
  chargeInt : ℤ

/-- The entry of a line. -/
def ConfLine.entry (l : ConfLine) : Entry := ⟨l.device1, l.circuit, l.chargePerMinute, l.chargeInt⟩

/-- The name of the circuit of a device: the one of the first line with this device. -/
def circuitName (entries : List Entry) (device : CString) : CString :=
  ((entries.find? fun e => e.device = device).map Entry.circuit).getD []

/-- The length of a row whose number has at most two digits. -/
def rowLength (printFloat : ℚ → CString) (entries : List Entry) (e : Entry) : ℕ :=
  33 + max 20 (circuitName entries e.device).length + max 7 e.device.length +
    max 6 (printFloat e.chargePerMinute).length + max 3 (formatInt e.chargeInt).length

/-- The length of the text, if there are less than 100 rows. -/
def timetableLength (printFloat : ℚ → CString) (entries : List Entry) : ℕ :=
  767 + (entries.map (rowLength printFloat entries)).sum

/-- The lines that are read fit into the arrays, and so does the answer to `timetable`. -/
structure Fits (printFloat : ℚ → CString) (lines : List ConfLine) : Prop where
  texts : ∀ l ∈ lines.take maxConfigLines, l.TextsFit
  circuits : ((lines.take maxConfigLines).map ConfLine.device1).dedup.length ≤ maxCircuits
  answer : timetableLength printFloat ((lines.take maxConfigLines).map ConfLine.entry) + 4 < answerSize

/-! ### What the settings hold for the text -/

/-- What a line with this entry does to the settings. -/
structure Settings.Adds (cfg : Settings) (e : Entry) (cfg' : Settings) : Prop where
  confData : ∃ conf, cfg'.confData = cfg.confData ++ [conf] ∧
    conf.circuitIdx = cfg.devices.idxOf e.device ∧ conf.chargePerMinute = e.chargePerMinute ∧
      conf.chargeInt = e.chargeInt
  labels : cfg'.labels =
    if e.device ∈ cfg.devices then cfg.labels else cfg.labels ++ [(e.device, e.circuit)]
  timeTable : ∀ i, cfg'.timeTable i = cfg.timeTable i ∨ cfg'.timeTable i = cfg.confData.length

theorem readLine_adds (cfg : Settings) (l : ConfLine) : cfg.Adds l.entry (readLine cfg l) := by
  refine ⟨⟨_, rfl, findIdx_device cfg l.device1, rfl, rfl⟩, readLine_labels cfg l, fun i => ?_⟩
  have htable : (readLine cfg l).timeTable i = (fillDays l.isLcr cfg.confData.length l.startHour l.endHour
      l.endDay 7 l.startDay ⟨cfg.timeTable, fun _ => false⟩).timeTable i := rfl
  rw [htable, fillDays_eq]
  simp only [Tables.fill]
  split
  · exact .inr rfl
  · exact .inl rfl

/-- The entry of `conf_data` for a row of the text. -/
structure Settings.Row (cfg : Settings) (conf : ConfData) (e : Entry) : Prop where
  device : cfg.devices[conf.circuitIdx]? = some e.device
  chargePerMinute : conf.chargePerMinute = e.chargePerMinute
  chargeInt : conf.chargeInt = e.chargeInt

/-- The settings hold these entries: the rows in their order, each device once and with the name of its
first entry, and no number of a line that is not there. -/
structure Settings.Lists (cfg : Settings) (entries : List Entry) : Prop where
  rows : List.Forall₂ cfg.Row cfg.confData entries
  nodup : cfg.devices.Nodup
  devices : ∀ device, device ∈ cfg.devices ↔ ∃ e ∈ entries, e.device = device
  names : ∀ label ∈ cfg.labels, label.2 = circuitName entries label.1
  timeTable : ∀ i, -1 ≤ cfg.timeTable i ∧ cfg.timeTable i < cfg.confData.length

theorem Settings.Lists.init : Settings.init.Lists [] := by
  refine ⟨List.Forall₂.nil, List.nodup_nil, fun device => ?_, ?_, fun i => ?_⟩
  · simp [Settings.devices, Settings.init]
  · simp [Settings.labels, Settings.init]
  · simp [Settings.init]

variable {entries : List Entry} {e : Entry}

theorem circuitName_append {device : CString} (h : ∃ e ∈ entries, e.device = device)
    (more : List Entry) : circuitName (entries ++ more) device = circuitName entries device := by
  obtain ⟨e, he, hdevice⟩ := h
  unfold circuitName
  rw [List.find?_append]
  cases hfind : entries.find? fun e => e.device = device with
  | some first => rfl
  | none => exact absurd hdevice (by simpa using List.find?_eq_none.mp hfind e he)

theorem circuitName_new (h : ¬ ∃ old ∈ entries, old.device = e.device) :
    circuitName (entries ++ [e]) e.device = e.circuit := by
  have hnone : (entries.find? fun old => old.device = e.device) = none := by
    rw [List.find?_eq_none]
    intro old hold heq
    exact h ⟨old, hold, by simpa using heq⟩
  unfold circuitName
  rw [List.find?_append, hnone]
  simp

theorem Settings.Lists.add {cfg cfg' : Settings} (h : cfg.Lists entries)
    (hadds : cfg.Adds e cfg') : cfg'.Lists (entries ++ [e]) := by
  obtain ⟨conf, hconf, hidx, hperMinute, hint⟩ := hadds.confData
  have hdevices := devices_of_labels hadds.labels
  refine ⟨?_, ?_, fun device => ?_, fun label hlabel => ?_, fun i => ?_⟩
  · rw [hconf]
    apply List.rel_append
    · exact h.rows.imp fun old _ row =>
        ⟨by rw [hdevices]; exact getElem?_addDevice row.device e.device, row.chargePerMinute, row.chargeInt⟩
    · refine List.Forall₂.cons ⟨?_, hperMinute, hint⟩ List.Forall₂.nil
      rw [hdevices, hidx]
      exact getElem?_addDevice_idxOf cfg.devices e.device
  · rw [hdevices]
    exact nodup_addDevice h.nodup e.device
  · rw [hdevices]
    simp only [List.mem_append, List.mem_singleton, or_and_right, exists_or, exists_eq_left]
    rw [← h.devices]
    rw [addDevice_eq]
    split
    · next hmem =>
        constructor
        · exact .inl
        · rintro (hold | rfl)
          · exact hold
          · exact hmem
    · simp [eq_comm]
  · -- a device that has a label already is the device of an earlier entry
    have hold : label ∈ cfg.labels → label.2 = circuitName (entries ++ [e]) label.1 := by
      intro hmem
      have hdevice : label.1 ∈ cfg.devices := by
        rw [← cfg.labels_fst]
        exact List.mem_map_of_mem hmem
      rw [circuitName_append ((h.devices label.1).mp hdevice)]
      exact h.names label hmem
    rw [hadds.labels] at hlabel
    split at hlabel
    · exact hold hlabel
    · next hnew =>
        rcases List.mem_append.mp hlabel with hmem | hmem
        · exact hold hmem
        · rw [List.mem_singleton.mp hmem, circuitName_new (by rwa [← h.devices])]
  · have hbefore := h.timeTable i
    rw [hconf, List.length_append, List.length_singleton]
    rcases hadds.timeTable i with htime | htime <;> rw [htime] <;> push_cast <;> omega

theorem Settings.Lists.length_devices {cfg : Settings} (h : cfg.Lists entries) :
    cfg.devices.length = (entries.map Entry.device).dedup.length := by
  have hsame : cfg.devices.toFinset = (entries.map Entry.device).toFinset := by
    ext device
    simp [h.devices]
  rw [← List.toFinset_card_of_nodup h.nodup, ← List.card_toFinset, hsame]

/-! ### The parts of the text -/

theorem length_printColumn (n : ℤ) : (printColumn n).length = 1 + max 2 (formatInt n).length := by
  rw [printColumn, List.length_cons, List.length_leftpad]
  omega

theorem length_formatInt {n : ℤ} (h : 0 ≤ n) (hsmall : n < 100) : (formatInt n).length ≤ 2 := by
  have hall : ∀ k < 100, (formatInt (k : ℕ)).length ≤ 2 := by decide
  have hn : ((n.toNat : ℕ) : ℤ) = n := by omega
  rw [← hn]
  exact hall n.toNat (by omega)

theorem length_printHeading : printHeading.length = 154 := by
  have hcolumn : ∀ hour : Fin 24, (printColumn hour).length = 3 := by decide
  simp [printHeading, List.length_flatMap, hcolumn]

theorem length_printTitles : printTitles.length = 74 := rfl

theorem length_printDay {cfg : Settings} (h : cfg.Lists entries)
    (hsmall : entries.length < 100) (day : Fin 7) : (printDay cfg day).length = 77 := by
  have hcolumn : ∀ hour, (printColumn (getTimetable cfg (-1) day hour)).length = 3 := by
    intro hour
    have htime := h.timeTable (day * hoursPerDay + hour)
    have hlength := h.rows.length_eq
    have hnumber : getTimetable cfg (-1) day hour = cfg.timeTable (day * hoursPerDay + hour) + 1 := by
      simp [getTimetable]
    rw [length_printColumn, hnumber]
    have hle := length_formatInt (n := cfg.timeTable (day * hoursPerDay + hour) + 1) (by omega) (by omega)
    omega
  have hname : ∀ day, (enWdayStrings day).toList.length = 2 := by decide
  rw [printDay, List.length_append, List.length_append, List.length_cons, hname, List.length_flatMap]
  simp only [hcolumn]
  simp

theorem length_printConf (printFloat : ℚ → CString) {cfg : Settings} {conf : ConfData}
    {i : ℕ} (h : cfg.Lists entries) (hconf : cfg.confData[i]? = some conf)
    (hrow : cfg.Row conf e) : (printConf printFloat cfg conf i).length + 2 =
      rowLength printFloat entries e + max 2 (formatInt (i + 1)).length := by
  obtain ⟨hi, -⟩ := List.getElem?_eq_some_iff.mp hconf
  have hname : getCircuitNameByConfIdx cfg i = circuitName entries e.device := by
    have hdevice := hrow.device
    rw [Settings.devices, List.getElem?_map] at hdevice
    obtain ⟨c, hc, hdevice⟩ := Option.map_eq_some_iff.mp hdevice
    have hlabel : c.name = circuitName entries c.device1 :=
      h.names (c.device1, c.name) (List.mem_map_of_mem (List.mem_of_getElem? hc))
    have hidx : confCircuitIdx cfg i = conf.circuitIdx := by simp [confCircuitIdx, hconf]
    rw [← hdevice, ← hlabel, getCircuitNameByConfIdx, if_pos ⟨by omega, by omega, by omega⟩, hidx]
    simp [hc]
  have hflag : ∀ flag, (yesNo flag).length ≤ 7 := by decide
  have hlcr := hflag conf.isLcr
  have hroute := hflag conf.isDefaultRoute
  unfold printConf rowLength
  simp only [hname, hrow.device, hrow.chargePerMinute, hrow.chargeInt, Option.getD_some, List.length_append,
    List.length_cons, List.length_nil, List.length_leftpad, List.length_rightpad, String.length_toList]
  have h₃ : "   ".length = 3 := rfl
  have h₄ : "    ".length = 4 := rfl
  have h₅ : "     ".length = 5 := rfl
  omega

theorem mul_length_le_sum {m : ℕ} {l : List ℕ} (h : ∀ k ∈ l, m ≤ k) : m * l.length ≤ l.sum := by
  simpa [mul_comm] using List.card_nsmul_le_sum l m h

theorem Settings.Lists.length_text {cfg : Settings} (h : cfg.Lists entries) (printFloat : ℚ → CString) :
    (timetableText printFloat cfg).length = timetableLength printFloat entries ∨
      (answerSize ≤ (timetableText printFloat cfg).length ∧
        answerSize ≤ timetableLength printFloat entries) := by
  have hlength := h.rows.length_eq
  -- the row at each position is the one of the entry there
  have hrow : ∀ (i : ℕ) (hi : i < cfg.confData.length),
      (printConf printFloat cfg cfg.confData[i] i).length + 2 =
        rowLength printFloat entries entries[i] + max 2 (formatInt (i + 1)).length := by
    intro i hi
    apply length_printConf printFloat h (List.getElem?_eq_getElem hi)
    exact List.Forall₂.get h.rows hi (by omega)
  unfold timetableText
  rw [List.length_append, List.length_append, List.length_append, List.length_flatMap, List.length_flatMap,
    length_printHeading, length_printTitles]
  by_cases hsmall : entries.length < 100
  · left
    have hdays : (fun day => (printDay cfg day).length) = fun _ => 77 :=
      funext (length_printDay h hsmall)
    have hrows : (cfg.confData.zipIdx.map fun x => (printConf printFloat cfg x.1 x.2).length) =
        entries.map (rowLength printFloat entries) := by
      apply List.ext_getElem (by simp [hlength])
      intro i hi hi'
      have hnumber := length_formatInt (n := i + 1) (by omega) (by simp at hi'; omega)
      have := hrow i (by simpa using hi)
      simp only [List.getElem_map, List.getElem_zipIdx, zero_add]
      omega
    rw [hrows, hdays]
    simp [timetableLength]
  · right
    -- 100 rows of 69 characters each are too many
    have hprinted := mul_length_le_sum (m := 69)
      (l := cfg.confData.zipIdx.map fun x => (printConf printFloat cfg x.1 x.2).length) (by
        intro k hk
        obtain ⟨x, hx, rfl⟩ := List.mem_map.mp hk
        obtain ⟨hi, hconf⟩ := List.getElem?_eq_some_iff.mp (List.mem_zipIdx_iff_getElem?.mp hx)
        have hthis := hrow x.2 hi
        unfold rowLength at hthis
        rw [hconf] at hthis
        omega)
    have hlisted := mul_length_le_sum (m := 69) (l := entries.map (rowLength printFloat entries)) (by
      intro k hk
      obtain ⟨e, -, rfl⟩ := List.mem_map.mp hk
      unfold rowLength
      omega)
    rw [List.length_map, List.length_zipIdx] at hprinted
    rw [List.length_map] at hlisted
    unfold answerSize timetableLength
    omega

/-! ## When the circuits fit -/

/-- There is room for the circuits, and no two of them have one device. -/
structure CircuitsFit (cfg : Settings) : Prop where
  nodup : cfg.devices.Nodup
  length_le : cfg.devices.length ≤ maxCircuits

theorem circuitsFit_init : CircuitsFit Settings.init := ⟨List.nodup_nil, Nat.zero_le _⟩

theorem length_dedup_addDevice (devices : List CString) (device : CString) (more : List CString) :
    (addDevice devices device ++ more).dedup.length = (devices ++ device :: more).dedup.length := by
  have hsame : (addDevice devices device ++ more).toFinset = (devices ++ device :: more).toFinset := by
    rw [addDevice_eq]
    split
    · next hmem =>
        ext old
        simp only [List.toFinset_append, List.toFinset_cons, Finset.mem_union, List.mem_toFinset,
          Finset.mem_insert]
        constructor
        · rintro (h | h)
          · exact .inl h
          · exact .inr (.inr h)
        · rintro (h | rfl | h)
          · exact .inl h
          · exact .inl hmem
          · exact .inr h
    · rw [List.append_assoc, List.singleton_append]
  rw [← List.card_toFinset, ← List.card_toFinset, hsame]

section circuits

variable {cfg cfg' : Settings} {device : CString}

theorem CircuitsFit.dedup_le (h : CircuitsFit cfg) : (cfg.devices ++ []).dedup.length ≤ maxCircuits := by
  rw [List.append_nil, h.nodup.dedup]
  exact h.length_le

theorem CircuitsFit.add (h : CircuitsFit cfg) (hdevices : cfg'.devices = addDevice cfg.devices device)
    (hidx : cfg.devices.idxOf device < maxCircuits) : CircuitsFit cfg' := by
  constructor
  · rw [hdevices]
    exact nodup_addDevice h.nodup device
  · rw [hdevices]
    rw [addDevice_eq]
    split
    · exact h.length_le
    · next hmem =>
        rw [List.idxOf_eq_length_iff.mpr hmem] at hidx
        rw [List.length_append, List.length_singleton]
        omega

theorem CircuitsFit.idxOf_lt (h : CircuitsFit cfg) {more : List CString}
    (hroom : (cfg.devices ++ device :: more).dedup.length ≤ maxCircuits) :
    cfg.devices.idxOf device < maxCircuits := by
  have hnodup := nodup_addDevice h.nodup device
  have hprefix : (addDevice cfg.devices device).length ≤
      (addDevice cfg.devices device ++ more).dedup.length := by
    rw [← List.toFinset_card_of_nodup hnodup, ← List.card_toFinset, List.toFinset_append]
    exact Finset.card_le_card Finset.subset_union_left
  have hlt := (List.getElem?_eq_some_iff.mp (getElem?_addDevice_idxOf cfg.devices device)).1
  rw [length_dedup_addDevice] at hprefix
  omega

end circuits

/-! ## Reading and showing -/

theorem loadLines_eq_some_iff {lines : List ConfLine} {cfg cfg' : Settings} {k : ℕ}
    (hk : cfg.confData.length + (k + 1) = maxConfigLines) (h : CircuitsFit cfg) :
    loadLines cfg lines = some cfg' ↔ (∀ l ∈ lines.take (k + 1), l.TextsFit) ∧
      (cfg.devices ++ (lines.take (k + 1)).map ConfLine.device1).dedup.length ≤ maxCircuits ∧
        cfg' = readLines cfg lines := by
  induction lines generalizing cfg k with
  | nil =>
      have hroom := h.dedup_le
      simpa [loadLines, readLines, eq_comm] using fun _ => hroom
  | cons l lines ih =>
      have hlength := readLine_length cfg l
      rw [List.take_succ_cons, List.forall_mem_cons, List.map_cons, ← length_dedup_addDevice,
        ← readLine_devices, readLines, loadLines, loadLine, findIdx_device]
      by_cases hfit : l.TextsFit ∧ cfg.devices.idxOf l.device1 < maxCircuits
      · have hnext : CircuitsFit (readLine cfg l) := h.add (readLine_devices cfg l) hfit.2
        rw [if_pos hfit]
        simp only [Option.bind_eq_bind, Option.bind_some]
        by_cases hfull : (readLine cfg l).confData.length = maxConfigLines
        · -- the last line that is read
          obtain rfl : k = 0 := by omega
          have hroom : (readLine cfg l).devices.dedup.length ≤ maxCircuits := by
            simpa using hnext.dedup_le
          simp only [if_pos hfull, List.take_zero, List.map_nil]
          simp [hfit.1, hroom, eq_comm]
        · obtain ⟨j, rfl⟩ : ∃ j, k = j + 1 := ⟨k - 1, by omega⟩
          simp only [if_neg hfull]
          rw [ih (k := j) (by omega) hnext]
          simp [hfit.1]
      · rw [if_neg hfit]
        constructor
        · intro hnone
          cases hnone
        · rintro ⟨⟨htext, -⟩, hroom, -⟩
          rw [readLine_devices, length_dedup_addDevice] at hroom
          exact absurd ⟨htext, h.idxOf_lt hroom⟩ hfit

theorem readConfig_lists (lines : List ConfLine) :
    (readConfig lines).Lists ((lines.take maxConfigLines).map ConfLine.entry) := by
  rw [readConfig_eq]
  induction lines.take maxConfigLines using List.reverseRecOn with
  | nil => exact Settings.Lists.init
  | append_singleton lines l ih =>
      rw [List.foldl_append, List.map_append]
      exact ih.add (readLine_adds _ l)

theorem loaded_iff_fits (printFloat : ℚ → CString) (lines : List ConfLine) (cfg : Settings) :
    (loadConfig printFloat lines = some cfg ∧ (timetableAnswer printFloat cfg).isSome = true) ↔
      Fits printFloat lines ∧ cfg = readConfig lines := by
  have hroom : Settings.init.confData.length + (127 + 1) = maxConfigLines := rfl
  have hload : loadLines Settings.init lines = some cfg ↔ _ := loadLines_eq_some_iff hroom circuitsFit_init
  have hlength := (readConfig_lists lines).length_text printFloat
  -- the answer is longer than the text that is printed before
  have hanswer : (loadConfig printFloat lines = some cfg ∧ (timetableAnswer printFloat cfg).isSome = true) ↔
      loadLines Settings.init lines = some cfg ∧ (timetableText printFloat cfg).length + 4 < answerSize := by
    unfold loadConfig timetableAnswer timetable
    cases hlines : loadLines Settings.init lines with
    | none => simp
    | some cfg₀ =>
        simp only [Option.bind_eq_bind, Option.bind_some, Option.pure_def]
        constructor
        · rintro ⟨hprinted, hsome⟩
          split at hprinted
          · next hfits =>
              obtain rfl := Option.some.inj hprinted
              rw [if_pos hfits, Option.bind_some] at hsome
              split at hsome
              · next hshort => exact ⟨rfl, hshort⟩
              · exact nomatch hsome
          · exact nomatch hprinted
        · rintro ⟨heq, hshort⟩
          obtain rfl := Option.some.inj heq
          have hprinted : (timetableText printFloat cfg₀).length < answerSize := by omega
          simp [hprinted, hshort]
  rw [hanswer, hload]
  constructor
  · rintro ⟨⟨htexts, hcircuits, rfl⟩, hshort⟩
    have hsettings : readLines Settings.init lines = readConfig lines := rfl
    rw [hsettings] at hshort
    exact ⟨⟨htexts, hcircuits, by omega⟩, rfl⟩
  · rintro ⟨hfits, rfl⟩
    have hshort := hfits.answer
    exact ⟨⟨hfits.texts, hfits.circuits, rfl⟩, by omega⟩

/-- The least-cost routing uses the circuit that the time table shows for an hour exactly if the lines fit
into the arrays and the first line and the last one for the hour have the same device. -/
theorem shownIsUsed_iff (printFloat : ℚ → CString) (lines : List ConfLine) (hour : Hour) :
    ShowsWhatIsUsed printFloat lines hour ↔ Fits printFloat lines ∧ OneDevice lines hour := by
  have hloaded := loaded_iff_fits printFloat lines
  constructor
  · rintro ⟨cfg, hload, hanswer, hshown⟩
    obtain ⟨hfits, rfl⟩ := (hloaded cfg).mp ⟨hload, hanswer⟩
    exact ⟨hfits, (readConfig_shownIsUsed lines hour).mp hshown⟩
  · rintro ⟨hfits, hdevice⟩
    obtain ⟨hload, hanswer⟩ := (hloaded (readConfig lines)).mpr ⟨hfits, rfl⟩
    exact ⟨readConfig lines, hload, hanswer, (readConfig_shownIsUsed lines hour).mpr hdevice⟩

/-- Two circuits for Monday, which are read and shown: the second one is shown, and the first one is
used. -/
theorem shownIsUsed_broken_on_monday :
    Fits (fun _ => "0.0000".toList) [mondayLine "ippp0" "first", mondayLine "ippp1" "second"] ∧
      ¬ ShowsWhatIsUsed (fun _ => "0.0000".toList)
        [mondayLine "ippp0" "first", mondayLine "ippp1" "second"] 24 := by
  constructor
  · exact ⟨by decide, by decide, by decide⟩
  · rintro ⟨cfg, hload, hanswer, hshown⟩
    obtain ⟨-, rfl⟩ := (loaded_iff_fits _ _ cfg).mp ⟨hload, hanswer⟩
    have heq := hshown.circuit_eq
    revert heq
    decide

end Config
end Imond
end Mkfli4l
