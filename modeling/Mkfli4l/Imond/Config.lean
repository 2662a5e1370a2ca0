import Mathlib.Tactic
import Mkfli4l.Lib.CNumber

/-!
# The configuration of `imond` and its time tables

Each line of `/etc/imond.conf` names a circuit, a range of week days and a range of hours.
`read_config` keeps a time table for each line and a global one, in which an hour holds the number of
the line that has filled it last.  Only lines with the LCR flag fill the global table.  It is what the
command `timetable` prints.

The circuit of the default route is not taken from the global table: `find_circuit` goes through the
lines and takes the first one with the LCR flag whose own table contains the hour.  The module shows
for which configurations this makes no difference.
-/

namespace Mkfli4l
namespace Imond
namespace Config

open Lib

def hoursPerDay : ℕ := 24

def maxConfigLines : ℕ := 128

def maxCircuits : ℕ := 32

/-- An hour of the week. -/
abbrev Hour := Fin 168

def enWdayStrings : Fin 7 → String := !["Su", "Mo", "Tu", "We", "Th", "Fr", "Sa"]

def geWdayStrings : Fin 7 → String := !["So", "Mo", "Di", "Mi", "Do", "Fr", "Sa"]

/-- `convert_week_day_to_day`; `none` is -1. -/
def convertWeekDayToDay (weekDay : String) : Option (Fin 7) :=
  (List.finRange 7).find? fun i => weekDay = enWdayStrings i || weekDay = geWdayStrings i

/-- A line of `imond.conf` as `sscanf` takes it apart.  The week days and the hours come from the
variables `CIRC_%_TIMES`, whose types `CIRC_WEEKDAY` and `CIRC_HOUR` admit no other ones. -/
structure ConfLine where
  startWeekDay : String
  endWeekDay : String
  startHour : ℕ
  endHour : ℕ
  device : CString
  bandwidthRate : ℤ
  bandwidthTime : ℤ
  hupTimeout : ℤ
  lcr : String
  defaultRoute : String
  phoneBuf : CString
  circuit : CString
  chargePerMinute : ℚ
  chargeInt : ℤ
  startWeekDay_known : (convertWeekDayToDay startWeekDay).isSome = true
  endWeekDay_known : (convertWeekDayToDay endWeekDay).isSome = true
  startHour_le : startHour ≤ 24
  endHour_le : endHour ≤ 24

namespace ConfLine

/-- The first day of the range. -/
def startDay (l : ConfLine) : Fin 7 :=
  (convertWeekDayToDay l.startWeekDay).get l.startWeekDay_known

/-- The last day of the range. -/
def endDay (l : ConfLine) : Fin 7 := (convertWeekDayToDay l.endWeekDay).get l.endWeekDay_known

def isLcr (l : ConfLine) : Bool := l.lcr = "yes"

/-- `device_1`, the device in front of the slash. -/
def device1 (l : ConfLine) : CString := l.device.takeWhile (· ≠ '/')

/-- `device_2`, the device behind the slash, or nothing. -/
def device2 (l : ConfLine) : CString := (l.device.dropWhile (· ≠ '/')).drop 1

end ConfLine

structure ConfData where
  timeTable : ℕ → Bool
  isLcr : Bool
  isDefaultRoute : Bool
  outgoingPhone : CString
  incomingPhone : CString
  circuitIdx : ℕ
  chargePerMinute : ℚ
  chargeInt : ℤ
  isPppoe : Bool

structure Circuit where
  name : CString
  device1 : CString
  device2 : CString
  online : Bool
  hupTimeout : ℤ
  bandwidthTime : ℤ
  bandwidthRate : ℤ
  linkAdded : ℤ
deriving DecidableEq

/-- What `read_config` leaves behind: the global time table and the arrays `conf_data` and `circuits`
up to `n_conf_lines_used` and `n_circuits`. -/
structure Settings where
  timeTable : ℕ → ℤ
  confData : List ConfData
  circuits : List Circuit
  pppoeUsed : Bool

/-- The settings before the first line. -/
def Settings.init : Settings := ⟨fun _ => -1, [], [], false⟩

/-! ## Filling the time tables -/

/-- The global time table and the table of the present line. -/
structure Tables where
  timeTable : ℕ → ℤ
  own : ℕ → Bool

/-- `fill_time_table` for line `n`. -/
def fillTimeTable (doFillGlobalTable : Bool) (n startTime endTime : ℕ) (t : Tables) : Tables where
  timeTable := fun i =>
    if doFillGlobalTable && (startTime ≤ i && i < endTime) then n else t.timeTable i
  own := fun i => (startTime ≤ i && i < endTime) || t.own i

/-- The body of the loop over the days.  Where the hours wrap around, the hours from midnight on are
those of the same day. -/
def fillDay (isLcr : Bool) (n startHour endHour : ℕ) (day : Fin 7) (t : Tables) : Tables :=
  if endHour < startHour then
    fillTimeTable isLcr n (day * hoursPerDay + 0) (day * hoursPerDay + endHour)
      (fillTimeTable isLcr n (day * hoursPerDay + startHour) (day * hoursPerDay + hoursPerDay) t)
  else
    fillTimeTable isLcr n (day * hoursPerDay + startHour) (day * hoursPerDay + endHour) t

/-- The loop over the days.  A week has no more rounds than the number given here. -/
def fillDays (isLcr : Bool) (n startHour endHour : ℕ) (endDay : Fin 7) :
    ℕ → Fin 7 → Tables → Tables
  | 0, _, t => t
  | rounds + 1, day, t =>
      let t := fillDay isLcr n startHour endHour day t
      if day = endDay then t else fillDays isLcr n startHour endHour endDay rounds (day + 1) t

/-! ## Reading the configuration -/

/-- The entry of `circuits` for a line: an entry that is there keeps its name. -/
def updateCircuit (l : ConfLine) (c : Circuit) : Circuit :=
  { c with
    device1 := l.device1
    device2 := l.device2
    bandwidthTime := l.bandwidthTime
    bandwidthRate := l.bandwidthRate
    hupTimeout := l.hupTimeout }

/-- An entry of `circuits` that has not been used yet, with its name. -/
def newCircuit (name : CString) : Circuit := ⟨name, [], [], false, 0, 0, 0, 0⟩

/-- The body of the loop of `read_config`. -/
def readLine (cfg : Settings) (l : ConfLine) : Settings :=
  let n := cfg.confData.length
  let i := cfg.circuits.findIdx fun c => c.device1 = l.device1
  let circuits :=
    if i = cfg.circuits.length then cfg.circuits ++ [updateCircuit l (newCircuit l.circuit)]
    else cfg.circuits.modify i (updateCircuit l)
  let tables := fillDays l.isLcr n l.startHour l.endHour l.endDay 7 l.startDay
    ⟨cfg.timeTable, fun _ => false⟩
  { timeTable := tables.timeTable
    confData := cfg.confData ++ [
      { timeTable := tables.own
        isLcr := l.isLcr
        isDefaultRoute := l.defaultRoute = "yes"
        outgoingPhone := l.phoneBuf.takeWhile (· ≠ ':')
        incomingPhone := (l.phoneBuf.dropWhile (· ≠ ':')).drop 1
        circuitIdx := i
        chargePerMinute := l.chargePerMinute
        chargeInt := l.chargeInt
        isPppoe := l.device = "pppoe".toList }]
    circuits := circuits
    pppoeUsed := cfg.pppoeUsed || l.device = "pppoe".toList }

/-- The loop of `read_config` over the lines that are no comments. -/
def readLines : Settings → List ConfLine → Settings
  | cfg, [] => cfg
  | cfg, l :: lines =>
      let cfg := readLine cfg l
      if cfg.confData.length = maxConfigLines then cfg else readLines cfg lines

/-- What `read_config` leaves in the arrays, as far as they are large enough. -/
def readConfig (lines : List ConfLine) : Settings := readLines Settings.init lines

/-! ## Choosing and showing a circuit -/

/-- `CONF_CIRCUIT_IDX`.  An entry of `conf_data` that is not in use is zero. -/
def confCircuitIdx (cfg : Settings) (confIdx : ℤ) : ℤ :=
  if 0 ≤ confIdx then ((cfg.confData[confIdx.toNat]?).map ConfData.circuitIdx).getD 0 else -1

/-- `find_circuit` at an hour of the week; holidays count as Sundays. -/
def findCircuit (cfg : Settings) (routeIdx : ℤ) (hour : Hour) : ℤ :=
  if 0 ≤ routeIdx then routeIdx
  else
    match cfg.confData.find? fun conf => conf.timeTable hour && conf.isLcr with
    | some conf => conf.circuitIdx
    | none => -1

/-- The numbers that `get_timetable` prints, a row for each day, a column for each hour. -/
def getTimetable (cfg : Settings) (confIdx : ℤ) (day : Fin 7) (hour : Fin 24) : ℤ :=
  if confIdx < 0 ∨ maxConfigLines ≤ confIdx then cfg.timeTable (day * hoursPerDay + hour) + 1
  else if ((cfg.confData[confIdx.toNat]?).map fun conf =>
      conf.timeTable (day * hoursPerDay + hour)).getD false then
    confIdx + 1
  else 0

/-- The line that the answer to `timetable` names for an hour, counted from zero; -1 if it names none. -/
def shownLine (cfg : Settings) (hour : Hour) : ℤ :=
  getTimetable cfg (-1) ⟨hour / 24, by omega⟩ ⟨hour % 24, by omega⟩ - 1

/-- The circuit that is used at an hour is the circuit of the line that is shown for it, and there is
none exactly if no line is shown. -/
structure ShownIsUsed (cfg : Settings) (hour : Hour) : Prop where
  circuit_eq : findCircuit cfg (-1) hour = confCircuitIdx cfg (shownLine cfg hour)
  none_iff : findCircuit cfg (-1) hour = -1 ↔ shownLine cfg hour = -1

/-! ## The meaning of a line -/

namespace ConfLine

/-- Is the hour of a day in the range of hours?  A range whose end lies in front of its start wraps
around. -/
def coversHour (l : ConfLine) (h : ℕ) : Bool :=
  if l.endHour < l.startHour then l.startHour ≤ h || h < l.endHour
  else l.startHour ≤ h && h < l.endHour

/-- Is the day in the range of days?  The days are counted from the first day of the range. -/
def coversDay (l : ConfLine) (day : Fin 7) : Bool := day - l.startDay ≤ l.endDay - l.startDay

/-- Does the line contain the hour? -/
def covers (l : ConfLine) (hour : Hour) : Bool :=
  l.coversDay ⟨hour / 24, by omega⟩ && l.coversHour (hour % 24)

/-- The line takes part in the least-cost routing at this hour. -/
def claims (hour : Hour) (l : ConfLine) : Bool := l.covers hour && l.isLcr

end ConfLine

/-- The lines that take part in the least-cost routing at an hour, of those that are read. -/
def claimants (lines : List ConfLine) (hour : Hour) : List ConfLine :=
  (lines.take maxConfigLines).filter (ConfLine.claims hour)

/-- The first and the last of the lines for an hour have the same device. -/
def OneDevice (lines : List ConfLine) (hour : Hour) : Prop :=
  (claimants lines hour).head?.map ConfLine.device1 =
    (claimants lines hour).getLast?.map ConfLine.device1

instance (lines : List ConfLine) (hour : Hour) : Decidable (OneDevice lines hour) :=
  inferInstanceAs (Decidable (_ = _))

/-! ## What a line fills -/

/-- Fill the hours with a property. -/
def Tables.fill (isLcr : Bool) (n : ℕ) (p : ℕ → Bool) (t : Tables) : Tables where
  timeTable := fun i => if isLcr && p i then n else t.timeTable i
  own := fun i => p i || t.own i

theorem fillTimeTable_eq (isLcr : Bool) (n startTime endTime : ℕ) (t : Tables) :
    fillTimeTable isLcr n startTime endTime t =
      t.fill isLcr n fun i => startTime ≤ i && i < endTime := rfl

theorem Tables.fill_fill (isLcr : Bool) (n : ℕ) (p q : ℕ → Bool) (t : Tables) :
    (t.fill isLcr n p).fill isLcr n q = t.fill isLcr n fun i => q i || p i := by
  simp only [Tables.fill, Tables.mk.injEq]
  constructor
  · funext i
    cases isLcr <;> by_cases hq : q i = true <;> simp [hq]
  · funext i
    exact (Bool.or_assoc _ _ _).symm

theorem fillDay_eq (l : ConfLine) (n : ℕ) (day : Fin 7) (t : Tables) :
    fillDay l.isLcr n l.startHour l.endHour day t =
      t.fill l.isLcr n fun i => i / 24 = day && l.coversHour (i % 24) := by
  have hstart := l.startHour_le
  have hend := l.endHour_le
  unfold fillDay ConfLine.coversHour hoursPerDay
  by_cases hwrap : l.endHour < l.startHour
  · simp only [if_pos hwrap, fillTimeTable_eq, Tables.fill_fill]
    congr 1
    funext i
    rw [Bool.eq_iff_iff]
    simp
    omega
  · simp only [if_neg hwrap, fillTimeTable_eq]
    congr 1
    funext i
    rw [Bool.eq_iff_iff]
    simp
    omega

/-- The days that the loop comes by. -/
def visitedDays (endDay : Fin 7) : ℕ → Fin 7 → List (Fin 7)
  | 0, _ => []
  | rounds + 1, day =>
      if day = endDay then [day] else day :: visitedDays endDay rounds (day + 1)

theorem mem_visitedDays (startDay endDay day : Fin 7) :
    day ∈ visitedDays endDay 7 startDay ↔ day - startDay ≤ endDay - startDay := by
  revert startDay endDay day
  decide

theorem fillDays_eq (l : ConfLine) (n rounds : ℕ) (day : Fin 7) (t : Tables) :
    fillDays l.isLcr n l.startHour l.endHour l.endDay rounds day t =
      t.fill l.isLcr n fun i =>
        (visitedDays l.endDay rounds day).any (fun d => i / 24 = d) && l.coversHour (i % 24) := by
  induction rounds generalizing day t with
  | zero => simp [fillDays, visitedDays, Tables.fill]
  | succ rounds ih =>
      rw [fillDays, fillDay_eq]
      by_cases hlast : day = l.endDay
      · simp [visitedDays, hlast]
      · -- the later days are filled on top of this one
        simp only [if_neg hlast, ih, Tables.fill_fill, visitedDays, List.any_cons]
        congr 1
        funext i
        rw [Bool.or_comm, Bool.and_or_distrib_right]

theorem fillDays_covers (l : ConfLine) (n : ℕ) (t : Tables) (hour : Hour) :
    (fillDays l.isLcr n l.startHour l.endHour l.endDay 7 l.startDay t).own hour =
        (l.covers hour || t.own hour) ∧
      (fillDays l.isLcr n l.startHour l.endHour l.endDay 7 l.startDay t).timeTable hour =
        if l.claims hour then (n : ℤ) else t.timeTable hour := by
  have hdays : ((visitedDays l.endDay 7 l.startDay).any fun d => (hour : ℕ) / 24 = d) =
      l.coversDay ⟨hour / 24, by omega⟩ := by
    rw [Bool.eq_iff_iff, List.any_eq_true]
    simp only [ConfLine.coversDay, decide_eq_true_eq]
    rw [← mem_visitedDays]
    constructor
    · rintro ⟨d, hd, heq⟩
      rwa [show (⟨hour / 24, by omega⟩ : Fin 7) = d from Fin.ext heq]
    · intro h
      exact ⟨_, h, rfl⟩
  rw [fillDays_eq]
  simp only [Tables.fill, hdays, ConfLine.claims, ConfLine.covers]
  constructor
  · trivial
  · rw [Bool.and_comm l.isLcr]
    rfl

/-! ## What the lines leave behind -/

theorem readLine_length (cfg : Settings) (l : ConfLine) :
    (readLine cfg l).confData.length = cfg.confData.length + 1 := by
  simp [readLine]

theorem readLines_eq (lines : List ConfLine) (cfg : Settings) (k : ℕ)
    (hk : cfg.confData.length + (k + 1) = maxConfigLines) :
    readLines cfg lines = (lines.take (k + 1)).foldl readLine cfg := by
  induction lines generalizing cfg k with
  | nil => rfl
  | cons l lines ih =>
      have hlength := readLine_length cfg l
      rw [readLines, List.take_succ_cons, List.foldl_cons]
      by_cases hfull : (readLine cfg l).confData.length = maxConfigLines
      · have hzero : k = 0 := by omega
        simp [hfull, hzero]
      · obtain ⟨j, rfl⟩ : ∃ j, k = j + 1 := ⟨k - 1, by omega⟩
        simp only [if_neg hfull]
        exact ih (readLine cfg l) j (by omega)

theorem readConfig_eq (lines : List ConfLine) :
    readConfig lines = (lines.take maxConfigLines).foldl readLine Settings.init :=
  readLines_eq lines Settings.init 127 rfl

/-- The devices of the circuits. -/
def Settings.devices (cfg : Settings) : List CString := cfg.circuits.map Circuit.device1

theorem findIdx_device (cfg : Settings) (device : CString) :
    (cfg.circuits.findIdx fun c => c.device1 = device) = cfg.devices.idxOf device := by
  unfold Settings.devices List.idxOf
  rw [List.findIdx_map]
  congr 1
  funext c
  simp [beq_eq_decide]

theorem devices_length (cfg : Settings) : cfg.devices.length = cfg.circuits.length :=
  List.length_map _

/-- The devices of the circuits with the names. -/
def Settings.labels (cfg : Settings) : List (CString × CString) :=
  cfg.circuits.map fun c => (c.device1, c.name)

theorem Settings.labels_fst (cfg : Settings) : cfg.labels.map Prod.fst = cfg.devices := List.map_map

/-- The devices with one more, which comes last if it is new. -/
def addDevice (devices : List CString) (device : CString) : List CString :=
  if devices.contains device then devices else devices ++ [device]

theorem addDevice_eq (devices : List CString) (device : CString) :
    addDevice devices device = if device ∈ devices then devices else devices ++ [device] := by
  simp [addDevice]

theorem labels_store (cfg : Settings) {device : CString} {f : Circuit → Circuit}
    (hf : ∀ c, (f c).device1 = device) (hname : ∀ c, (f c).name = c.name) (name : CString) :
    (if (cfg.circuits.findIdx fun c => c.device1 = device) = cfg.circuits.length then
      cfg.circuits ++ [f (newCircuit name)]
    else cfg.circuits.modify (cfg.circuits.findIdx fun c => c.device1 = device) f).map
        (fun c => (c.device1, c.name)) =
      if device ∈ cfg.devices then cfg.labels else cfg.labels ++ [(device, name)] := by
  have hlength := devices_length cfg
  rw [findIdx_device]
  by_cases hmem : device ∈ cfg.devices
  · have hlt := List.idxOf_lt_length_iff.mpr hmem
    rw [if_pos hmem, if_neg (by omega)]
    apply List.ext_getElem?
    intro j
    rw [List.getElem?_map, List.getElem?_modify]
    by_cases hj : cfg.devices.idxOf device = j
    · -- the entry that is updated has this device already
      have hfound : cfg.devices[cfg.devices.idxOf device]? = some device := List.getElem?_idxOf hmem
      rw [hj, Settings.devices, List.getElem?_map] at hfound
      cases hentry : cfg.circuits[j]? with
      | none => simp [hentry] at hfound
      | some c =>
          have hdevice : c.device1 = device := by simpa [hentry] using hfound
          simp [Settings.labels, hentry, hj, hf, hname, hdevice]
    · simp only [if_neg hj]
      simp [Settings.labels]
  · have hnone := List.idxOf_eq_length_iff.mpr hmem
    rw [if_neg hmem, if_pos (by omega), List.map_append, List.map_singleton, hf, hname]
    rfl

theorem readLine_labels (cfg : Settings) (l : ConfLine) :
    (readLine cfg l).labels =
      if l.device1 ∈ cfg.devices then cfg.labels else cfg.labels ++ [(l.device1, l.circuit)] := by
  have hf : ∀ c, (updateCircuit l c).device1 = l.device1 := fun _ => rfl
  exact labels_store cfg hf (fun _ => rfl) l.circuit

variable {cfg : Settings} {lines : List ConfLine}

theorem devices_of_labels {cfg' : Settings} {device name : CString}
    (h : cfg'.labels = if device ∈ cfg.devices then cfg.labels else cfg.labels ++ [(device, name)]) :
    cfg'.devices = addDevice cfg.devices device := by
  rw [← Settings.labels_fst, h]
  rw [addDevice_eq]
  split
  · exact cfg.labels_fst
  · rw [List.map_append, Settings.labels_fst]
    rfl

theorem readLine_devices (cfg : Settings) (l : ConfLine) :
    (readLine cfg l).devices = addDevice cfg.devices l.device1 :=
  devices_of_labels (readLine_labels cfg l)

theorem getElem?_addDevice_idxOf (devices : List CString) (device : CString) :
    (addDevice devices device)[devices.idxOf device]? = some device := by
  rw [addDevice_eq]
  by_cases hmem : device ∈ devices
  · rw [if_pos hmem]
    exact List.getElem?_idxOf hmem
  · rw [if_neg hmem, List.idxOf_eq_length_iff.mpr hmem]
    simp

theorem getElem?_addDevice {devices : List CString} {i : ℕ} {old : CString} (h : devices[i]? = some old)
    (device : CString) : (addDevice devices device)[i]? = some old := by
  rw [addDevice_eq]
  split
  · exact h
  · rw [List.getElem?_append_left (List.getElem?_eq_some_iff.mp h).1]
    exact h

theorem nodup_addDevice {devices : List CString} (h : devices.Nodup) (device : CString) :
    (addDevice devices device).Nodup := by
  rw [addDevice_eq]
  split
  · exact h
  · next hnew => exact h.append (List.nodup_singleton _) (by simpa using hnew)

/-- The entry of `conf_data` for a line. -/
structure Settings.Holds (cfg : Settings) (conf : ConfData) (l : ConfLine) : Prop where
  claims : ∀ hour : Hour, (conf.timeTable hour && conf.isLcr) = l.claims hour
  device : cfg.devices[conf.circuitIdx]? = some l.device1

/-- What the lines leave behind: an entry of `conf_data` for each of them, circuits with different
devices, and in the global table the last line that claims the hour. -/
structure Settings.Tells (cfg : Settings) (lines : List ConfLine) : Prop where
  entries : List.Forall₂ cfg.Holds cfg.confData lines
  devices_nodup : cfg.devices.Nodup
  shown : ∀ hour : Hour, match (lines.filter (ConfLine.claims hour)).getLast? with
    | none => cfg.timeTable hour = -1
    | some l => ∃ (i : ℕ) (conf : ConfData), cfg.timeTable hour = i ∧
        cfg.confData[i]? = some conf ∧ cfg.Holds conf l

theorem Settings.Tells.init : Settings.init.Tells [] :=
  ⟨List.Forall₂.nil, List.nodup_nil, fun _ => rfl⟩

theorem Settings.Holds.readLine {conf : ConfData} {l : ConfLine}
    (h : cfg.Holds conf l) (l' : ConfLine) : (readLine cfg l').Holds conf l :=
  ⟨h.claims, by rw [readLine_devices]; exact getElem?_addDevice h.device l'.device1⟩

theorem Settings.Tells.readLine (h : cfg.Tells lines)
    (l : ConfLine) : (readLine cfg l).Tells (lines ++ [l]) := by
  have hfill := fillDays_covers l cfg.confData.length ⟨cfg.timeTable, fun _ => false⟩
  -- the new entry is the last one and belongs to the circuit of the device
  obtain ⟨conf, hconf, hholds⟩ : ∃ conf, (Config.readLine cfg l).confData = cfg.confData ++ [conf] ∧
      (Config.readLine cfg l).Holds conf l := by
    refine ⟨_, rfl, fun hour => ?_, ?_⟩
    · show ((fillDays _ _ _ _ _ _ _ _).own hour && l.isLcr) = l.claims hour
      rw [(hfill hour).1, Bool.or_false]
      rfl
    · rw [show (ConfData.circuitIdx _) = _ from findIdx_device cfg l.device1, readLine_devices]
      exact getElem?_addDevice_idxOf cfg.devices l.device1
  constructor
  · rw [hconf]
    apply List.rel_append
    · exact h.entries.imp fun _ _ hold => hold.readLine l
    · exact List.Forall₂.cons hholds List.Forall₂.nil
  · rw [readLine_devices]
    exact nodup_addDevice h.devices_nodup l.device1
  · intro hour
    have htable : (Config.readLine cfg l).timeTable hour =
        if l.claims hour then (cfg.confData.length : ℤ) else cfg.timeTable hour := (hfill hour).2
    rw [List.filter_append, htable]
    by_cases hclaims : l.claims hour = true
    · rw [List.filter_cons_of_pos hclaims, List.filter_nil, List.getLast?_concat, if_pos hclaims]
      exact ⟨cfg.confData.length, conf, rfl, by simp [hconf], hholds⟩
    · rw [List.filter_cons_of_neg hclaims, List.filter_nil, List.append_nil, if_neg hclaims]
      -- an hour that the line does not claim shows what it has shown before
      have hold := h.shown hour
      cases hlast : (lines.filter (ConfLine.claims hour)).getLast? with
      | none => simpa [hlast] using hold
      | some l₀ =>
          simp only [hlast] at hold
          obtain ⟨i, conf₀, htt, hentry, hholds₀⟩ := hold
          refine ⟨i, conf₀, htt, ?_, hholds₀.readLine l⟩
          rw [hconf, List.getElem?_append_left (List.getElem?_eq_some_iff.mp hentry).1]
          exact hentry

theorem readConfig_tells (lines : List ConfLine) :
    (readConfig lines).Tells (lines.take maxConfigLines) := by
  rw [readConfig_eq]
  induction lines.take maxConfigLines using List.reverseRecOn with
  | nil => exact Settings.Tells.init
  | append_singleton lines l ih =>
      rw [List.foldl_append]
      exact ih.readLine l

theorem Settings.find_claims {confData : List ConfData}
    (h : List.Forall₂ cfg.Holds confData lines) (hour : Hour) :
    match (lines.filter (ConfLine.claims hour)).head? with
    | none => confData.find? (fun conf => conf.timeTable hour && conf.isLcr) = none
    | some l => ∃ conf, confData.find? (fun conf => conf.timeTable hour && conf.isLcr) = some conf ∧
        cfg.Holds conf l := by
  induction h with
  | nil => rfl
  | @cons conf l confData lines hholds _ ih =>
      have hclaims := hholds.claims hour
      cases hthis : l.claims hour with
      | true =>
          rw [List.filter_cons_of_pos hthis]
          rw [hthis] at hclaims
          exact ⟨conf, by simp [hclaims], hholds⟩
      | false =>
          rw [List.filter_cons_of_neg (by simp [hthis])]
          rw [hthis] at hclaims
          simpa only [List.find?_cons, hclaims] using ih

theorem Settings.Tells.findCircuit (h : cfg.Tells lines)
    (hour : Hour) : match (lines.filter (ConfLine.claims hour)).head? with
    | none => findCircuit cfg (-1) hour = -1
    | some l => ∃ i : ℕ, findCircuit cfg (-1) hour = i ∧ cfg.devices[i]? = some l.device1 := by
  have hfirst := Settings.find_claims h.entries hour
  unfold Config.findCircuit
  rw [if_neg (by omega)]
  cases hhead : (lines.filter (ConfLine.claims hour)).head? with
  | none =>
      simp only [hhead] at hfirst
      simp [hfirst]
  | some l =>
      simp only [hhead] at hfirst
      obtain ⟨conf, hfind, hholds⟩ := hfirst
      exact ⟨conf.circuitIdx, by simp [hfind], hholds.device⟩

theorem shownLine_eq (cfg : Settings) (hour : Hour) : shownLine cfg hour = cfg.timeTable hour := by
  have hhour : (hour : ℕ) / 24 * hoursPerDay + hour % 24 = hour := by
    unfold hoursPerDay
    omega
  simp [shownLine, getTimetable, hhour]

theorem Settings.Tells.shownCircuit (h : cfg.Tells lines)
    (hour : Hour) : match (lines.filter (ConfLine.claims hour)).getLast? with
    | none => shownLine cfg hour = -1
    | some l => 0 ≤ shownLine cfg hour ∧ ∃ i : ℕ,
        confCircuitIdx cfg (shownLine cfg hour) = i ∧ cfg.devices[i]? = some l.device1 := by
  have hshown := h.shown hour
  rw [shownLine_eq]
  cases hlast : (lines.filter (ConfLine.claims hour)).getLast? with
  | none => simpa [hlast] using hshown
  | some l =>
      simp only [hlast] at hshown
      obtain ⟨i, conf, htt, hentry, hholds⟩ := hshown
      refine ⟨by omega, conf.circuitIdx, ?_, hholds.device⟩
      rw [htt]
      simp [confCircuitIdx, hentry]

/-- The least-cost routing uses the circuit that the time table shows for exactly those hours for which
the first line and the last one have the same device. -/
theorem readConfig_shownIsUsed (lines : List ConfLine) (hour : Hour) :
    ShownIsUsed (readConfig lines) hour ↔ OneDevice lines hour := by
  have htells := readConfig_tells lines
  have hused := htells.findCircuit hour
  have hshown := htells.shownCircuit hour
  unfold OneDevice claimants
  cases hlist : (lines.take maxConfigLines).filter (ConfLine.claims hour) with
  | nil =>
      simp only [hlist, List.head?_nil, List.getLast?_nil] at hused hshown ⊢
      have hboth : ShownIsUsed (readConfig lines) hour := by
        constructor
        · rw [hused, hshown]
          rfl
        · simp [hused, hshown]
      simp [hboth]
  | cons l rest =>
      obtain ⟨last, hlast⟩ : ∃ last, (l :: rest).getLast? = some last :=
        ⟨_, List.getLast?_eq_some_getLast (List.cons_ne_nil l rest)⟩
      simp only [hlist, hlast, List.head?_cons] at hused hshown ⊢
      obtain ⟨i, hi, hdevice⟩ := hused
      obtain ⟨hnonneg, j, hj, hdevice'⟩ := hshown
      simp only [Option.map_some, Option.some.injEq]
      constructor
      · intro h
        have heq : i = j := by
          have := h.circuit_eq
          omega
        rw [heq, hdevice'] at hdevice
        exact (Option.some.inj hdevice).symm
      · intro h
        have hlt := (List.getElem?_eq_some_iff.mp hdevice).1
        have heq : i = j := by
          apply (List.getElem?_inj hlt htells.devices_nodup).mp
          rw [hdevice, hdevice', h]
        constructor
        · rw [hi, hj, heq]
        · omega

/-- A line for all hours of Monday. -/
def mondayLine (device circuit : String) : ConfLine where
  startWeekDay := "Mo"
  endWeekDay := "Mo"
  startHour := 0
  endHour := 24
  device := device.toList
  bandwidthRate := 0
  bandwidthTime := 0
  hupTimeout := 0
  lcr := "yes"
  defaultRoute := "yes"
  phoneBuf := []
  circuit := circuit.toList
  chargePerMinute := 0
  chargeInt := 60
  startWeekDay_known := by decide
  endWeekDay_known := by decide
  startHour_le := by decide
  endHour_le := by decide

end Config
end Imond
end Mkfli4l
