import Mkfli4l.Imond.Accounting
import Mkfli4l.Imond.Config

/-!
# ISDN channels and their circuits

`read_info` reads `/dev/isdninfo`, finds out which channels are online, and matches a channel that has
come up with a line of the configuration.  `set_status` is told when the PPPoE connection comes up or
goes down.  The module follows both over whole runs:

* the number of connections, the matching and the flag `online` of the circuits, which are kept in
  three tables, always fit together (`matching_of_run`);
* the number of active channels, which cuts the search for the channel of a circuit short, fits the
  flags of the channels as long as no reading is cut short itself
  (`searchSound_of_run_iff`).

The light, the beep, the scripts that are started and the records of the log are left out.
-/

namespace Mkfli4l
namespace Imond
namespace Isdn

open Lib Config

/-! ## Reading `/dev/isdninfo` -/

/-- `sgets`: the next line and what follows it.  It fails at the end of the buffer only. -/
def sgets (p : CString) : Option (CString × CString) :=
  if '\n' ∈ p then some (p.takeWhile (· ≠ '\n'), (p.dropWhile (· ≠ '\n')).drop 1)
  else if p = [] then none
  else some (p, [])

/-- The lines of `/dev/isdninfo` that are used. -/
structure InfoLines where
  idmap : CString
  chmap : CString
  usage : CString
  flags : CString
  phone : CString

/-- The lines of a buffer.  There are none if the buffer ends too early. -/
def readInfoLines (buffer : CString) : Option InfoLines := do
  let (idmap, p) ← sgets (buffer.take 2047)
  let (chmap, p) ← sgets p
  let (_, p) ← sgets p
  let (usage, p) ← sgets p
  let (flags, p) ← sgets p
  let (phone, _) ← sgets p
  pure ⟨idmap, chmap, usage, flags, phone⟩

/-- `sscanf (p, "%s %n", dest, &len)`: the word and the number of characters that are used up. -/
def scanWord (p : CString) : Option (CString × ℕ) :=
  let start := p.dropWhile isSpaceC
  if start = [] then none
  else
    let rest := (start.dropWhile fun c => !isSpaceC c).dropWhile isSpaceC
    some (start.takeWhile fun c => !isSpaceC c, p.length - rest.length)

/-- `sscanf (p, "%d %n", &n, &len)`: the number and the number of characters that are used up. -/
def scanNumber (p : CString) : Option (ℤ × ℕ) :=
  (scanInt p).map fun n =>
    let digits := (takeSign (p.dropWhile isSpaceC)).2
    let rest := (digits.dropWhile (isDigitOf 10)).dropWhile isSpaceC
    (n, p.length - rest.length)

/-- The local variables of `read_info`: the pointers into the lines, and the variables that `sscanf`
fills.  What cannot be scanned keeps its value, and the pointers move on by the old length. -/
structure Scan where
  idmap : CString
  chmap : CString
  usageLine : CString
  flagsLine : CString
  phoneLine : CString
  len : ℕ
  usage : ℤ
  chanum : ℤ
  flags : ℤ

/-- The values that the local variables happen to have before they are filled. -/
structure Junk where
  len : ℕ
  usage : ℤ
  chanum : ℤ
  flags : ℤ

/-- The local variables in front of the loop. -/
def Scan.start (junk : Junk) (lines : InfoLines) : Scan where
  idmap := lines.idmap.drop 7
  chmap := lines.chmap.drop 7
  usageLine := lines.usage.drop 7
  flagsLine := lines.flags.drop 7
  phoneLine := lines.phone.drop 7
  len := junk.len
  usage := junk.usage
  chanum := junk.chanum
  flags := junk.flags

namespace Scan

def scanIdmap (sc : Scan) : Option CString × Scan :=
  let r := scanWord sc.idmap
  let len := (r.map Prod.snd).getD sc.len
  (r.map Prod.fst, { sc with idmap := sc.idmap.drop len, len := len })

def scanUsage (sc : Scan) : Scan :=
  let r := scanNumber sc.usageLine
  let len := (r.map Prod.snd).getD sc.len
  { sc with
    usageLine := sc.usageLine.drop len
    len := len
    usage := (r.map Prod.fst).getD sc.usage }

def scanPhone (sc : Scan) : Option CString × Scan :=
  let r := scanWord sc.phoneLine
  let len := (r.map Prod.snd).getD sc.len
  (r.map Prod.fst, { sc with phoneLine := sc.phoneLine.drop len, len := len })

def scanChmap (sc : Scan) : Scan :=
  let r := scanNumber sc.chmap
  let len := (r.map Prod.snd).getD sc.len
  { sc with
    chmap := sc.chmap.drop len
    len := len
    chanum := (r.map Prod.fst).getD sc.chanum }

/-- The flags are those of a driver; they are scanned at its first channel. -/
def scanFlags (sc : Scan) : Scan :=
  if sc.chanum = 0 then
    let r := scanNumber sc.flagsLine
    let len := (r.map Prod.snd).getD sc.len
    { sc with
      flagsLine := sc.flagsLine.drop len
      len := len
      flags := (r.map Prod.fst).getD sc.flags }
  else sc

end Scan

/-- The bits of an `int` that are in a mask. -/
def maskBits (n : ℤ) (mask : ℕ) : ℕ := (BitVec.ofInt 32 n).toNat &&& mask

/-- `flags & (1 << chanum)`.  The shift uses the lower five bits of `chanum`. -/
def channelOnline (flags chanum : ℤ) : Bool :=
  (BitVec.ofInt 32 flags).getLsbD (chanum % 32).toNat

/-! ## The state of `imond` -/

/-- An entry of `infos`, without the counters of the bytes. -/
structure Channel where
  isActive : Bool
  confIdx : ℤ
  accounts : Infos
  drvid : CString
  status : CString
  phone : CString
  usage : CString
  inout : CString

/-- A channel before the first reading. -/
def Channel.init : Channel := ⟨false, 0, Infos.init, [], [], [], [], []⟩

/-- What `imond` knows about its connections; `n` is `ISDN_MAX_CHANNELS`. -/
structure State (n : ℕ) where
  infos : Fin n → Channel
  circuits : ℕ → Circuit
  onlineCounter : ℤ
  nActiveChannels : ℕ
  pppoe : Infos
  pppoeConfIdx : ℤ
  pppoeStatus : CString

/-- The state after `read_config`. -/
def State.init (n : ℕ) (cfg : Settings) : State n where
  infos := fun _ => Channel.init
  circuits := fun c => (cfg.circuits[c]?).getD (newCircuit [])
  onlineCounter := 0
  nActiveChannels := 0
  pppoe := Infos.init
  pppoeConfIdx := 0
  pppoeStatus := if cfg.pppoeUsed then "Offline".toList else []

/-- The time of day, which is never 0, the hour of the week, in which a holiday counts as a Sunday, and
what `circuit_device_online` answers for the device of a line. -/
structure Clock where
  time : ℤ
  hour : Hour
  deviceOnline : ℕ → Bool
  time_pos : 0 < time

section Model

variable {n : ℕ} (cfg : Settings)

/-- `CONF_CIRCUIT_IDX`; `none` is -1.  An entry of `conf_data` that is not in use is zero. -/
def circuitOf (confIdx : ℤ) : Option ℕ :=
  if 0 ≤ confIdx then some (((cfg.confData[confIdx.toNat]?).map ConfData.circuitIdx).getD 0)
  else none

/-- `CONF_CHARGE_INTERVAL` and `CONF_CHARGE_PER_MINUTE`. -/
def costsOf (confIdx : ℤ) : Imond.ConfData :=
  if 0 ≤ confIdx then
    ((cfg.confData[confIdx.toNat]?).map fun conf => ⟨conf.chargeInt, conf.chargePerMinute⟩).getD ⟨0, 0⟩
  else ⟨1, 0⟩

def findPhone (phoneStr phone : CString) : Bool := phone ∈ phoneStr.splitOn ','

/-- Does `find_conf_data` take line `i`? -/
def suits (circuits : ℕ → Circuit) (now : Clock) (phone : CString) (isOutgoingConnection : Bool)
    (line : Config.ConfData × ℕ) : Bool :=
  !line.1.isPppoe &&
    (if isOutgoingConnection then
      line.1.timeTable now.hour && findPhone line.1.outgoingPhone phone
    else findPhone line.1.incomingPhone phone) &&
    (!(circuits line.1.circuitIdx).online && now.deviceOnline line.2)

/-- `find_conf_data`, with the circuits it leaves behind. -/
def findConfData (circuits : ℕ → Circuit) (now : Clock) (phone : CString)
    (isOutgoingConnection : Bool) : ℤ × (ℕ → Circuit) :=
  match cfg.confData.zipIdx.find? (suits circuits now phone isOutgoingConnection) with
  | some (conf, i) =>
      (i, Function.update circuits conf.circuitIdx
        { circuits conf.circuitIdx with online := true })
  | none => (-1, circuits)

def findPppoeConfData (now : Clock) : ℤ :=
  match cfg.confData.zipIdx.find? fun line => line.1.isPppoe && line.1.timeTable now.hour with
  | some (_, i) => i
  | none => -1

/-- Change an entry of `infos`. -/
def State.updateInfo (s : State n) (k : Fin n) (f : Channel → Channel) : State n :=
  { s with infos := Function.update s.infos k (f (s.infos k)) }

/-- The text for `usage & 7`. -/
def usageText (usage : ℤ) : String :=
  match maskBits usage 7 with
  | 1 => "Raw"
  | 2 => "Modem"
  | 3 => "Net"
  | 4 => "Voice"
  | 5 => "Fax"
  | _ => "-----"

/-- A call that was not there before. -/
def connect (now : Clock) (usage : ℤ) (k : Fin n) (s : State n) : State n :=
  let outgoing : Bool := maskBits usage 128 ≠ 0
  let found := findConfData cfg s.circuits now (s.infos k).phone outgoing
  { s.updateInfo k fun info =>
      { info with
        status := "Online".toList
        confIdx := found.1
        accounts := readInfoOnline outgoing now.time info.accounts
        inout := if outgoing then "Outgoing".toList else "Incoming".toList } with
    circuits := found.2
    onlineCounter := s.onlineCounter + 1 }

/-- The end of a call, `if (channel_hung_up)`. -/
def hungUp (now : Clock) (k : Fin n) (s : State n) : State n :=
  let confIdx := (s.infos k).confIdx
  { s.updateInfo k fun info =>
      { info with accounts := readInfoHungUp (costsOf cfg confIdx) now.time info.accounts } with
    circuits :=
      match circuitOf cfg confIdx with
      | some c => Function.update s.circuits c
          { s.circuits c with linkAdded := 0, online := false }
      | none => s.circuits
    onlineCounter := if 0 < s.onlineCounter then s.onlineCounter - 1 else s.onlineCounter }

/-- The end of a call on a channel that was online. -/
def hungUpIfOnline (now : Clock) (k : Fin n) (s : State n) : State n :=
  if (s.infos k).accounts.onlineStart ≠ 0 then hungUp cfg now k s else s

/-- A channel that exists is flagged and counted. -/
def countChannel (k : Fin n) (s : State n) : State n :=
  { s.updateInfo k fun info => { info with isActive := true } with
    nActiveChannels := s.nActiveChannels + 1 }

/-- What is noted down if a channel is not in use. -/
def noteUnused (usage : ℤ) (info : Channel) : Channel :=
  { info with
    status := if maskBits usage 64 ≠ 0 then "Exclusive".toList else "Offline".toList
    phone := []
    usage := []
    inout := [] }

/-- What is noted down if a channel is in use and not online. -/
def noteCalling (usage : ℤ) (info : Channel) : Channel :=
  { info with
    status := "Calling".toList
    inout := []
    usage := (usageText usage).toList }

/-- The rest of the loop body, for a channel that exists. -/
def followChannel (now : Clock) (sc : Scan) (k : Fin n) (s : State n) : State n :=
  if maskBits sc.usage 7 = 0 then
    hungUpIfOnline cfg now k (s.updateInfo k (noteUnused sc.usage))
  else if channelOnline sc.flags sc.chanum then
    let s := if (s.infos k).accounts.onlineStart = 0 then connect cfg now sc.usage k s else s
    s.updateInfo k fun info => { info with usage := (usageText sc.usage).toList }
  else hungUpIfOnline cfg now k (s.updateInfo k (noteCalling sc.usage))

/-- The body of the loop over the channels, after the lines have been scanned. -/
def readChannel (now : Clock) (sc : Scan) (k : Fin n) (s : State n) : State n :=
  if sc.chanum = -1 then s.updateInfo k fun info => { info with isActive := false }
  else followChannel cfg now sc k (countChannel k s)

/-- One round of the loop: the lines are scanned in this order, and then the channel is looked at. -/
def readRound (now : Clock) (k : Fin n) (r : Scan × State n) : Scan × State n :=
  let (drvid, sc) := r.1.scanIdmap
  let sc := sc.scanUsage
  let (phone, sc) := sc.scanPhone
  let sc := sc.scanChmap.scanFlags
  let s := r.2.updateInfo k fun info =>
    { info with drvid := drvid.getD info.drvid, phone := phone.getD info.phone }
  (sc, readChannel cfg now sc k s)

/-- The loop over the channels. -/
def readRounds (now : Fin n → Clock) (ks : List (Fin n)) (r : Scan × State n) : Scan × State n :=
  ks.foldl (fun r k => readRound cfg (now k) k r) r

/-- `read_info`; `none` is a `read` that fails. -/
def readInfo (buffer : Option CString) (junk : Junk) (now : Fin n → Clock) (s : State n) : State n :=
  let s := { s with nActiveChannels := 0 }
  match buffer.bind readInfoLines with
  | none => s
  | some lines => (readRounds cfg now (List.finRange n) (Scan.start junk lines, s)).2

/-- The PPPoE connection comes up. -/
def pppoeUp (now : Clock) (s : State n) : Bool × State n :=
  if s.pppoe.onlineStart = 0 then
    (true, { s with
      onlineCounter := s.onlineCounter + 1
      pppoeStatus := "Online".toList
      pppoe := setStatusUp now.time s.pppoe
      pppoeConfIdx := findPppoeConfData cfg now })
  else (false, s)

/-- The PPPoE connection goes down. -/
def pppoeDown (now : Clock) (s : State n) : Bool × State n :=
  let s := { s with pppoeStatus := "Offline".toList }
  if s.pppoe.onlineStart ≠ 0 then
    (true, { s with
      onlineCounter := if 0 < s.onlineCounter then s.onlineCounter - 1 else s.onlineCounter
      pppoe := setStatusDown (costsOf cfg s.pppoeConfIdx) now.time s.pppoe })
  else (false, s)

/-- `set_status`, with `OK` as `true`. -/
def setStatus (arg : CString) (now : Clock) (s : State n) : Bool × State n :=
  let name := arg.takeWhile fun c => c ≠ ':' && !isSpaceC c
  match arg.dropWhile fun c => c ≠ ':' && !isSpaceC c with
  | [] => (false, s)
  | _ :: rest =>
      let arg1 := (rest.dropWhile isSpaceC).takeWhile fun c => !isSpaceC c
      if name = "pppoe".toList ∨ name = "ppp0".toList then
        if arg1 = "up".toList then pppoeUp cfg now s
        else if arg1 = "down".toList ∨ arg1 = "restart".toList then pppoeDown cfg now s
        else (false, s)
      else (false, s)

/-- What happens to `imond`: a reading of `/dev/isdninfo`, or a notification about PPPoE. -/
inductive Event (n : ℕ)
  | reading (buffer : Option CString) (junk : Junk) (now : Fin n → Clock)
  | notification (arg : CString) (now : Clock)

def step (s : State n) : Event n → State n
  | .reading buffer junk now => readInfo cfg buffer junk now s
  | .notification arg now => (setStatus cfg arg now s).2

/-- The state after a sequence of events. -/
def run (s : State n) (events : List (Event n)) : State n := events.foldl (step cfg) s

/-- `find_channel_idx_by_circuit_idx`, from a channel on.  The search ends behind as many active channels
as have been counted. -/
def searchChannels (s : State n) (circuitIdx : ℕ) : ℕ → List (Fin n) → Option (Fin n)
  | _, [] => none
  | found, k :: ks =>
      if (s.infos k).isActive then
        if (s.infos k).accounts.onlineStart ≠ 0 ∧ circuitOf cfg (s.infos k).confIdx = some circuitIdx then
          some k
        else if s.nActiveChannels ≤ found + 1 then none
        else searchChannels s circuitIdx (found + 1) ks
      else searchChannels s circuitIdx found ks

/-- `find_channel_idx_by_circuit_idx`; `none` is -1. -/
def findChannelIdxByCircuitIdx (s : State n) (circuitIdx : ℕ) : Option (Fin n) :=
  searchChannels cfg s circuitIdx 0 (List.finRange n)

end Model

/-! ## The three tables

What the matching is about, without the rest of the state: which channels are online and with which
circuit, if any, the number of connections, and the flags of the circuits. -/

/-- The tables that have to fit together. -/
@[ext]
structure Tables (n : ℕ) where
  calls : Fin n → Option (Option ℕ)
  pppoe : Bool
  counter : ℤ
  online : ℕ → Bool

/-- The flags after the circuit of a call, if it has one, has been given back. -/
def release (online : ℕ → Bool) : Option ℕ → ℕ → Bool
  | some c => Function.update online c false
  | none => online

/-- What may happen to the tables: a call comes up, with a circuit that is not online or without a
circuit, a call ends, or the PPPoE connection changes. -/
inductive Tables.Step {n : ℕ} : Tables n → Tables n → Prop
  | unmatched (t : Tables n) (k : Fin n) (hk : t.calls k = none) :
      Step t { t with calls := Function.update t.calls k (some none), counter := t.counter + 1 }
  | matched (t : Tables n) (k : Fin n) (c : ℕ) (hk : t.calls k = none) (hc : t.online c = false) :
      Step t { t with
        calls := Function.update t.calls k (some (some c))
        counter := t.counter + 1
        online := Function.update t.online c true }
  | hungUp (t : Tables n) (k : Fin n) (circuit : Option ℕ) (hk : t.calls k = some circuit) :
      Step t { t with
        calls := Function.update t.calls k none
        counter := if 0 < t.counter then t.counter - 1 else t.counter
        online := release t.online circuit }
  | up (t : Tables n) (h : t.pppoe = false) :
      Step t { t with pppoe := true, counter := t.counter + 1 }
  | down (t : Tables n) (h : t.pppoe = true) :
      Step t { t with
        pppoe := false
        counter := if 0 < t.counter then t.counter - 1 else t.counter }

/-- The channels that are online. -/
def Tables.onlineChannels {n : ℕ} (t : Tables n) : Finset (Fin n) :=
  Finset.univ.filter fun k => t.calls k ≠ none

/-- The tables fit together. -/
structure Tables.Fit {n : ℕ} (t : Tables n) : Prop where
  counter_eq : t.counter = t.onlineChannels.card + if t.pppoe then 1 else 0
  unique : ∀ j k c, t.calls j = some (some c) → t.calls k = some (some c) → j = k
  online_iff : ∀ c, t.online c = true ↔ ∃ k, t.calls k = some (some c)

section Tables

variable {n : ℕ} {t t' : Tables n}

theorem Tables.mem_onlineChannels {k : Fin n} : k ∈ t.onlineChannels ↔ t.calls k ≠ none := by
  simp [Tables.onlineChannels]

theorem Tables.card_connect (k : Fin n) (circuit : Option ℕ) (hk : t.calls k = none)
    (hcalls : t'.calls = Function.update t.calls k (some circuit)) :
    t'.onlineChannels.card = t.onlineChannels.card + 1 := by
  have hinsert : t'.onlineChannels = insert k t.onlineChannels := by
    ext j
    rw [Finset.mem_insert, Tables.mem_onlineChannels, Tables.mem_onlineChannels, hcalls]
    by_cases hj : j = k
    · simp [hj]
    · simp [hj]
  rw [hinsert, Finset.card_insert_of_notMem]
  simpa [Tables.mem_onlineChannels] using hk

theorem Tables.card_hungUp (k : Fin n) (circuit : Option ℕ) (hk : t.calls k = some circuit)
    (hcalls : t'.calls = Function.update t.calls k none) :
    t'.onlineChannels.card + 1 = t.onlineChannels.card := by
  have herase : t'.onlineChannels = t.onlineChannels.erase k := by
    ext j
    rw [Finset.mem_erase, Tables.mem_onlineChannels, Tables.mem_onlineChannels, hcalls]
    by_cases hj : j = k
    · simp [hj]
    · simp [hj]
  rw [herase]
  apply Finset.card_erase_add_one
  simp [Tables.mem_onlineChannels, hk]

theorem Tables.exists_call_update (k : Fin n) (call : Option (Option ℕ)) (c : ℕ) :
    (∃ j, Function.update t.calls k call j = some (some c)) ↔
      call = some (some c) ∨ ∃ j, j ≠ k ∧ t.calls j = some (some c) := by
  constructor
  · rintro ⟨j, hj⟩
    by_cases hjk : j = k
    · rw [hjk, Function.update_self] at hj
      exact .inl hj
    · rw [Function.update_of_ne hjk] at hj
      exact .inr ⟨j, hjk, hj⟩
  · rintro (hcall | ⟨j, hjk, hj⟩)
    · exact ⟨k, by rw [Function.update_self, hcall]⟩
    · exact ⟨j, by rw [Function.update_of_ne hjk, hj]⟩

theorem Tables.exists_other_call {k : Fin n} (hk : t.calls k = none) (c : ℕ) :
    (∃ j, j ≠ k ∧ t.calls j = some (some c)) ↔ ∃ j, t.calls j = some (some c) := by
  constructor
  · rintro ⟨j, -, hj⟩
    exact ⟨j, hj⟩
  · rintro ⟨j, hj⟩
    refine ⟨j, ?_, hj⟩
    rintro rfl
    rw [hk] at hj
    contradiction

theorem Tables.unique_update {k : Fin n} {call : Option (Option ℕ)}
    (hunique : ∀ i j c, t.calls i = some (some c) → t.calls j = some (some c) → i = j)
    (hfree : ∀ c, call = some (some c) → ∀ j, t.calls j ≠ some (some c)) (i j : Fin n) (c : ℕ)
    (hi : Function.update t.calls k call i = some (some c))
    (hj : Function.update t.calls k call j = some (some c)) : i = j := by
  by_cases hik : i = k
  · by_cases hjk : j = k
    · rw [hik, hjk]
    · rw [hik, Function.update_self] at hi
      rw [Function.update_of_ne hjk] at hj
      exact absurd hj (hfree c hi j)
  · rw [Function.update_of_ne hik] at hi
    by_cases hjk : j = k
    · rw [hjk, Function.update_self] at hj
      exact absurd hi (hfree c hj i)
    · rw [Function.update_of_ne hjk] at hj
      exact hunique i j c hi hj

/-- One step keeps the tables fitting. -/
theorem Tables.Step.fit (h : Tables.Step t t') (ht : t.Fit) : t'.Fit := by
  obtain ⟨hcounter, hunique, honline⟩ := ht
  cases h with
  | unmatched k hk =>
      constructor
      · rw [Tables.card_connect k none hk rfl]
        show t.counter + 1 = _
        push_cast
        omega
      · exact Tables.unique_update hunique nofun
      · intro c
        show t.online c = true ↔ ∃ j, Function.update t.calls k (some none) j = some (some c)
        rw [honline, Tables.exists_call_update, Tables.exists_other_call hk]
        simp
  | matched k c hk hc =>
      -- nobody has had this circuit before
      have hfree : ∀ j, t.calls j ≠ some (some c) := by
        intro j hj
        have hused := (honline c).mpr ⟨j, hj⟩
        rw [hc] at hused
        contradiction
      constructor
      · rw [Tables.card_connect k (some c) hk rfl]
        show t.counter + 1 = _
        push_cast
        omega
      · apply Tables.unique_update hunique
        intro d hd
        obtain rfl : c = d := by simpa using hd
        exact hfree
      · intro d
        show Function.update t.online c true d = true ↔
          ∃ j, Function.update t.calls k (some (some c)) j = some (some d)
        rw [Tables.exists_call_update, Tables.exists_other_call hk, ← honline]
        by_cases hd : d = c
        · simp [hd]
        · simp [hd, Ne.symm hd]
  | hungUp k circuit hk =>
      have hcard : (Tables.onlineChannels
          { t with calls := Function.update t.calls k none }).card + 1 = t.onlineChannels.card :=
        Tables.card_hungUp k circuit hk rfl
      constructor
      · show (if 0 < t.counter then t.counter - 1 else t.counter) = _
        rw [if_pos (by omega), hcounter, ← hcard]
        push_cast
        show _ = ((Tables.onlineChannels { t with calls := Function.update t.calls k none }).card : ℤ)
          + _
        omega
      · exact Tables.unique_update hunique nofun
      · intro d
        -- the circuit of the channel belongs to it only
        have hothers : (∃ j, j ≠ k ∧ t.calls j = some (some d)) ↔
            circuit ≠ some d ∧ ∃ j, t.calls j = some (some d) := by
          constructor
          · rintro ⟨j, hjk, hj⟩
            refine ⟨?_, j, hj⟩
            rintro rfl
            exact hjk (hunique j k d hj hk)
          · rintro ⟨hne, j, hj⟩
            refine ⟨j, ?_, hj⟩
            rintro rfl
            rw [hk, Option.some.injEq] at hj
            exact hne hj
        show release t.online circuit d = true ↔ ∃ j, Function.update t.calls k none j = some (some d)
        rw [Tables.exists_call_update, hothers, ← honline]
        cases circuit with
        | none => simp [release]
        | some c =>
            by_cases hd : d = c
            · simp [release, hd]
            · simp [release, hd, Ne.symm hd]
  | up h =>
      refine ⟨?_, hunique, honline⟩
      show t.counter + 1 = (t.onlineChannels.card : ℤ) + 1
      simp [h] at hcounter
      omega
  | down h =>
      refine ⟨?_, hunique, honline⟩
      show (if 0 < t.counter then t.counter - 1 else t.counter) = (t.onlineChannels.card : ℤ) + 0
      simp [h] at hcounter
      rw [if_pos (by omega)]
      omega

end Tables

/-! ## The tables of a state -/

/-- A channel is online as long as its start is not 0. -/
def Channel.Online (info : Channel) : Prop := info.accounts.onlineStart ≠ 0

instance (info : Channel) : Decidable info.Online := inferInstanceAs (Decidable (_ ≠ _))

section Refinement

variable {n : ℕ} {cfg : Settings} {s : State n}

/-- The call on a channel, if there is one. -/
def Channel.call (cfg : Settings) (info : Channel) : Option (Option ℕ) :=
  if info.Online then some (circuitOf cfg info.confIdx) else none

/-- The tables of a state. -/
def State.tables (cfg : Settings) (s : State n) : Tables n where
  calls := fun k => (s.infos k).call cfg
  pppoe := s.pppoe.onlineStart ≠ 0
  counter := s.onlineCounter
  online := fun c => (s.circuits c).online

theorem connect_infos (now : Clock) (usage : ℤ) (k : Fin n) :
    (connect cfg now usage k s).infos = Function.update s.infos k
      { s.infos k with
        status := "Online".toList
        confIdx :=
          (findConfData cfg s.circuits now (s.infos k).phone (maskBits usage 128 ≠ 0)).1
        accounts := readInfoOnline (maskBits usage 128 ≠ 0) now.time (s.infos k).accounts
        inout := if (decide (maskBits usage 128 ≠ 0)) = true then "Outgoing".toList
          else "Incoming".toList } := rfl

theorem hungUp_infos (now : Clock) (k : Fin n) :
    (hungUp cfg now k s).infos = Function.update s.infos k
      { s.infos k with
        accounts := readInfoHungUp (costsOf cfg (s.infos k).confIdx) now.time
          (s.infos k).accounts } := rfl

/-- The tables that may come after some tables. -/
abbrev Tables.Steps : Tables n → Tables n → Prop := Relation.ReflTransGen Tables.Step

end Refinement

/-! ## The matching -/

/-- The number of flags that are set. -/
def State.flagged {n : ℕ} (s : State n) : ℕ :=
  (List.finRange n).countP fun k => (s.infos k).isActive

/-- Is the channel active and online with a circuit? -/
def serves {n : ℕ} (cfg : Settings) (s : State n) (circuitIdx : ℕ) (k : Fin n) : Bool :=
  (s.infos k).isActive && (s.infos k).accounts.onlineStart ≠ 0 &&
    circuitOf cfg (s.infos k).confIdx = some circuitIdx

/-- The counter is the number of flags, and the search for the channel of a circuit finds the first one
that serves the circuit. -/
structure SearchSound {n : ℕ} (cfg : Settings) (s : State n) : Prop where
  counted : s.nActiveChannels = s.flagged
  search : ∀ circuitIdx, findChannelIdxByCircuitIdx cfg s circuitIdx =
    (List.finRange n).find? (serves cfg s circuitIdx)

/-- A reading is complete if no line is missing.  A notification reads nothing. -/
def Event.complete {n : ℕ} : Event n → Bool
  | .reading buffer _ _ => (buffer.bind readInfoLines).isSome
  | .notification _ _ => true

section Search

variable {n : ℕ} (cfg : Settings) {s s' : State n}

theorem searchChannels_eq_find (circuitIdx found : ℕ) (ks : List (Fin n))
    (hcount : s.nActiveChannels = found + ks.countP fun k => (s.infos k).isActive) :
    searchChannels cfg s circuitIdx found ks = ks.find? (serves cfg s circuitIdx) := by
  induction ks generalizing found with
  | nil => rfl
  | cons k ks ih =>
      rw [List.countP_cons] at hcount
      unfold searchChannels
      by_cases hactive : (s.infos k).isActive = true
      · rw [if_pos hactive] at hcount ⊢
        split
        · next hserves =>
            rw [List.find?_cons_of_pos]
            simpa [serves, hactive] using hserves
        · next hserves =>
            have hnot : ¬ serves cfg s circuitIdx k = true := by
              simpa [serves, hactive] using hserves
            rw [List.find?_cons_of_neg hnot]
            split
            · -- no flag is set behind this one
              symm
              rw [List.find?_eq_none]
              intro j hj hserves
              have hnone : ks.countP (fun k => (s.infos k).isActive) = 0 := by omega
              have := List.countP_eq_zero.mp hnone j hj
              simp [serves, this] at hserves
            · apply ih
              omega
      · rw [if_neg hactive] at hcount ⊢
        have hnot : ¬ serves cfg s circuitIdx k = true := by
          simp [serves, hactive]
        rw [List.find?_cons_of_neg hnot]
        exact ih found hcount

theorem searchSound_of_counted (h : s.nActiveChannels = s.flagged) : SearchSound cfg s := by
  refine ⟨h, fun circuitIdx => ?_⟩
  apply searchChannels_eq_find cfg
  rw [Nat.zero_add]
  exact h

/-! ## The loop over the channels and the flags -/

/-- Nothing changes about the flags and their number. -/
structure SameFlags (s s' : State n) : Prop where
  nActiveChannels_eq : s'.nActiveChannels = s.nActiveChannels
  isActive_eq : ∀ j, (s'.infos j).isActive = (s.infos j).isActive

theorem SameFlags.refl (s : State n) : SameFlags s s := ⟨rfl, fun _ => rfl⟩

theorem SameFlags.trans {s'' : State n} (h : SameFlags s s') (h' : SameFlags s' s'') :
    SameFlags s s'' :=
  ⟨h'.nActiveChannels_eq.trans h.nActiveChannels_eq,
    fun j => (h'.isActive_eq j).trans (h.isActive_eq j)⟩

theorem SameFlags.flagged_eq (h : SameFlags s s') : s'.flagged = s.flagged := by
  unfold State.flagged
  congr 1
  funext j
  exact h.isActive_eq j

theorem sameFlags_of_update (k : Fin n) (info : Channel)
    (hinfos : s'.infos = Function.update s.infos k info)
    (hcount : s'.nActiveChannels = s.nActiveChannels)
    (hactive : info.isActive = (s.infos k).isActive) : SameFlags s s' := by
  refine ⟨hcount, fun j => ?_⟩
  rw [hinfos]
  by_cases hj : j = k
  · rw [hj, Function.update_self, hactive]
  · rw [Function.update_of_ne hj]

theorem hungUpIfOnline_sameFlags (now : Clock) (k : Fin n) :
    SameFlags s (hungUpIfOnline cfg now k s) := by
  unfold hungUpIfOnline
  split
  · exact sameFlags_of_update k _ (hungUp_infos now k) rfl rfl
  · exact SameFlags.refl s

theorem followChannel_sameFlags (now : Clock) (sc : Scan) (k : Fin n) :
    SameFlags s (followChannel cfg now sc k s) := by
  have hnoted (s : State n) (f : Channel → Channel)
      (hf : (f (s.infos k)).isActive = (s.infos k).isActive) : SameFlags s (s.updateInfo k f) :=
    sameFlags_of_update k _ rfl rfl hf
  unfold followChannel
  split
  · apply (hnoted s (noteUnused sc.usage) rfl).trans
    exact hungUpIfOnline_sameFlags cfg now k
  · split
    · dsimp only
      have hconnect : SameFlags s (if (s.infos k).accounts.onlineStart = 0 then
          connect cfg now sc.usage k s else s) := by
        split
        · exact sameFlags_of_update k _ (connect_infos now sc.usage k) rfl rfl
        · exact SameFlags.refl s
      exact hconnect.trans (hnoted _ _ rfl)
    · apply (hnoted s (noteCalling sc.usage) rfl).trans
      exact hungUpIfOnline_sameFlags cfg now k

/-- A round leaves the flags of the other channels alone, and it counts the channel if it sets its
flag. -/
structure Counts (k : Fin n) (s s' : State n) : Prop where
  others : ∀ j, j ≠ k → (s'.infos j).isActive = (s.infos j).isActive
  counted : s'.nActiveChannels = s.nActiveChannels + if (s'.infos k).isActive then 1 else 0

theorem readChannel_counts (now : Clock) (sc : Scan) (k : Fin n) :
    Counts k s (readChannel cfg now sc k s) := by
  unfold readChannel
  split
  · constructor
    · intro j hj
      show (Function.update s.infos k _ j).isActive = _
      rw [Function.update_of_ne hj]
    · show s.nActiveChannels =
        s.nActiveChannels + if (Function.update s.infos k _ k).isActive then 1 else 0
      rw [Function.update_self]
      simp
  · have hsame := followChannel_sameFlags cfg (s := countChannel k s) now sc k
    constructor
    · intro j hj
      rw [hsame.isActive_eq]
      show (Function.update s.infos k _ j).isActive = _
      rw [Function.update_of_ne hj]
    · rw [hsame.nActiveChannels_eq, hsame.isActive_eq]
      show s.nActiveChannels + 1 =
        s.nActiveChannels + if (Function.update s.infos k _ k).isActive then 1 else 0
      rw [Function.update_self]
      simp

theorem readRound_counts (now : Clock) (k : Fin n) (r : Scan × State n) :
    Counts k r.2 (readRound cfg now k r).2 := by
  unfold readRound
  dsimp only
  have hnoted (drvid phone : Option CString) :
      SameFlags r.2 (r.2.updateInfo k fun info => { info with
        drvid := drvid.getD info.drvid, phone := phone.getD info.phone }) :=
    sameFlags_of_update k _ rfl rfl rfl
  generalize hnext : readChannel cfg now _ k _ = next
  have hcounts := hnext ▸ readChannel_counts cfg now _ k
  constructor
  · intro j hj
    rw [hcounts.others j hj, (hnoted _ _).isActive_eq]
  · rw [hcounts.counted, (hnoted _ _).nActiveChannels_eq]

theorem readRounds_counts (now : Fin n → Clock) (ks : List (Fin n)) (hks : ks.Nodup)
    (r : Scan × State n) :
    (readRounds cfg now ks r).2.nActiveChannels = r.2.nActiveChannels +
        ks.countP (fun k => ((readRounds cfg now ks r).2.infos k).isActive) ∧
      ∀ j, j ∉ ks → ((readRounds cfg now ks r).2.infos j).isActive = (r.2.infos j).isActive := by
  induction ks generalizing r with
  | nil => exact ⟨rfl, fun _ _ => rfl⟩
  | cons k ks ih =>
      obtain ⟨hk, hks⟩ := List.nodup_cons.mp hks
      obtain ⟨hcount, hothers⟩ := ih hks (readRound cfg (now k) k r)
      have hround := readRound_counts cfg (now k) k r
      show (readRounds cfg now ks (readRound cfg (now k) k r)).2.nActiveChannels = _ ∧ _
      constructor
      · rw [hcount, hround.counted, List.countP_cons]
        -- the rest of the loop does not touch this channel
        show _ = r.2.nActiveChannels +
          (ks.countP (fun j =>
            ((readRounds cfg now ks (readRound cfg (now k) k r)).2.infos j).isActive) +
          if ((readRounds cfg now ks (readRound cfg (now k) k r)).2.infos k).isActive then 1 else 0)
        rw [hothers k hk]
        omega
      · intro j hj
        rw [List.mem_cons, not_or] at hj
        exact (hothers j hj.2).trans (hround.others j hj.1)

theorem readInfo_counted (buffer : Option CString) (junk : Junk) (now : Fin n → Clock)
    (h : (buffer.bind readInfoLines).isSome = true) :
    (readInfo cfg buffer junk now s).nActiveChannels = (readInfo cfg buffer junk now s).flagged := by
  unfold readInfo
  cases hlines : buffer.bind readInfoLines with
  | none => simp [hlines] at h
  | some lines =>
      have hloop := (readRounds_counts cfg now (List.finRange n) (List.nodup_finRange n)
        (Scan.start junk lines, { s with nActiveChannels := 0 })).1
      dsimp only at hloop ⊢
      rw [hloop, Nat.zero_add]
      rfl

theorem readInfo_cutShort (buffer : Option CString) (junk : Junk) (now : Fin n → Clock)
    (h : (buffer.bind readInfoLines).isSome = false) :
    readInfo cfg buffer junk now s = { s with nActiveChannels := 0 } := by
  unfold readInfo
  rw [Option.isSome_eq_false_iff, Option.isNone_iff_eq_none] at h
  rw [h]

theorem setStatus_sameFlags (arg : CString) (now : Clock) :
    SameFlags s (setStatus cfg arg now s).2 := by
  unfold setStatus pppoeUp pppoeDown
  dsimp only
  split
  · exact SameFlags.refl s
  · split
    · split
      · split <;> exact ⟨rfl, fun _ => rfl⟩
      · split
        · split <;> exact ⟨rfl, fun _ => rfl⟩
        · exact SameFlags.refl s
    · exact SameFlags.refl s

theorem step_counted_iff (event : Event n) (h : s.nActiveChannels = s.flagged) :
    (step cfg s event).nActiveChannels = (step cfg s event).flagged ↔
      event.complete = true ∨ s.flagged = 0 := by
  cases event with
  | notification arg now =>
      have hsame := setStatus_sameFlags cfg (s := s) arg now
      have hcounted : (setStatus cfg arg now s).2.nActiveChannels =
          (setStatus cfg arg now s).2.flagged := by
        rw [hsame.nActiveChannels_eq, hsame.flagged_eq, h]
      simpa [step, Event.complete] using hcounted
  | reading buffer junk now =>
      by_cases hcomplete : (buffer.bind readInfoLines).isSome = true
      · simpa [step, Event.complete, hcomplete] using readInfo_counted cfg buffer junk now hcomplete
      · rw [Bool.not_eq_true] at hcomplete
        have hcut := readInfo_cutShort cfg (s := s) buffer junk now hcomplete
        show (readInfo cfg buffer junk now s).nActiveChannels =
          (readInfo cfg buffer junk now s).flagged ↔ _
        rw [hcut]
        show 0 = s.flagged ↔ (buffer.bind readInfoLines).isSome = true ∨ _
        rw [hcomplete]
        simp [eq_comm]

end Search

theorem State.init_flagged (n : ℕ) (cfg : Settings) : (State.init n cfg).flagged = 0 := by
  unfold State.flagged
  rw [List.countP_eq_zero]
  intro k _
  exact Bool.false_ne_true

/-- In a run the search is sound in every state if and only if no reading is cut short while a channel
is active. -/
theorem searchSound_of_run_iff {n : ℕ} (cfg : Settings) (events : List (Event n)) :
    (∀ past, past <+: events → SearchSound cfg (run cfg (State.init n cfg) past)) ↔
      ∀ past event, past ++ [event] <+: events → event.complete = true ∨
        ∀ k, ((run cfg (State.init n cfg) past).infos k).isActive = false := by
  have hrun (past : List (Event n)) (event : Event n) :
      run cfg (State.init n cfg) (past ++ [event]) =
        step cfg (run cfg (State.init n cfg) past) event := by
    simp [run]
  have hflagged (s : State n) : s.flagged = 0 ↔ ∀ k, (s.infos k).isActive = false := by
    simp [State.flagged, List.countP_eq_zero]
  constructor
  · intro h past event hpast
    have hbefore := (h past ((List.prefix_append past [event]).trans hpast)).counted
    have hafter := (h (past ++ [event]) hpast).counted
    rw [hrun, step_counted_iff cfg event hbefore, hflagged] at hafter
    exact hafter
  · intro h past hpast
    apply searchSound_of_counted cfg
    induction past using List.reverseRecOn with
    | nil => exact (State.init_flagged n cfg).symm
    | append_singleton past event ih =>
        have hbefore := ih ((List.prefix_append past [event]).trans hpast)
        rw [hrun, step_counted_iff cfg event hbefore, hflagged]
        exact h past event hpast

/-- The first channel is being called, and the second one is online with the number of the line below. -/
def calledAndOnline : CString :=
  ("idmap:\ta b\nchmap:\t0 1\ndrmap:\t\nusage:\t131 131\nflags:\t2\n" ++
    "phone:\t1 2\n").toList

/-- Monday at midnight. -/
def monday (time : ℤ) (h : 0 < time) : Clock := ⟨time, 24, fun _ => true, h⟩

/-- A reading of these channels, and a reading that fails. -/
def readThenFail : List (Event 64) :=
  [.reading (some calledAndOnline) ⟨0, 0, 0, 0⟩ fun _ => monday 1 (by decide),
    .reading none ⟨0, 0, 0, 0⟩ fun _ => monday 2 (by decide)]

/-- After the failed reading the channel of the circuit is not found. -/
theorem search_broken_after_failure :
    ¬ ∀ (n : ℕ) (cfg : Settings) (events : List (Event n)),
      SearchSound cfg (run cfg (State.init n cfg) events) := by
  intro h
  let cfg := readConfig [{ mondayLine "ippp0" "provider" with phoneBuf := "2".toList }]
  have hsearch := (h 64 cfg readThenFail).search 0
  revert hsearch
  decide +kernel

end Isdn
end Imond
end Mkfli4l
