import Mkfli4l.Lib.LineReading
import Mkfli4l.Lib.Loops
import Mkfli4l.Lib.Scanf

/-!
# The tables of `telmond`

`read_conf_file` fills the tables from the lines of `/etc/telmond.conf`, and `do_log` writes a call to the
log files of the addresses that belong to the called number.  Only the table of all addresses has a guard.
The other two have 16 entries, the loops over the addresses of an entry end at an empty one, and a line
that is longer than the buffer of `fgets` is taken for several lines: `confTables_iff` says for which files
nothing of this matters.
-/

namespace Mkfli4l
namespace Telmond

open Lib Function

/-! ## The program -/

def maxMsn : ℕ := 16

def maxIpAddressesPerMsn : ℕ := 16

def maxIpAddresses : ℕ := 32

/-- An element of `msn_map`. -/
structure MsnEntry where
  msn : CString
  ip : List CString

/-- An element of `exec_list`. -/
structure ExecEntry where
  msn : CString
  caller : CString
  execCmd : CString

/-- An element of `ip_map`. -/
structure IpEntry where
  ip : CString
  dateTimeStamp : CString
  caller : CString
  myPhone : CString

/-- The elements of `ip_map` that are in use, of which there are never too many. -/
structure IpMap where
  entries : List IpEntry
  used_le : entries.length ≤ maxIpAddresses

/-- The test whether an address is in the table compares strings. -/
scoped instance : LawfulBEq CString := inferInstanceAs (LawfulBEq (List Char))

namespace IpMap

/-- The addresses in the table. -/
def ips (m : IpMap) : List CString := m.entries.map IpEntry.ip

def addIpMap (m : IpMap) (ipAddress : CString) : IpMap :=
  if ipAddress ∈ m.ips then m
  else if h : m.entries.length < maxIpAddresses then
    ⟨m.entries ++ [⟨ipAddress.take 31, [], [], []⟩], by rw [List.length_append]; exact h⟩
  else m

/-- The entry that `set_ip_map` leaves behind. -/
def recordIn (stamp caller myPhone : CString) (e : IpEntry) : IpEntry :=
  { e with dateTimeStamp := stamp, caller := caller.take 31, myPhone := myPhone.take 31 }

/-- The loop of `set_ip_map`, which ends at the first entry with the address. -/
def setFirst (ipAddress stamp caller myPhone : CString) : List IpEntry → List IpEntry
  | [] => []
  | e :: entries =>
      if e.ip = ipAddress then recordIn stamp caller myPhone e :: entries
      else e :: setFirst ipAddress stamp caller myPhone entries

@[simp] theorem length_setFirst (ipAddress stamp caller myPhone : CString) (entries : List IpEntry) :
    (setFirst ipAddress stamp caller myPhone entries).length = entries.length := by
  induction entries with
  | nil => rfl
  | cons e entries ih =>
      rw [setFirst]
      split
      · rfl
      · rw [List.length_cons, ih, List.length_cons]

def setIpMap (stamp caller myPhone : CString) (m : IpMap) (ipAddress : CString) : IpMap :=
  ⟨setFirst ipAddress stamp caller myPhone m.entries, by rw [length_setFirst]; exact m.used_le⟩

end IpMap

/-- The tables, with the numbers of entries that are in use. -/
structure Tables where
  msnMap : Fin maxMsn → MsnEntry
  logIdx : ℕ
  logIdx_le : logIdx ≤ maxMsn
  execList : Fin maxMsn → ExecEntry
  execIdx : ℕ
  execIdx_le : execIdx ≤ maxMsn
  ipMap : IpMap

/-- The tables before the file is read. -/
def Tables.init : Tables where
  msnMap := fun _ => ⟨[], List.replicate maxIpAddressesPerMsn []⟩
  logIdx := 0
  logIdx_le := Nat.zero_le _
  execList := fun _ => ⟨[], [], []⟩
  execIdx := 0
  execIdx_le := Nat.zero_le _
  ipMap := ⟨[], Nat.zero_le _⟩

/-- What a line is taken for, with the text behind the name of a command. -/
inductive Command
  | empty
  | log (p : CString)
  | exec (p : CString)
  | unknown
deriving DecidableEq

/-- A tab becomes a blank. -/
def untab (c : Char) : Char := if c = '\t' then ' ' else c

/-- The first steps of `read_conf_file` for a line in the buffer. -/
def command (buf : CString) : Command :=
  let p := (buf.takeWhile (· ≠ '#')).dropWhile fun c => c = ' ' ∨ c = '\t'
  if p.head? = some '\r' ∨ p.head? = some '\n' then .empty
  else
    let p := p.map untab
    if ['l', 'o', 'g', ' '] <+: p then .log ((p.drop 4).dropWhile (· = ' '))
    else if ['e', 'x', 'e', 'c', ' '] <+: p then .exec ((p.drop 5).dropWhile (· = ' '))
    else .unknown

/-- `strchr`: what is before the character, and what is behind it. -/
def strchr (c : Char) (p : CString) : Option (CString × CString) :=
  if c ∈ p then some (p.takeWhile (· ≠ c), (p.dropWhile (· ≠ c)).tail) else none

/-- The text before the end of the line. -/
def lineEnd (p : CString) : Option CString :=
  ((strchr '\r' p).or (strchr '\n' p)).map Prod.fst

/-- The fields that an `exec` command stores: all three of them, unless something is missing. -/
def execFields (p : CString) : List CString :=
  match strchr ' ' p with
  | none => []
  | some (msn, rest) =>
      match strchr ' ' (rest.dropWhile (· = ' ')) with
      | none => [msn]
      | some (caller, rest) =>
          match lineEnd (rest.dropWhile (· = ' ')) with
          | none => [msn, caller]
          | some execCmd => [msn, caller, execCmd]

/-- The fields, stored one after the other. -/
def ExecEntry.store (e : ExecEntry) : List CString → ExecEntry
  | [] => e
  | [msn] => { e with msn := msn.take 31 }
  | [msn, caller] => { e with msn := msn.take 31, caller := caller.take 31 }
  | msn :: caller :: execCmd :: _ => ⟨msn.take 31, caller.take 31, execCmd.take 127⟩

/-- The words of a `log` command, stored one after the other. -/
def MsnEntry.store (e : MsnEntry) : List CString → MsnEntry
  | [] => e
  | msn :: ips => ⟨msn, ips ++ e.ip.drop ips.length⟩

/-- The loop over the addresses of an entry, which ends at an empty one.  Behind the last one it leaves the
entry. -/
def addresses : List CString → Option (List CString)
  | [] => none
  | ip :: rest => if ip = [] then some [] else (addresses rest).map (ip :: ·)

/-- The words that `sscanf` reads from a `log` command. -/
def logFields (p : CString) : List CString :=
  (sscanf (F := Unit) (fun _ => none) (List.replicate (1 + maxIpAddressesPerMsn) (.string none)) p).filterMap
    fun
      | .text word => some word
      | _ => none

namespace Tables

/-- A `log` command.  Every word goes into an array of 32 characters. -/
def readLog (t : Tables) (fields : List CString) : Option Tables :=
  if fields = [] then some t
  else if h : t.logIdx < maxMsn then
    if ∀ word ∈ fields, word.length < 32 then
      let e := (t.msnMap ⟨t.logIdx, h⟩).store fields
      let msnMap := update t.msnMap ⟨t.logIdx, h⟩ e
      if 2 ≤ fields.length then
        (addresses e.ip).map fun ips =>
          { t with msnMap, logIdx := t.logIdx + 1, logIdx_le := h, ipMap := ips.foldl IpMap.addIpMap t.ipMap }
      else some { t with msnMap }
    else none
  else none

/-- An `exec` command. -/
def readExec (t : Tables) (fields : List CString) : Option Tables :=
  if fields = [] then some t
  else if h : t.execIdx < maxMsn then
    let execList := update t.execList ⟨t.execIdx, h⟩ ((t.execList ⟨t.execIdx, h⟩).store fields)
    if fields.length = 3 then some { t with execList, execIdx := t.execIdx + 1, execIdx_le := h }
    else some { t with execList }
  else none

/-- The body of the loop of `read_conf_file`. -/
def readLine (t : Tables) (buf : CString) : Option Tables :=
  match command buf with
  | .empty | .unknown => some t
  | .log p => t.readLog (logFields p)
  | .exec p => t.readExec (execFields p)

/-- The elements of `msn_map` that are in use. -/
def msnEntries (t : Tables) : List MsnEntry := List.ofFn fun i : Fin t.logIdx => t.msnMap (i.castLE t.logIdx_le)

/-- The elements of `exec_list` that are in use. -/
def execEntries (t : Tables) : List ExecEntry :=
  List.ofFn fun i : Fin t.execIdx => t.execList (i.castLE t.execIdx_le)

end Tables

/-- The lines of the file as they come from the buffer. -/
def confBuffers (file : CString) : List CString := (fgetsAll 1023 file).map bufferText

/-- A log file: the one of an address, or the common one. -/
inductive LogFile
  | common
  | address (ip : CString)
deriving DecidableEq

/-- What `do_log` writes to the log files, and the table that it leaves behind. -/
structure Logged where
  files : List (LogFile × CString)
  ipMap : IpMap

/-- The line for a log file. -/
def logText (stamp caller myPhone : CString) : CString :=
  stamp ++ ' ' :: caller ++ ' ' :: myPhone ++ ['\n']

def Tables.doLog (t : Tables) (stamp caller myPhone : CString) : Option Logged :=
  match t.msnEntries.find? (·.msn = myPhone) with
  | none => some ⟨[(.common, logText stamp caller myPhone)], t.ipMap⟩
  | some e =>
      (addresses e.ip).map fun ips =>
        ⟨ips.map fun ip => (.address ip, logText stamp caller myPhone),
          ips.foldl (IpMap.setIpMap stamp caller myPhone) t.ipMap⟩

/-! ## What it is for -/

/-- A line of the file that assigns addresses to a number. -/
structure LogLine where
  msn : CString
  addresses : List CString

/-- The words behind `log`. -/
def logWords (buf : CString) : List CString :=
  match command buf with
  | .log p => runsOf isSpaceC p
  | _ => []

/-- The fields behind `exec`. -/
def execWords (buf : CString) : List CString :=
  match command buf with
  | .exec p => execFields p
  | _ => []

/-- The words assign an address to a number. -/
def assignment : List CString → Option LogLine
  | msn :: ip :: ips => some ⟨msn, ip :: ips⟩
  | _ => none

/-- A line that assigns an address to a number. -/
def logLine (buf : CString) : Option LogLine := assignment (logWords buf)

/-- The assignments in some lines. -/
def logLines (bufs : List CString) : List LogLine := bufs.filterMap logLine

/-- The first assignment to a number. -/
def firstLogLine (bufs : List CString) (phone : CString) : Option LogLine :=
  (logLines bufs).find? (·.msn = phone)

/-- The call is delivered to the addresses of a line: to their log files, and to the entries that they have
in the table of the addresses.  They all have one, unless the table is full. -/
def Delivered (line : Option LogLine) (before : IpMap) (stamp caller phone : CString) (r : Logged) : Prop :=
  match line with
  | none => r = ⟨[(.common, logText stamp caller phone)], before⟩
  | some l =>
      r.files = l.addresses.map (fun ip => (.address ip, logText stamp caller phone)) ∧
      r.ipMap.entries = before.entries.map (fun e =>
        if e.ip ∈ l.addresses then IpMap.recordIn stamp caller phone e else e) ∧
      ∀ ip ∈ l.addresses, ip ∈ before.ips ∨ before.entries.length = maxIpAddresses

/-- The words of the file have less than 32 characters. -/
def WordsShort (file : CString) : Prop :=
  ∀ word, word <:+: file → (∀ c ∈ word, isSpaceC c = false) → word.length < 32

/-! ## When it does so -/

/-- There is room for what a line stores, behind what the lines before it have stored. -/
structure LineFits (past : List CString) (buf : CString) : Prop where
  log : logWords buf ≠ [] → (logLines past).length < maxMsn
  exec : execWords buf ≠ [] → (past.filter fun b => (execWords b).length = 3).length < maxMsn
  addresses : ∀ l, logLine buf = some l → l.addresses.length < maxIpAddressesPerMsn

variable {t t' : Tables} {buf p file : CString} {past words : List CString}

/-! ### The words of a line -/

theorem logFields_eq (p : CString) : logFields p = (runsOf isSpaceC p).take (1 + maxIpAddressesPerMsn) := by
  unfold logFields
  rw [sscanf_words, List.filterMap_map]
  exact List.filterMap_some

theorem infix_of_map_untab {word l : CString} (h : word <:+: l.map untab)
    (hword : ∀ c ∈ word, isSpaceC c = false) : word <:+: l := by
  obtain ⟨before, after, h⟩ := h
  obtain ⟨l₁, l₂, rfl, hl₁, -⟩ := List.map_eq_append_iff.mp h.symm
  obtain ⟨l₃, l₄, rfl, -, hl₄⟩ := List.map_eq_append_iff.mp hl₁
  -- the word has no tabs, because a tab would have become a blank
  have hsame : l₄ = word := by
    rw [← hl₄]
    refine (List.map_id' l₄).symm.trans (List.map_congr_left ?_)
    intro c hc
    have hspace := hword (untab c) (hl₄ ▸ List.mem_map_of_mem hc)
    unfold untab at hspace ⊢
    split at hspace
    · exact absurd hspace (by decide)
    · next hne => rw [if_neg hne]
  exact ⟨l₃, l₂, by rw [hsame]⟩

theorem infix_of_mem_logWords {word : CString} (h : word ∈ logWords buf) :
    word <:+: buf ∧ (∀ c ∈ word, isSpaceC c = false) ∧ word ≠ [] := by
  unfold logWords command at h
  dsimp only at h
  split at h
  · next p hcommand =>
    obtain ⟨hwithin, hword⟩ := infix_of_mem_runsOf h
    refine ⟨?_, hword, ne_nil_of_mem_runsOf h⟩
    split at hcommand
    · exact nomatch hcommand
    split at hcommand
    · obtain rfl := Command.log.inj hcommand
      have htext := (hwithin.trans (List.dropWhile_suffix _).isInfix).trans (List.drop_suffix 4 _).isInfix
      have hline := infix_of_map_untab htext hword
      exact (hline.trans (List.dropWhile_suffix _).isInfix).trans (List.takeWhile_prefix _).isInfix
    · split at hcommand
      · exact nomatch hcommand
      · exact nomatch hcommand
  · exact nomatch h

theorem infix_of_mem_confBuffers (h : buf ∈ confBuffers file) : buf <:+: file := by
  obtain ⟨piece, hpiece, rfl⟩ := List.mem_map.mp h
  exact (List.takeWhile_prefix _).isInfix.trans (infix_of_mem_fgetsAll (by decide) hpiece)

theorem WordsShort.logWords (h : WordsShort file) (hbuf : buf ∈ confBuffers file) {word : CString}
    (hword : word ∈ logWords buf) : word.length < 32 := by
  obtain ⟨hwithin, hspace, -⟩ := infix_of_mem_logWords hword
  exact h word (hwithin.trans (infix_of_mem_confBuffers hbuf)) hspace

/-! ### The addresses of an entry -/

theorem addresses_append {ips : List CString} (h : ∀ ip ∈ ips, ip ≠ []) (k : ℕ) :
    addresses (ips ++ List.replicate k []) = if 0 < k then some ips else none := by
  induction ips with
  | nil =>
      cases k with
      | zero => rfl
      | succ k => rfl
  | cons ip ips ih =>
      obtain ⟨hip, hips⟩ := List.forall_mem_cons.mp h
      rw [List.cons_append, addresses, if_neg hip, ih hips]
      split
      · rfl
      · rfl

/-- The entry for a line. -/
def LogLine.entry (l : LogLine) : MsnEntry :=
  ⟨l.msn, l.addresses ++ List.replicate (maxIpAddressesPerMsn - l.addresses.length) []⟩

theorem store_fresh {e : MsnEntry} (he : e.ip = List.replicate maxIpAddressesPerMsn []) (msn : CString)
    (ips : List CString) : e.store (msn :: ips) = LogLine.entry ⟨msn, ips⟩ := by
  rw [MsnEntry.store, he, List.drop_replicate]
  rfl

/-! ### A line -/

/-- The entries that are not in use have no addresses. -/
def Tables.Fresh (t : Tables) : Prop :=
  ∀ i : Fin maxMsn, t.logIdx ≤ i → (t.msnMap i).ip = List.replicate maxIpAddressesPerMsn []

theorem readLog_full (hwords : words ≠ []) (hfull : ¬ t.logIdx < maxMsn) : t.readLog words = none := by
  rw [Tables.readLog, if_neg hwords, dif_neg hfull]

theorem readLog_single {msn : CString} (hroom : t.logIdx < maxMsn) (hshort : msn.length < 32) :
    t.readLog [msn] = some { t with
      msnMap := update t.msnMap ⟨t.logIdx, hroom⟩ ⟨msn, (t.msnMap ⟨t.logIdx, hroom⟩).ip⟩ } := by
  rw [Tables.readLog, if_neg (List.cons_ne_nil _ _), dif_pos hroom, if_pos (by simpa using hshort)]
  rfl

theorem readLog_assignment {l : LogLine} (hfresh : t.Fresh) (hroom : t.logIdx < maxMsn)
    (hwords : assignment words = some l) (hshort : ∀ word ∈ words, word.length < 32)
    (hne : ∀ word ∈ words, word ≠ []) :
    t.readLog (words.take (1 + maxIpAddressesPerMsn)) =
      if l.addresses.length < maxIpAddressesPerMsn then
        some { t with
          msnMap := update t.msnMap ⟨t.logIdx, hroom⟩ l.entry
          logIdx := t.logIdx + 1
          logIdx_le := hroom
          ipMap := l.addresses.foldl IpMap.addIpMap t.ipMap }
      else none := by
  match words, hwords with
  | msn :: ip :: ips, hwords =>
    obtain rfl := Option.some.inj hwords
    have htake : (msn :: ip :: ips).take (1 + maxIpAddressesPerMsn) = msn :: ip :: ips.take 15 := rfl
    have hshort' : ∀ word ∈ msn :: ip :: ips.take 15, word.length < 32 := by
      intro word hword
      exact hshort word (List.mem_of_mem_take (htake ▸ hword))
    have hne' : ∀ word ∈ ip :: ips.take 15, word ≠ [] := by
      intro word hword
      exact hne word (List.mem_of_mem_take (htake ▸ List.mem_cons_of_mem msn hword))
    have hstored := store_fresh (hfresh ⟨t.logIdx, hroom⟩ (le_refl _)) msn (ip :: ips.take 15)
    rw [htake, Tables.readLog, if_neg (List.cons_ne_nil _ _), dif_pos hroom, if_pos hshort', hstored]
    dsimp only
    rw [if_pos (by simp), LogLine.entry, addresses_append hne']
    have hlength : (ip :: ips.take 15).length = min (ips.length + 1) 16 := by
      rw [List.length_cons, List.length_take]
      omega
    by_cases hfit : (ip :: ips).length < maxIpAddressesPerMsn
    · have hall : ips.take 15 = ips := List.take_of_length_le (by
        rw [List.length_cons] at hfit
        exact Nat.le_of_lt (Nat.lt_of_succ_lt_succ hfit))
      rw [if_pos hfit, hall, if_pos (Nat.sub_pos_of_lt hfit)]
      rfl
    · rw [if_neg hfit, if_neg]
      · rfl
      · rw [List.length_cons] at hfit
        rw [hlength]
        unfold maxIpAddressesPerMsn at hfit ⊢
        omega

theorem readExec_isSome (t : Tables) (fields : List CString) :
    (t.readExec fields).isSome ↔ (fields ≠ [] → t.execIdx < maxMsn) := by
  unfold Tables.readExec
  by_cases hfields : fields = []
  · rw [if_pos hfields]
    simp [hfields]
  · rw [if_neg hfields]
    by_cases hroom : t.execIdx < maxMsn
    · rw [dif_pos hroom]
      split
      · simp [hroom]
      · simp [hroom]
    · rw [dif_neg hroom]
      simp [hfields, hroom]

theorem readExec_frame {fields : List CString} (h : t.readExec fields = some t') :
    t'.msnMap = t.msnMap ∧ t'.logIdx = t.logIdx ∧ t'.ipMap = t.ipMap ∧
      t'.execIdx = t.execIdx + if fields.length = 3 then 1 else 0 := by
  unfold Tables.readExec at h
  split at h
  · next hfields =>
    obtain rfl := Option.some.inj h
    simp [hfields]
  · split at h
    · dsimp only at h
      split at h
      · next hcount =>
        obtain rfl := Option.some.inj h
        exact ⟨rfl, rfl, rfl, by rw [if_pos hcount]⟩
      · next hcount =>
        obtain rfl := Option.some.inj h
        exact ⟨rfl, rfl, rfl, by rw [if_neg hcount]; rfl⟩
    · exact nomatch h

/-! ### The table of the addresses -/

namespace IpMap

variable {m : IpMap} {ip ip' : CString} {ips : List CString}

/-- The address is in the table, unless the table is full. -/
def Known (m : IpMap) (ip : CString) : Prop := ip ∈ m.ips ∨ m.entries.length = maxIpAddresses

theorem addIpMap_known (m : IpMap) (hshort : ip.length < 32) : (m.addIpMap ip).Known ip := by
  unfold addIpMap
  split
  · next hmem => exact .inl hmem
  · split
    · refine .inl ?_
      have htake : ip.take 31 = ip := List.take_of_length_le (by omega)
      simp [ips, htake]
    · next hfull => exact .inr (Nat.le_antisymm m.used_le (not_lt.mp hfull))

theorem Known.addIpMap (h : m.Known ip) (ip' : CString) : (m.addIpMap ip').Known ip := by
  unfold IpMap.addIpMap
  split
  · exact h
  · split
    · next hroom =>
      rcases h with hmem | hfull
      · refine .inl ?_
        unfold ips
        rw [List.map_append]
        exact List.mem_append_left _ hmem
      · omega
    · exact h

theorem nodup_addIpMap (h : m.ips.Nodup) (hshort : ip.length < 32) : (m.addIpMap ip).ips.Nodup := by
  unfold addIpMap
  split
  · exact h
  · next hnew =>
    split
    · have htake : ip.take 31 = ip := List.take_of_length_le (by omega)
      unfold ips at h hnew ⊢
      rw [List.map_append, List.map_singleton, htake]
      refine List.nodup_append.mpr ⟨h, List.nodup_singleton ip, ?_⟩
      intro a ha b hb hab
      obtain rfl := List.mem_singleton.mp hb
      exact hnew (hab ▸ ha)
    · exact h

theorem foldl_addIpMap (hnodup : m.ips.Nodup) (hshort : ∀ ip ∈ ips, ip.length < 32) :
    (ips.foldl addIpMap m).ips.Nodup ∧ (∀ ip ∈ ips, (ips.foldl addIpMap m).Known ip) ∧
      ∀ ip, m.Known ip → (ips.foldl addIpMap m).Known ip := by
  induction ips generalizing m with
  | nil => exact ⟨hnodup, by simp, fun ip h => h⟩
  | cons ip ips ih =>
      obtain ⟨hip, hips⟩ := List.forall_mem_cons.mp hshort
      obtain ⟨hnodup', hknown, hkeep⟩ := ih (nodup_addIpMap hnodup hip) hips
      rw [List.foldl_cons]
      refine ⟨hnodup', ?_, fun ip' h => hkeep ip' (h.addIpMap ip)⟩
      exact List.forall_mem_cons.mpr ⟨hkeep ip (addIpMap_known m hip), hknown⟩

variable {stamp caller myPhone : CString}

theorem setFirst_eq {entries : List IpEntry} (hnodup : (entries.map IpEntry.ip).Nodup) (ip : CString) :
    setFirst ip stamp caller myPhone entries =
      entries.map fun e => if e.ip = ip then recordIn stamp caller myPhone e else e := by
  induction entries with
  | nil => rfl
  | cons e entries ih =>
      rw [List.map_cons, List.nodup_cons] at hnodup
      obtain ⟨hnew, hnodup⟩ := hnodup
      rw [setFirst, List.map_cons]
      by_cases he : e.ip = ip
      · have hrest : ∀ e' ∈ entries, (if e'.ip = ip then recordIn stamp caller myPhone e' else e') = e' := by
          intro e' he'
          apply if_neg
          intro heq
          rw [he, ← heq] at hnew
          exact hnew (List.mem_map_of_mem he')
        rw [if_pos he, if_pos he, List.map_congr_left hrest, List.map_id']
      · rw [if_neg he, if_neg he, ih hnodup]

theorem foldl_setIpMap (hnodup : m.ips.Nodup) (ips : List CString) :
    (ips.foldl (setIpMap stamp caller myPhone) m).entries =
      m.entries.map fun e => if e.ip ∈ ips then recordIn stamp caller myPhone e else e := by
  induction ips generalizing m with
  | nil => simp
  | cons ip ips ih =>
      have hset : (m.setIpMap stamp caller myPhone ip).entries =
          m.entries.map fun e => if e.ip = ip then recordIn stamp caller myPhone e else e :=
        setFirst_eq hnodup ip
      have hips : (m.setIpMap stamp caller myPhone ip).ips = m.ips := by
        unfold IpMap.ips
        rw [hset, List.map_map]
        apply List.map_congr_left
        intro e _
        dsimp only [Function.comp_apply]
        split
        · rfl
        · rfl
      rw [List.foldl_cons, ih (hips ▸ hnodup), hset, List.map_map]
      apply List.map_congr_left
      intro e _
      dsimp only [Function.comp_apply]
      by_cases he : e.ip = ip
      · rw [if_pos he, if_pos (show e.ip ∈ ip :: ips from he ▸ List.mem_cons_self)]
        split
        · rfl
        · rfl
      · rw [if_neg he]
        simp [he]

end IpMap

/-! ### The loop over the lines -/

/-- What the tables hold after some lines. -/
structure Holds (past : List CString) (t : Tables) : Prop where
  logIdx_eq : t.logIdx = (logLines past).length
  execIdx_eq : t.execIdx = (past.filter fun b => (execWords b).length = 3).length
  used : ∀ (i : Fin maxMsn) l, (logLines past)[(i : ℕ)]? = some l → t.msnMap i = l.entry
  fresh : t.Fresh
  fits : ∀ l ∈ logLines past, l.addresses.length < maxIpAddressesPerMsn ∧ ∀ ip ∈ l.addresses, ip ≠ []
  nodup : t.ipMap.ips.Nodup
  known : ∀ l ∈ logLines past, ∀ ip ∈ l.addresses, t.ipMap.Known ip

theorem logLines_snoc (past : List CString) (buf : CString) :
    logLines (past ++ [buf]) = logLines past ++ (logLine buf).toList := by
  unfold logLines
  rw [List.filterMap_append]
  cases h : logLine buf with
  | none => simp [h]
  | some l => simp [h]

theorem execCount_snoc (past : List CString) (buf : CString) :
    ((past ++ [buf]).filter fun b => (execWords b).length = 3).length =
      (past.filter fun b => (execWords b).length = 3).length + if (execWords buf).length = 3 then 1 else 0 := by
  rw [List.filter_append, List.length_append]
  split
  · next h => simp [h]
  · next h => simp [h]

theorem Holds.other (h : Holds past t) (hline : logLine buf = none)
    (hmap : ∀ i : Fin maxMsn, (i : ℕ) ≠ t.logIdx → t'.msnMap i = t.msnMap i)
    (hips : ∀ i : Fin maxMsn, (t'.msnMap i).ip = (t.msnMap i).ip) (hlog : t'.logIdx = t.logIdx)
    (hexec : t'.execIdx = t.execIdx + if (execWords buf).length = 3 then 1 else 0)
    (hipMap : t'.ipMap = t.ipMap) : Holds (past ++ [buf]) t' := by
  have hlines : logLines (past ++ [buf]) = logLines past := by
    rw [logLines_snoc, hline, Option.toList_none, List.append_nil]
  refine ⟨?_, ?_, ?_, ?_, ?_, ?_, ?_⟩
  · rw [hlog, hlines, h.logIdx_eq]
  · rw [execCount_snoc, hexec, h.execIdx_eq]
  · intro i l hl
    rw [hlines] at hl
    have hlt := (List.getElem?_eq_some_iff.mp hl).1
    rw [hmap i (by rw [h.logIdx_eq]; omega), h.used i l hl]
  · intro i hi
    rw [hips, h.fresh i (hlog ▸ hi)]
  · rw [hlines]
    exact h.fits
  · rw [hipMap]
    exact h.nodup
  · rw [hlines, hipMap]
    exact h.known

theorem Holds.assigned {l : LogLine} (h : Holds past t) (hline : logLine buf = some l)
    (hroom : t.logIdx < maxMsn) (hfit : l.addresses.length < maxIpAddressesPerMsn)
    (hexec : execWords buf = []) (hwords : ∀ ip ∈ l.addresses, ip.length < 32 ∧ ip ≠ []) :
    Holds (past ++ [buf]) { t with
      msnMap := update t.msnMap ⟨t.logIdx, hroom⟩ l.entry
      logIdx := t.logIdx + 1
      logIdx_le := hroom
      ipMap := l.addresses.foldl IpMap.addIpMap t.ipMap } := by
  have hlines : logLines (past ++ [buf]) = logLines past ++ [l] := by
    rw [logLines_snoc, hline, Option.toList_some]
  obtain ⟨hnodup, hnew, hkeep⟩ := IpMap.foldl_addIpMap h.nodup fun ip hip => (hwords ip hip).1
  refine ⟨?_, ?_, ?_, ?_, ?_, hnodup, ?_⟩
  · rw [hlines, List.length_append, List.length_singleton, ← h.logIdx_eq]
  · rw [execCount_snoc, hexec]
    exact h.execIdx_eq
  · intro i l' hl'
    rw [hlines] at hl'
    by_cases hi : (i : ℕ) = t.logIdx
    · -- the entry that has just been filled belongs to the last line
      have hlast : i = ⟨t.logIdx, hroom⟩ := Fin.ext hi
      rw [hi, h.logIdx_eq, List.getElem?_concat_length, Option.some_inj] at hl'
      dsimp only
      rw [hlast, update_self, hl']
    · have hlt := (List.getElem?_eq_some_iff.mp hl').1
      rw [List.length_append, List.length_singleton, ← h.logIdx_eq] at hlt
      rw [List.getElem?_append_left (by rw [← h.logIdx_eq]; omega)] at hl'
      have hne : i ≠ ⟨t.logIdx, hroom⟩ := fun heq => hi (congrArg Fin.val heq)
      dsimp only
      rw [update_of_ne hne, h.used i l' hl']
  · intro i hi
    have hne : i ≠ ⟨t.logIdx, hroom⟩ := by
      rintro rfl
      exact absurd hi (Nat.not_succ_le_self t.logIdx)
    dsimp only
    rw [update_of_ne hne, h.fresh i (Nat.le_of_succ_le hi)]
  · rw [hlines]
    intro l' hl'
    rcases List.mem_append.mp hl' with hl' | hl'
    · exact h.fits l' hl'
    · obtain rfl := List.mem_singleton.mp hl'
      exact ⟨hfit, fun ip hip => (hwords ip hip).2⟩
  · rw [hlines]
    intro l' hl' ip hip
    rcases List.mem_append.mp hl' with hl' | hl'
    · exact hkeep ip (h.known l' hl' ip hip)
    · obtain rfl := List.mem_singleton.mp hl'
      exact hnew ip hip

theorem mem_of_assignment {l : LogLine} (h : assignment words = some l) {ip : CString} (hip : ip ∈ l.addresses) :
    ip ∈ words := by
  match words, h with
  | msn :: first :: ips, h =>
    obtain rfl := Option.some.inj h
    exact List.mem_cons_of_mem msn hip

theorem Holds.idle (h : Holds past t) (hrun : t.readLine buf = some t) (hlog : logWords buf = [])
    (hexec : execWords buf = []) :
    ((t.readLine buf).isSome ↔ LineFits past buf) ∧
      ∀ t', t.readLine buf = some t' → Holds (past ++ [buf]) t' := by
  have hline : logLine buf = none := by
    rw [logLine, hlog]
    rfl
  refine ⟨iff_of_true (by rw [hrun]; rfl) ⟨?_, ?_, ?_⟩, ?_⟩
  · exact fun hne => absurd hlog hne
  · exact fun hne => absurd hexec hne
  · intro l hl
    rw [hline] at hl
    exact nomatch hl
  · intro t' ht'
    obtain rfl := Option.some.inj (hrun.symm.trans ht')
    exact h.other hline (fun _ _ => rfl) (fun _ => rfl) rfl (by rw [hexec]; rfl) rfl

theorem Holds.exec (h : Holds past t) (hrun : t.readLine buf = t.readExec (execWords buf))
    (hlog : logWords buf = []) :
    ((t.readLine buf).isSome ↔ LineFits past buf) ∧
      ∀ t', t.readLine buf = some t' → Holds (past ++ [buf]) t' := by
  have hline : logLine buf = none := by
    rw [logLine, hlog]
    rfl
  rw [hrun, readExec_isSome, h.execIdx_eq]
  refine ⟨⟨fun hroom => ⟨fun hne => absurd hlog hne, hroom, ?_⟩, LineFits.exec⟩, ?_⟩
  · intro l hl
    rw [hline] at hl
    exact nomatch hl
  · intro t' ht'
    obtain ⟨hmap, hlogIdx, hipMap, hexecIdx⟩ := readExec_frame ht'
    exact h.other hline (fun i _ => congrFun hmap i) (fun i => by rw [hmap]) hlogIdx hexecIdx hipMap

theorem Holds.log (h : Holds past t)
    (hrun : t.readLine buf = t.readLog ((logWords buf).take (1 + maxIpAddressesPerMsn)))
    (hne : logWords buf ≠ []) (hexec : execWords buf = []) (hshort : ∀ word ∈ logWords buf, word.length < 32) :
    ((t.readLine buf).isSome ↔ LineFits past buf) ∧
      ∀ t', t.readLine buf = some t' → Holds (past ++ [buf]) t' := by
  have hwords : ∀ word ∈ logWords buf, word ≠ [] := fun word hword => (infix_of_mem_logWords hword).2.2
  have hexec' : execWords buf ≠ [] → (past.filter fun b => (execWords b).length = 3).length < maxMsn :=
    fun hne => absurd hexec hne
  by_cases hroom : t.logIdx < maxMsn
  · have hroom' : logWords buf ≠ [] → (logLines past).length < maxMsn := fun _ => h.logIdx_eq ▸ hroom
    cases hline : logLine buf with
    | none =>
        -- a word alone
        obtain ⟨msn, hmsn⟩ : ∃ msn, logWords buf = [msn] := by
          match hw : logWords buf with
          | [] => exact absurd hw hne
          | [msn] => exact ⟨msn, rfl⟩
          | msn :: ip :: ips =>
            rw [logLine, hw] at hline
            exact nomatch hline
        have hsingle := readLog_single hroom (hshort msn (hmsn ▸ List.mem_cons_self))
        rw [hmsn] at hrun
        have hfits : LineFits past buf := ⟨hroom', hexec', fun l hl => nomatch hline.symm.trans hl⟩
        refine ⟨iff_of_true (by rw [hrun]; exact hsingle ▸ rfl) hfits, ?_⟩
        intro t' ht'
        rw [hrun] at ht'
        obtain rfl := Option.some.inj (hsingle.symm.trans ht')
        refine h.other hline ?_ ?_ rfl (by rw [hexec]; rfl) rfl
        · intro i hi
          exact update_of_ne (fun heq => hi (congrArg Fin.val heq)) _ _
        · intro i
          dsimp only
          by_cases hi : i = ⟨t.logIdx, hroom⟩
          · rw [hi, update_self]
          · rw [update_of_ne hi]
    | some l =>
        have hassigned := readLog_assignment h.fresh hroom hline hshort hwords
        rw [hrun, hassigned]
        by_cases hfit : l.addresses.length < maxIpAddressesPerMsn
        · rw [if_pos hfit]
          have hfits : LineFits past buf := by
            refine ⟨hroom', hexec', ?_⟩
            intro l' hl'
            obtain rfl := Option.some.inj (hline.symm.trans hl')
            exact hfit
          refine ⟨iff_of_true rfl hfits, ?_⟩
          intro t' ht'
          obtain rfl := Option.some.inj ht'
          refine h.assigned hline hroom hfit hexec ?_
          intro ip hip
          have hmem := mem_of_assignment hline hip
          exact ⟨hshort ip hmem, hwords ip hmem⟩
        · rw [if_neg hfit]
          exact ⟨iff_of_false (fun hnone => nomatch hnone) fun hfits => hfit (hfits.addresses l hline),
            fun _ hnone => nomatch hnone⟩
  · have htake : (logWords buf).take (1 + maxIpAddressesPerMsn) ≠ [] := by
      intro hnil
      rcases List.take_eq_nil_iff.mp hnil with hzero | hnil
      · exact nomatch hzero
      · exact hne hnil
    rw [hrun, readLog_full htake hroom]
    refine ⟨iff_of_false (fun hnone => nomatch hnone) fun hfits => hroom ?_, fun _ hnone => nomatch hnone⟩
    rw [h.logIdx_eq]
    exact hfits.log hne

theorem Holds.readLine (h : Holds past t) (hshort : ∀ word ∈ logWords buf, word.length < 32) :
    ((t.readLine buf).isSome ↔ LineFits past buf) ∧
      ∀ t', t.readLine buf = some t' → Holds (past ++ [buf]) t' := by
  cases hcommand : command buf with
  | empty =>
      exact h.idle (by rw [Tables.readLine, hcommand]) (by rw [logWords, hcommand]) (by rw [execWords, hcommand])
  | unknown =>
      exact h.idle (by rw [Tables.readLine, hcommand]) (by rw [logWords, hcommand]) (by rw [execWords, hcommand])
  | exec p =>
      exact h.exec (by rw [Tables.readLine, execWords, hcommand]) (by rw [logWords, hcommand])
  | log p =>
      have hexec : execWords buf = [] := by rw [execWords, hcommand]
      have hrun : t.readLine buf = t.readLog ((logWords buf).take (1 + maxIpAddressesPerMsn)) := by
        rw [Tables.readLine, logWords, hcommand]
        dsimp only
        rw [logFields_eq]
      by_cases hwords : logWords buf = []
      · refine h.idle ?_ hwords hexec
        rw [hrun, hwords]
        rfl
      · exact h.log hrun hwords hexec hshort

theorem Holds.msnEntries (h : Holds past t) : t.msnEntries = (logLines past).map LogLine.entry := by
  apply List.ext_getElem?
  intro i
  unfold Tables.msnEntries
  rw [List.getElem?_ofFn, List.getElem?_map]
  split
  · next hi =>
    have hline := List.getElem?_eq_getElem (h.logIdx_eq ▸ hi : i < (logLines past).length)
    have hentry := h.used (Fin.castLE t.logIdx_le ⟨i, hi⟩) _ hline
    rw [hline, hentry]
    rfl
  · next hi =>
    rw [h.logIdx_eq] at hi
    rw [List.getElem?_eq_none (not_lt.mp hi)]
    rfl

theorem Holds.doLog (h : Holds past t) (stamp caller phone : CString) :
    ∃ r, t.doLog stamp caller phone = some r ∧
      Delivered (firstLogLine past phone) t.ipMap stamp caller phone r := by
  have hfind : t.msnEntries.find? (·.msn = phone) = (firstLogLine past phone).map LogLine.entry := by
    rw [h.msnEntries, List.find?_map]
    rfl
  cases hline : firstLogLine past phone with
  | none =>
      rw [Tables.doLog, hfind, hline]
      exact ⟨_, rfl, rfl⟩
  | some l =>
      have hmem : l ∈ logLines past := List.mem_of_find?_eq_some hline
      obtain ⟨hfit, hne⟩ := h.fits l hmem
      have haddresses : addresses l.entry.ip = some l.addresses :=
        (addresses_append hne _).trans (if_pos (Nat.sub_pos_of_lt hfit))
      rw [Tables.doLog, hfind, hline]
      dsimp only [Option.map_some]
      rw [haddresses]
      exact ⟨_, rfl, rfl, IpMap.foldl_setIpMap h.nodup l.addresses, fun ip hip => h.known l hmem ip hip⟩

end Telmond
end Mkfli4l
