import Mkfli4l.Lib.CNumber
import Mkfli4l.Lib.LinkedList

/-!
# The device list of `hwsuppd`

`hwsuppd` is given the input devices that it watches as options: GPIO devices, and event devices together
with a key.  The devices are in a list that is linked through them, and every device has a list of its
buttons, which is linked through the buttons.

A second key of an event device finds the device in the list, and gets a button of its own.  But then the
device is put in front of the list again, and is linked to what has been the first device: the list has no
end any more.  `parseArgs_iff` says that this is the only thing that goes wrong.
-/

namespace Mkfli4l
namespace Hwsuppd

open Lib Function

/-- `deviceTypeT`. -/
inductive DeviceType
  | gpio
  | evdev
deriving DecidableEq

/-- `deviceT`, without its pointers. -/
structure Device where
  type : DeviceType
  inputDev : CString
deriving DecidableEq

/-- `buttonT`, without its pointer to the next button; only buttons of event devices have a key. -/
structure Button where
  dev : ℕ
  nIndex : UInt32
  key : Option UInt32
deriving DecidableEq

/-- The devices and buttons that have been created, in this order, and the pointers between them.  A
pointer is a number or NULL. -/
structure Lists where
  firstDevice : Option ℕ
  devices : List Device
  next : ℕ → Option ℕ
  firstButton : ℕ → Option ℕ
  buttons : List Button
  nextButton : ℕ → Option ℕ

namespace Lists

def empty : Lists := ⟨none, [], fun _ => none, fun _ => none, [], fun _ => none⟩

/-- `gpio_createDevice` and `evdev_createDevice`, when they succeed: the memory is cleared. -/
def createDevice (s : Lists) (type : DeviceType) (inputDev : CString) : Lists :=
  let d := s.devices.length
  { s with
    devices := s.devices ++ [⟨type, inputDev⟩]
    next := update s.next d none
    firstButton := update s.firstButton d none }

/-- `gpio_createButton` and `evdev_createButton`, when they succeed. -/
def createButton (s : Lists) (button : Button) : Lists :=
  { s with
    buttons := s.buttons ++ [button]
    nextButton := update s.nextButton s.buttons.length none }

def addDevice (s : Lists) (d : ℕ) : Lists :=
  { s with next := update s.next d s.firstDevice, firstDevice := some d }

def addButton (s : Lists) (d b : ℕ) : Lists :=
  { s with
    nextButton := update s.nextButton b (s.firstButton d)
    firstButton := update s.firstButton d (some b) }

/-- `find_device` from a device on.  `none` means that the search goes on behind the given number of
devices. -/
def findDevice (s : Lists) (type : DeviceType) (inputDev : CString) : ℕ → Option ℕ → Option (Option ℕ)
  | _, none => some none
  | 0, some _ => none
  | fuel + 1, some d =>
      if s.devices[d]? = some ⟨type, inputDev⟩ then some (some d)
      else s.findDevice type inputDev fuel (s.next d)

/-- The devices that a round of `main_loop` reads.  `none` means that the round goes on behind the given
number of devices. -/
def readDevices (s : Lists) : ℕ → Option ℕ → Option (List ℕ)
  | _, none => some []
  | 0, some _ => none
  | fuel + 1, some d => (s.readDevices fuel (s.next d)).map (d :: ·)

/-- The device gets a button, if there is memory for it, and both are put in their lists. -/
def register (s : Lists) (button : Button) : Lists :=
  ((s.createButton button).addDevice button.dev).addButton button.dev s.buttons.length

end Lists

/-- An option, and whether the device can be opened and the button created, should the option ask for it. -/
inductive Opt
  | debug
  | foreground
  | gpio (optarg : CString) (opened gotButton : Bool)
  | evdev (optarg : CString) (opened gotButton : Bool)
  | other

/-- `strrchr (optarg, ':')`: what is in front of the last colon and behind it. -/
def splitLastColon (optarg : CString) : Option (CString × CString) :=
  if ':' ∈ optarg then
    some ((optarg.reverse.dropWhile (· != ':')).tail.reverse, (optarg.reverse.takeWhile (· != ':')).reverse)
  else none

/-- The variables of `parse_args`. -/
structure Args where
  lists : Lists
  nIndex : UInt32
  fDebug : Bool
  fForeground : Bool
  result : ℤ

namespace Args

def init : Args := ⟨.empty, 0, false, false, 0⟩

/-- A device that has not been found is created and registered. -/
def newDevice (s : Args) (type : DeviceType) (inputDev : CString) (key : Option UInt32)
    (opened gotButton : Bool) : Lists :=
  if opened then
    let lists := s.lists.createDevice type inputDev
    if gotButton then lists.register ⟨s.lists.devices.length, s.nIndex, key⟩ else lists
  else s.lists

/-- The lists have changed, and the option has been counted. -/
def count (s : Args) (lists : Lists) : Args := { s with lists := lists, nIndex := s.nIndex + 1 }

/-- An option of `parse_args`. -/
def parseArg (fuel : ℕ) (s : Args) : Opt → Option Args
  | .debug => some { s with fDebug := true }
  | .foreground => some { s with fForeground := true }
  | .gpio optarg opened gotButton =>
      (s.lists.findDevice .gpio optarg fuel s.lists.firstDevice).map fun device =>
        s.count <|
          match device with
          | some _ => s.lists
          | none => s.newDevice .gpio optarg none opened gotButton
  | .evdev optarg opened gotButton =>
      match splitLastColon optarg with
      | none => some (s.count s.lists)
      | some (inputDev, keyText) =>
          let key := toUInt32 (atoi keyText)
          (s.lists.findDevice .evdev inputDev fuel s.lists.firstDevice).map fun device =>
            s.count <|
              match device with
              | some d => if gotButton then s.lists.register ⟨d, s.nIndex, some key⟩ else s.lists
              | none => s.newDevice .evdev inputDev (some key) opened gotButton
  | .other => some { s with result := -1 }

/-- `parse_args`.  `none` means that a search goes on behind the given number of devices. -/
def parseArgs (fuel : ℕ) (options : List Opt) : Option Args := options.foldlM (parseArg fuel) init

end Args

/-! ### What is promised -/

/-- The device list holds every device that has got a button, once, and every button is in the list of one
device.  So the searches and the rounds come to an end. -/
structure Lists.Links (s : Lists) (l : List ℕ) : Prop where
  linked : Segment s.next s.firstDevice l none
  nodup : l.Nodup
  devices : ∀ d, d ∈ l ↔ d < s.devices.length ∧ ∃ b ∈ s.buttons, b.dev = d
  buttons : ∃ lists : ℕ → List ℕ, (∀ d ∈ l, Segment s.nextButton (s.firstButton d) (lists d) none) ∧
    ∀ b < s.buttons.length, ∃! d, d ∈ l ∧ b ∈ lists d
  search : ∀ type inputDev, ∃ fuel device, s.findDevice type inputDev fuel s.firstDevice = some device
  round : ∃ fuel, s.readDevices fuel s.firstDevice = some l

/-- The path of an event device that is registered, if it has not been so before. -/
def Opt.registers : Opt → Option CString
  | .evdev optarg opened gotButton =>
      if opened && gotButton then (splitLastColon optarg).map Prod.fst else none
  | _ => none

/-- The path of an event device that gets a button, if it has been registered before. -/
def Opt.addsButton : Opt → Option CString
  | .evdev optarg _ gotButton => if gotButton then (splitLastColon optarg).map Prod.fst else none
  | _ => none

/-- No event device gets a second button. -/
def OneKeyEach (options : List Opt) : Prop :=
  options.Pairwise fun a b => ∀ inputDev, a.registers = some inputDev → b.addsButton ≠ some inputDev

/-! ### Searches and rounds -/

namespace Lists

variable {s : Lists} {l : List ℕ} {p : Option ℕ} {type : DeviceType} {inputDev : CString} {fuel : ℕ}

/-- Is this the device that is looked for? -/
def isDevice (s : Lists) (type : DeviceType) (inputDev : CString) (d : ℕ) : Bool :=
  decide (s.devices[d]? = some ⟨type, inputDev⟩)

theorem findDevice_eq (h : Segment s.next p l none) (hfuel : l.length ≤ fuel) :
    s.findDevice type inputDev fuel p = some (l.find? (s.isDevice type inputDev)) := by
  induction l generalizing p fuel with
  | nil =>
      obtain rfl : p = none := h
      cases fuel <;> rfl
  | cons d l ih =>
      obtain ⟨rfl, hrest⟩ := h
      obtain ⟨fuel, rfl⟩ := Nat.exists_eq_succ_of_ne_zero (show fuel ≠ 0 by
        rw [List.length_cons] at hfuel
        omega)
      unfold findDevice isDevice
      rw [List.find?_cons]
      by_cases hd : s.devices[d]? = some ⟨type, inputDev⟩
      · rw [if_pos hd, decide_eq_true hd]
      · rw [if_neg hd, decide_eq_false hd]
        exact ih hrest (Nat.le_of_succ_le_succ hfuel)

theorem findDevice_some (h : Segment s.next p l none) {device : Option ℕ}
    (hfind : s.findDevice type inputDev fuel p = some device) :
    device = l.find? (s.isDevice type inputDev) := by
  induction fuel generalizing p l with
  | zero =>
      cases l with
      | nil =>
          obtain rfl : p = none := h
          exact (Option.some.inj hfind).symm
      | cons d l =>
          obtain ⟨rfl, -⟩ := h
          contradiction
  | succ fuel ih =>
      cases l with
      | nil =>
          obtain rfl : p = none := h
          exact (Option.some.inj hfind).symm
      | cons d l =>
          obtain ⟨rfl, hrest⟩ := h
          unfold findDevice at hfind
          unfold isDevice
          rw [List.find?_cons]
          by_cases hd : s.devices[d]? = some ⟨type, inputDev⟩
          · rw [if_pos hd] at hfind
            rw [decide_eq_true hd]
            exact (Option.some.inj hfind).symm
          · rw [if_neg hd] at hfind
            rw [decide_eq_false hd]
            exact ih hrest hfind

theorem readDevices_eq (h : Segment s.next p l none) : s.readDevices l.length p = some l := by
  induction l generalizing p with
  | nil =>
      obtain rfl : p = none := h
      rfl
  | cons d l ih =>
      obtain ⟨rfl, hrest⟩ := h
      rw [List.length_cons, readDevices, ih hrest, Option.map_some]

end Lists

/-! ### What an option does to the lists -/

variable {s s' : Lists} {l : List ℕ} {d fuel : ℕ} {type : DeviceType} {inputDev : CString} {o : Opt}

theorem Lists.findDevice_found {p : Option ℕ} (h : s.findDevice type inputDev fuel p = some (some d)) :
    s.devices[d]? = some ⟨type, inputDev⟩ := by
  induction fuel generalizing p with
  | zero => cases p <;> simp [Lists.findDevice] at h
  | succ fuel ih =>
      cases p with
      | none => simp [Lists.findDevice] at h
      | some a =>
          unfold Lists.findDevice at h
          split at h
          · next hfound =>
              obtain rfl := Option.some.inj (Option.some.inj h)
              exact hfound
          · exact ih h

/-- The lists behind an option. -/
inductive Effect (fuel : ℕ) (s : Lists) (o : Opt) : Lists → Prop
  /-- They stay as they are. -/
  | kept (hregisters : o.registers = none)
      (hfirst : ∀ inputDev, o.addsButton = some inputDev →
        s.findDevice .evdev inputDev fuel s.firstDevice = some none) :
      Effect fuel s o s
  /-- A device is created, and gets no button. -/
  | created (type : DeviceType) (inputDev : CString) (hregisters : o.registers = none)
      (hadds : o.addsButton = none) :
      Effect fuel s o (s.createDevice type inputDev)
  /-- A device is created and registered. -/
  | registered (type : DeviceType) (inputDev : CString) (button : Button)
      (hdev : button.dev = s.devices.length)
      (hfind : s.findDevice type inputDev fuel s.firstDevice = some none)
      (hregisters : o.registers = if type = .evdev then some inputDev else none)
      (hadds : o.addsButton = o.registers) :
      Effect fuel s o ((s.createDevice type inputDev).register button)
  /-- A device is registered again. -/
  | again (inputDev : CString) (button : Button)
      (hfind : s.findDevice .evdev inputDev fuel s.firstDevice = some (some button.dev))
      (hadds : o.addsButton = some inputDev) :
      Effect fuel s o (s.register button)

theorem newDevice_effect {s : Args} {key : Option UInt32} {opened gotButton : Bool}
    (hfind : s.lists.findDevice type inputDev fuel s.lists.firstDevice = some none)
    (hregisters : o.registers = if type = .evdev ∧ opened = true ∧ gotButton = true then some inputDev else none)
    (hadds : o.addsButton = if type = .evdev ∧ gotButton = true then some inputDev else none) :
    Effect fuel s.lists o (s.newDevice type inputDev key opened gotButton) := by
  unfold Args.newDevice
  cases opened with
  | false =>
      refine .kept ?_ ?_
      · simpa using hregisters
      · intro path hpath
        rw [hadds] at hpath
        split at hpath
        · next hevdev =>
            obtain rfl := Option.some.inj hpath
            rw [← hevdev.1]
            exact hfind
        · contradiction
  | true =>
      cases gotButton with
      | false => exact .created type inputDev (by simpa using hregisters) (by simpa using hadds)
      | true =>
          refine .registered type inputDev _ rfl hfind (by simpa using hregisters) ?_
          rw [hadds, hregisters]
          simp

theorem parseArg_effect {s s' : Args} (h : Args.parseArg fuel s o = some s') :
    Effect fuel s.lists o s'.lists := by
  cases o with
  | debug =>
      obtain rfl := Option.some.inj h
      exact .kept rfl (fun _ hnone => nomatch hnone)
  | foreground =>
      obtain rfl := Option.some.inj h
      exact .kept rfl (fun _ hnone => nomatch hnone)
  | other =>
      obtain rfl := Option.some.inj h
      exact .kept rfl (fun _ hnone => nomatch hnone)
  | gpio optarg opened gotButton =>
      obtain ⟨device, hfind, rfl⟩ := Option.map_eq_some_iff.mp h
      cases device with
      | some d => exact .kept rfl (fun _ hnone => nomatch hnone)
      | none => exact newDevice_effect hfind rfl rfl
  | evdev optarg opened gotButton =>
      cases hsplit : splitLastColon optarg with
      | none =>
          simp only [Args.parseArg, hsplit] at h
          obtain rfl := Option.some.inj h
          refine .kept ?_ ?_
          · simp [Opt.registers, hsplit]
          · simp [Opt.addsButton, hsplit]
      | some parts =>
          obtain ⟨inputDev, keyText⟩ := parts
          simp only [Args.parseArg, hsplit] at h
          obtain ⟨device, hfind, rfl⟩ := Option.map_eq_some_iff.mp h
          cases device with
          | some d =>
              cases gotButton with
              | true => exact .again inputDev _ hfind (by simp [Opt.addsButton, hsplit])
              | false => exact .kept (by simp [Opt.registers]) (by simp [Opt.addsButton])
          | none =>
              refine newDevice_effect hfind ?_ ?_
              · simp [Opt.registers, hsplit]
              · simp [Opt.addsButton, hsplit]

/-! ### A list without an end -/

/-- All pointers lead to devices that have been created. -/
structure Lists.Bounded (s : Lists) : Prop where
  first : ∀ d, s.firstDevice = some d → d < s.devices.length
  next : ∀ a d, s.next a = some d → d < s.devices.length

theorem Lists.Bounded.createDevice (h : s.Bounded) (type : DeviceType) (inputDev : CString) :
    (s.createDevice type inputDev).Bounded := by
  have hlen : (s.createDevice type inputDev).devices.length = s.devices.length + 1 := by
    simp [Lists.createDevice]
  constructor
  · intro d hd
    have := h.first d hd
    omega
  · intro a d hd
    by_cases ha : a = s.devices.length
    · rw [ha] at hd
      simp [Lists.createDevice] at hd
    · have hsame : s.next a = some d := by simpa [Lists.createDevice, ha] using hd
      have := h.next a d hsame
      omega

theorem Lists.Bounded.addDevice (h : s.Bounded) (hd : d < s.devices.length) : (s.addDevice d).Bounded := by
  constructor
  · intro a ha
    obtain rfl := Option.some.inj ha
    exact hd
  · intro a b hb
    by_cases ha : a = d
    · rw [ha] at hb
      exact h.first b (by simpa [Lists.addDevice] using hb)
    · exact h.next a b (by simpa [Lists.addDevice, ha] using hb)

variable {button : Button} {s₀ : Args}

theorem Lists.Bounded.register (h : s.Bounded) (hd : button.dev < s.devices.length) :
    (s.register button).Bounded :=
  ⟨(h.addDevice hd).first, (h.addDevice hd).next⟩

theorem segment_lt {next : ℕ → Option ℕ} {n : ℕ} (hnext : ∀ a d, next a = some d → d < n) {p : Option ℕ}
    (hp : ∀ d, p = some d → d < n) (h : Segment next p l none) : ∀ d ∈ l, d < n := by
  induction l generalizing p with
  | nil => simp
  | cons a l ih =>
      obtain ⟨rfl, hrest⟩ := h
      exact List.forall_mem_cons.mpr ⟨hp a rfl, ih (hnext a) hrest⟩

theorem Lists.Bounded.mem (h : s.Bounded) (hlinked : Segment s.next s.firstDevice l none) :
    ∀ d ∈ l, d < s.devices.length := segment_lt h.next h.first hlinked

/-- Following the pointers, one does not get to the end. -/
structure Lists.Endless (s : Lists) : Prop where
  bounded : s.Bounded
  noEnd : ∀ l, ¬ Segment s.next s.firstDevice l none

theorem Lists.segment_addDevice {r : List ℕ}
    (h : Segment (s.addDevice d).next (s.addDevice d).firstDevice r none) :
    ∃ l, r = d :: l ∧ d ∉ l ∧ Segment s.next s.firstDevice l none := by
  have hnodup := h.nodup
  cases r with
  | nil => exact nomatch h
  | cons a l =>
      obtain ⟨hfirst, hrest⟩ := h
      obtain rfl : d = a := Option.some.inj hfirst
      have hfresh := (List.nodup_cons.mp hnodup).1
      refine ⟨l, rfl, hfresh, ?_⟩
      have hsame := hrest.update hfresh (s.next d)
      have hback : update (update s.next d s.firstDevice) d (s.next d) = s.next := by
        rw [update_idem, update_eq_self]
      have hhead : (s.addDevice d).next d = s.firstDevice := update_self d _ _
      rw [hhead] at hsame
      unfold Lists.addDevice at hsame
      dsimp only at hsame
      rw [hback] at hsame
      exact hsame

theorem Lists.Endless.register (h : s.Endless) (hd : button.dev < s.devices.length) :
    (s.register button).Endless := by
  refine ⟨h.bounded.register hd, ?_⟩
  intro r hr
  obtain ⟨l, -, -, hl⟩ := Lists.segment_addDevice hr
  exact h.noEnd l hl

theorem Lists.Endless.createDevice (h : s.Endless) (type : DeviceType) (inputDev : CString) :
    (s.createDevice type inputDev).Endless := by
  refine ⟨h.bounded.createDevice type inputDev, ?_⟩
  intro l hl
  -- the new device is not in the list
  have hlt : ∀ d ∈ l, d < s.devices.length := by
    refine segment_lt ?_ h.bounded.first hl
    intro a d hd
    by_cases ha : a = s.devices.length
    · rw [ha] at hd
      simp [Lists.createDevice] at hd
    · exact h.bounded.next a d (by simpa [Lists.createDevice, ha] using hd)
  have hfresh : s.devices.length ∉ l := fun hmem => lt_irrefl _ (hlt _ hmem)
  have hsame := hl.update hfresh (s.next s.devices.length)
  unfold Lists.createDevice at hsame
  dsimp only at hsame
  rw [update_idem, update_eq_self] at hsame
  exact h.noEnd l hsame

theorem Lists.endless_register (hbounded : s.Bounded) (h : Segment s.next s.firstDevice l none)
    (hd : button.dev ∈ l) : (s.register button).Endless := by
  refine ⟨hbounded.register (hbounded.mem h _ hd), ?_⟩
  intro r hr
  obtain ⟨l', -, hfresh, hl'⟩ := Lists.segment_addDevice hr
  rw [hl'.unique h] at hfresh
  exact hfresh hd

theorem Lists.Endless.effect (h : s.Endless) (heffect : Effect fuel s o s') : s'.Endless := by
  cases heffect with
  | kept => exact h
  | created type inputDev => exact h.createDevice type inputDev
  | registered type inputDev button hdev =>
      refine (h.createDevice type inputDev).register ?_
      rw [hdev]
      simp [Lists.createDevice]
  | again inputDev button hfind =>
      obtain ⟨hlt, -⟩ := List.getElem?_eq_some_iff.mp (Lists.findDevice_found hfind)
      exact h.register hlt

/-! ### The lists as long as every event device has one key -/

/-- The buttons of a device, the last one first. -/
def Lists.buttonsOf (s : Lists) (d : ℕ) : List ℕ :=
  ((List.range s.buttons.length).filter fun b => s.buttons[b]?.map Button.dev == some d).reverse

/-- The lists behind some options. -/
structure Proper (past : List Opt) (s : Lists) (l : List ℕ) : Prop where
  bounded : s.Bounded
  linked : Segment s.next s.firstDevice l none
  members : ∀ d, d ∈ l ↔ ∃ b ∈ s.buttons, b.dev = d
  buttons : ∀ d ∈ l, Segment s.nextButton (s.firstButton d) (s.buttonsOf d) none
  registered : ∀ inputDev, (∃ d ∈ l, s.devices[d]? = some ⟨.evdev, inputDev⟩) ↔
    ∃ o ∈ past, o.registers = some inputDev
  length_le : l.length ≤ past.length

variable {past : List Opt}

theorem mem_buttonsOf {b : ℕ} : b ∈ s.buttonsOf d ↔ ∃ button, s.buttons[b]? = some button ∧ button.dev = d := by
  unfold Lists.buttonsOf
  rw [List.mem_reverse, List.mem_filter, List.mem_range, beq_iff_eq, Option.map_eq_some_iff]
  constructor
  · exact And.right
  · rintro ⟨button, hb, hdev⟩
    exact ⟨(List.getElem?_eq_some_iff.mp hb).1, button, hb, hdev⟩

theorem proper_empty : Proper [] .empty [] := by
  refine ⟨⟨?_, ?_⟩, rfl, ?_, ?_, ?_, le_refl _⟩
  · exact fun _ h => nomatch h
  · exact fun _ _ h => nomatch h
  · simp [Lists.empty]
  · simp
  · simp

theorem Proper.links (h : Proper past s l) : s.Links l := by
  refine ⟨h.linked, h.linked.nodup, ?_, ⟨s.buttonsOf, h.buttons, ?_⟩, ?_, ⟨_, Lists.readDevices_eq h.linked⟩⟩
  · intro d
    constructor
    · exact fun hd => ⟨h.bounded.mem h.linked d hd, (h.members d).mp hd⟩
    · exact fun hd => (h.members d).mpr hd.2
  · intro b hb
    have hbutton : s.buttons[b]? = some s.buttons[b] := List.getElem?_eq_getElem hb
    refine ⟨s.buttons[b].dev, ⟨?_, ?_⟩, ?_⟩
    · exact (h.members _).mpr ⟨s.buttons[b], List.getElem_mem hb, rfl⟩
    · exact mem_buttonsOf.mpr ⟨_, hbutton, rfl⟩
    · rintro d ⟨-, hd⟩
      obtain ⟨button, hsame, rfl⟩ := mem_buttonsOf.mp hd
      rw [hbutton] at hsame
      rw [Option.some.inj hsame]
  · intro type inputDev
    exact ⟨l.length, _, Lists.findDevice_eq h.linked (le_refl _)⟩

theorem Proper.skip (h : Proper past s l) (hnone : o.registers = none) : Proper (past ++ [o]) s l := by
  refine ⟨h.bounded, h.linked, h.members, h.buttons, ?_, ?_⟩
  · intro inputDev
    rw [h.registered]
    simp [or_and_right, exists_or, hnone]
  · have hlen := h.length_le
    rw [List.length_append]
    omega

theorem Proper.createDevice (h : Proper past s l) (type : DeviceType) (inputDev : CString) :
    Proper past (s.createDevice type inputDev) l := by
  have hlt := h.bounded.mem h.linked
  have hfresh : s.devices.length ∉ l := fun hmem => lt_irrefl _ (hlt _ hmem)
  refine ⟨h.bounded.createDevice type inputDev, h.linked.update hfresh none, h.members, ?_, ?_, h.length_le⟩
  · intro d hd
    have hne : d ≠ s.devices.length := fun heq => hfresh (heq ▸ hd)
    have hsame : (s.createDevice type inputDev).firstButton d = s.firstButton d := by
      simp [Lists.createDevice, hne]
    rw [hsame]
    exact h.buttons d hd
  · intro path
    rw [← h.registered]
    apply exists_congr
    intro d
    apply and_congr_right
    intro hd
    show (s.devices ++ [_])[d]? = _ ↔ _
    rw [List.getElem?_append_left (hlt d hd)]

theorem buttonsOf_register (s : Lists) (button : Button) (d : ℕ) :
    (s.register button).buttonsOf d =
      if button.dev = d then s.buttons.length :: s.buttonsOf d else s.buttonsOf d := by
  have hbuttons : (s.register button).buttons = s.buttons ++ [button] := rfl
  have hold : (List.range s.buttons.length).filter
        (fun b => (s.buttons ++ [button])[b]?.map Button.dev == some d) =
      (List.range s.buttons.length).filter fun b => s.buttons[b]?.map Button.dev == some d := by
    apply List.filter_congr
    intro b hb
    rw [List.getElem?_append_left (List.mem_range.mp hb)]
  unfold Lists.buttonsOf
  rw [hbuttons, List.length_append, List.length_singleton, List.range_succ, List.filter_append,
    List.reverse_append, hold]
  split_ifs with hdev
  · simp [hdev]
  · simp [hdev]

theorem Proper.register (h : Proper past s l) (hd : button.dev < s.devices.length)
    (hfresh : button.dev ∉ l) (hnone : s.firstButton button.dev = none)
    (hregisters : ∀ inputDev, s.devices[button.dev]? = some ⟨.evdev, inputDev⟩ ↔ o.registers = some inputDev) :
    Proper (past ++ [o]) (s.register button) (button.dev :: l) := by
  have hnext : (s.register button).nextButton =
      update s.nextButton s.buttons.length (s.firstButton button.dev) := by
    simp [Lists.register, Lists.createButton, Lists.addDevice, Lists.addButton]
  refine ⟨h.bounded.register hd, ⟨rfl, ?_⟩, ?_, ?_, ?_, ?_⟩
  · have hhead : (s.register button).next button.dev = s.firstDevice := update_self _ _ _
    rw [hhead]
    exact h.linked.update hfresh s.firstDevice
  · intro d
    show _ ↔ ∃ b ∈ s.buttons ++ [button], b.dev = d
    rw [List.mem_cons, h.members]
    simp only [List.mem_append, List.mem_singleton, or_and_right, exists_or, exists_eq_left]
    rw [or_comm, eq_comm]
  · intro d hd
    rw [buttonsOf_register, hnext]
    split_ifs with hdev
    · -- it has had no button before
      subst hdev
      have hnil : s.buttonsOf button.dev = [] := by
        rw [List.eq_nil_iff_forall_not_mem]
        intro b hb
        obtain ⟨other, hother, hsame⟩ := mem_buttonsOf.mp hb
        exact hfresh ((h.members _).mpr ⟨other, List.mem_of_getElem? hother, hsame⟩)
      rw [hnil, hnone]
      exact ⟨update_self _ _ _, update_self _ _ _⟩
    · have hmem : d ∈ l := (List.mem_cons.mp hd).resolve_left fun heq => hdev heq.symm
      have hsame : (s.register button).firstButton d = s.firstButton d :=
        update_of_ne (fun heq => hdev heq.symm) _ s.firstButton
      rw [hsame]
      -- the new button is linked behind none of the other device's
      refine (h.buttons d hmem).update ?_ _
      intro hlast
      obtain ⟨other, hother, -⟩ := mem_buttonsOf.mp hlast
      rw [List.getElem?_eq_none (le_refl _)] at hother
      contradiction
  · intro inputDev
    show (∃ d ∈ button.dev :: l, s.devices[d]? = _) ↔ _
    simp only [List.mem_cons, List.mem_append, or_and_right, exists_or, exists_eq_left, List.not_mem_nil,
      or_false]
    rw [hregisters, ← h.registered, or_comm]
  · rw [List.length_cons, List.length_append]
    exact Nat.succ_le_succ h.length_le

/-- The path is that of an event device which has been registered before. -/
def SecondKey (past : List Opt) (o : Opt) : Prop :=
  ∃ inputDev, o.addsButton = some inputDev ∧ ∃ a ∈ past, a.registers = some inputDev

theorem Proper.effect (h : Proper past s l) (heffect : Effect fuel s o s') (honce : ¬ SecondKey past o) :
    ∃ l', Proper (past ++ [o]) s' l' := by
  have hlt := h.bounded.mem h.linked
  cases heffect with
  | kept hregisters => exact ⟨l, h.skip hregisters⟩
  | created type inputDev hregisters => exact ⟨l, (h.createDevice type inputDev).skip hregisters⟩
  | registered type inputDev button hdev hfind hregisters =>
      refine ⟨_, (h.createDevice type inputDev).register ?_ ?_ ?_ ?_⟩
      · rw [hdev]
        simp [Lists.createDevice]
      · rw [hdev]
        exact fun hmem => lt_irrefl _ (hlt _ hmem)
      · rw [hdev]
        exact update_self _ _ _
      · intro path
        rw [hdev, hregisters]
        show (s.devices ++ [_])[s.devices.length]? = _ ↔ _
        rw [List.getElem?_concat_length]
        cases type <;> simp
  | again inputDev button hfind hadds =>
      refine absurd ⟨inputDev, hadds, (h.registered inputDev).mp ⟨button.dev, ?_, ?_⟩⟩ honce
      · exact List.mem_of_find?_eq_some (Lists.findDevice_some h.linked hfind).symm
      · exact Lists.findDevice_found hfind

theorem Proper.endless (h : Proper past s l) (heffect : Effect fuel s o s') (htwice : SecondKey past o) :
    s'.Endless := by
  obtain ⟨path, hpath, hpast⟩ := htwice
  obtain ⟨d, hd, hdevice⟩ := (h.registered path).mpr hpast
  -- the search finds the device
  have hfound : s.findDevice .evdev path fuel s.firstDevice ≠ some none := by
    intro hnone
    have hsome := Lists.findDevice_some h.linked hnone
    rw [eq_comm, List.find?_eq_none] at hsome
    exact hsome d hd (decide_eq_true hdevice)
  cases heffect with
  | kept hregisters hfirst => exact absurd (hfirst path hpath) hfound
  | created type inputDev hregisters hadds =>
      rw [hadds] at hpath
      contradiction
  | registered type inputDev button hdev hfind hregisters hadds =>
      rw [hadds, hregisters] at hpath
      split at hpath
      · next hevdev =>
          obtain rfl := Option.some.inj hpath
          rw [hevdev] at hfind
          exact absurd hfind hfound
      · contradiction
  | again inputDev button hfind hadds =>
      refine Lists.endless_register h.bounded h.linked ?_
      exact List.mem_of_find?_eq_some (Lists.findDevice_some h.linked hfind).symm

/-! ### The options one after the other -/

theorem oneKeyEach_snoc : OneKeyEach (past ++ [o]) ↔ OneKeyEach past ∧ ¬ SecondKey past o := by
  unfold OneKeyEach SecondKey
  rw [List.pairwise_append]
  simp only [List.pairwise_singleton, List.mem_singleton, forall_eq, true_and]
  refine and_congr_right fun _ => ?_
  constructor
  · rintro h ⟨inputDev, hadds, a, ha, hregisters⟩
    exact h a ha inputDev hregisters hadds
  · intro h a ha inputDev hregisters hadds
    exact h ⟨inputDev, hadds, a, ha, hregisters⟩

theorem Proper.parseArg (h : Proper past s l) (hs : s₀.lists = s) (hfuel : past.length ≤ fuel)
    (o : Opt) : ∃ s', Args.parseArg fuel s₀ o = some s' := by
  have hfind : ∀ type inputDev, ∃ device, s.findDevice type inputDev fuel s.firstDevice = some device :=
    fun _ _ => ⟨_, Lists.findDevice_eq h.linked (h.length_le.trans hfuel)⟩
  subst hs
  cases o with
  | debug => exact ⟨_, rfl⟩
  | foreground => exact ⟨_, rfl⟩
  | other => exact ⟨_, rfl⟩
  | gpio optarg opened gotButton =>
      obtain ⟨device, hdevice⟩ := hfind .gpio optarg
      exact ⟨_, by rw [Args.parseArg, hdevice, Option.map_some]⟩
  | evdev optarg opened gotButton =>
      cases hsplit : splitLastColon optarg with
      | none => exact ⟨_, by rw [Args.parseArg, hsplit]⟩
      | some parts =>
          obtain ⟨device, hdevice⟩ := hfind .evdev parts.1
          simp only [Args.parseArg, hsplit, hdevice, Option.map_some]
          exact ⟨_, rfl⟩

theorem proper_of_options (fuel : ℕ) (past rest : List Opt) (h : Proper past s₀.lists l)
    (hfuel : past.length + rest.length ≤ fuel) (honce : OneKeyEach (past ++ rest)) :
    ∃ s' l', rest.foldlM (Args.parseArg fuel) s₀ = some s' ∧ Proper (past ++ rest) s'.lists l' := by
  induction rest generalizing past s₀ l with
  | nil => exact ⟨s₀, l, rfl, by rwa [List.append_nil]⟩
  | cons o rest ih =>
      have hsplit : past ++ o :: rest = (past ++ [o]) ++ rest := by simp
      rw [List.length_cons] at hfuel
      rw [hsplit] at honce ⊢
      obtain ⟨s₁, hstep⟩ := h.parseArg rfl (show past.length ≤ fuel by omega) o
      have hnext : ¬ SecondKey past o := (oneKeyEach_snoc.mp (List.pairwise_append.mp honce).1).2
      obtain ⟨l₁, hproper⟩ := h.effect (parseArg_effect hstep) hnext
      have hroom : (past ++ [o]).length + rest.length ≤ fuel := by
        rw [List.length_append, List.length_singleton]
        omega
      obtain ⟨s', l', hrun, hend⟩ := ih (past ++ [o]) hproper hroom honce
      refine ⟨s', l', ?_, hend⟩
      rw [List.foldlM_cons, hstep]
      exact hrun

theorem endless_of_options (past rest : List Opt) {s' : Args}
    (h : (∃ l, Proper past s₀.lists l ∧ OneKeyEach past) ∨ s₀.lists.Endless)
    (hrun : rest.foldlM (Args.parseArg fuel) s₀ = some s') (htwice : ¬ OneKeyEach (past ++ rest)) :
    s'.lists.Endless := by
  induction rest generalizing past s₀ with
  | nil =>
      obtain rfl := Option.some.inj hrun
      rcases h with ⟨l, -, honce⟩ | hendless
      · rw [List.append_nil] at htwice
        exact absurd honce htwice
      · exact hendless
  | cons o rest ih =>
      have hsplit : past ++ o :: rest = (past ++ [o]) ++ rest := by simp
      rw [hsplit] at htwice
      rw [List.foldlM_cons] at hrun
      obtain ⟨s₁, hstep, hrest⟩ := Option.bind_eq_some_iff.mp hrun
      have heffect := parseArg_effect hstep
      refine ih (past ++ [o]) ?_ hrest htwice
      rcases h with ⟨l, hproper, honce⟩ | hendless
      · by_cases hsecond : SecondKey past o
        · exact .inr (hproper.endless heffect hsecond)
        · obtain ⟨l₁, hproper₁⟩ := hproper.effect heffect hsecond
          exact .inl ⟨l₁, hproper₁, oneKeyEach_snoc.mpr ⟨honce, hsecond⟩⟩
      · exact .inr (hendless.effect heffect)

/-- `parse_args` comes to an end with proper lists if no event device gets a second button, and only
then. -/
theorem parseArgs_iff (options : List Opt) :
    (∃ fuel s l, Args.parseArgs fuel options = some s ∧ s.lists.Links l) ↔ OneKeyEach options := by
  constructor
  · rintro ⟨fuel, s, l, hrun, hlinks⟩
    by_contra htwice
    have hendless := endless_of_options [] options
      (.inl ⟨[], proper_empty, List.Pairwise.nil⟩) hrun htwice
    exact hendless.noEnd l hlinks.linked
  · intro honce
    have hempty : Proper [] Args.init.lists [] := proper_empty
    obtain ⟨s, l, hrun, hproper⟩ := proper_of_options options.length [] options hempty (by simp) honce
    exact ⟨options.length, s, l, hrun, hproper.links⟩

/-- Two keys of one device. -/
theorem parseArgs_twoKeys :
    ¬ ∃ fuel s l, Args.parseArgs fuel [.evdev ['k', ':', '1'] true true, .evdev ['k', ':', '2'] true true] =
      some s ∧ s.lists.Links l := by
  rintro ⟨fuel, s, l, hrun, hlinks⟩
  have htwice : ¬ OneKeyEach [.evdev ['k', ':', '1'] true true, .evdev ['k', ':', '2'] true true] := by
    intro honce
    have hfirst := (List.pairwise_cons.mp honce).1 _ List.mem_cons_self ['k']
    exact hfirst (by decide) (by decide)
  exact (endless_of_options [] _ (.inl ⟨[], proper_empty, List.Pairwise.nil⟩) hrun htwice).noEnd l
    hlinks.linked

end Hwsuppd
end Mkfli4l
