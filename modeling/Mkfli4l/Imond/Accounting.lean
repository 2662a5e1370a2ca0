import Mathlib.Algebra.Order.Field.Rat
import Mathlib.Logic.Relation
import Mathlib.Tactic
import Mkfli4l.Lib.CNumber

/-!
# Online times and charges

`imond` adds up how long a connection has been online and what it costs.  While the connection is up,
the commands `time`, `chargetime` and `charge` compute the part of the current connection; when it is
hung up, this part is booked by other code, `set_status` for PPPoE and `read_info` for ISDN.

The two agree on the times.  They do not agree on the charge: the command rounds the duration to
charge intervals, and the booking does not.  The booking counts in `time_t`, which is taken to hold every
time, and the commands count in `int`s: what they answer is right as long as no account exceeds an `int`.
-/

namespace Mkfli4l
namespace Imond

open Lib

/-- What the configuration says about the costs of a circuit. -/
structure ConfData where
  chargeInt : ℤ
  chargePerMinute : ℚ

/-- The accounts of a PPPoE connection or an ISDN channel.  The start is 0 if it is offline. -/
structure Infos where
  onlineStart : ℤ
  onlineTime : ℤ
  chargeTime : ℤ
  charge : ℚ
  isOutgoingDirection : Bool

/-- The accounts when `imond` starts. -/
def Infos.init : Infos := ⟨0, 0, 0, 0, false⟩

/-- The two kinds of connections. -/
inductive Kind
  | pppoe
  | isdn
deriving DecidableEq

/-- Only outgoing ISDN connections cost something. -/
def Infos.charged (kind : Kind) (infos : Infos) : Bool :=
  match kind with
  | .pppoe => true
  | .isdn => infos.isOutgoingDirection

/-- A duration in full charge intervals.  An interval that has begun counts. -/
def roundedTime (conf : ConfData) (diff : ℤ) : ℤ :=
  if 1 < conf.chargeInt then diff.tdiv conf.chargeInt * conf.chargeInt + conf.chargeInt else diff

/-! ## Going online and hanging up -/

/-- `set_status` with `up`. -/
def setStatusUp (now : ℤ) (infos : Infos) : Infos :=
  if infos.onlineStart = 0 then { infos with onlineStart := now } else infos

/-- `read_info` for a channel that is online. -/
def readInfoOnline (outgoing : Bool) (now : ℤ) (infos : Infos) : Infos :=
  if infos.onlineStart = 0 then
    { infos with onlineStart := now, isOutgoingDirection := outgoing }
  else
    infos

/-- The booking of a connection that has ended. -/
def book (conf : ConfData) (charged : Bool) (now : ℤ) (infos : Infos) : Infos :=
  let diff := now - infos.onlineStart
  let charge : ℚ := if charged then diff * conf.chargePerMinute / 60 else 0
  let chargeDiff := if charged then roundedTime conf diff else 0
  { infos with
    chargeTime := infos.chargeTime + chargeDiff
    charge := infos.charge + charge
    onlineTime := infos.onlineTime + diff
    onlineStart := 0 }

/-- `set_status` with `down` or `restart`. -/
def setStatusDown (conf : ConfData) (now : ℤ) (infos : Infos) : Infos :=
  if infos.onlineStart ≠ 0 then book conf true now infos else infos

/-- `read_info` for a channel that is not online any more. -/
def readInfoHungUp (conf : ConfData) (now : ℤ) (infos : Infos) : Infos :=
  if infos.onlineStart ≠ 0 then book conf infos.isOutgoingDirection now infos else infos

/-- A connection comes up. -/
def goOnline (kind : Kind) (outgoing : Bool) (now : ℤ) (infos : Infos) : Infos :=
  match kind with
  | .pppoe => setStatusUp now infos
  | .isdn => readInfoOnline outgoing now infos

/-- A connection is hung up. -/
def hangUp (kind : Kind) (conf : ConfData) (now : ℤ) (infos : Infos) : Infos :=
  match kind with
  | .pppoe => setStatusDown conf now infos
  | .isdn => readInfoHungUp conf now infos

/-! ## The commands -/

/-- The result of a calculation with `int`s; `none` means that it overflows. -/
def inInt (n : ℤ) : Option ℤ := if -2147483648 ≤ n ∧ n ≤ 2147483647 then some n else none

/-- The duration `diff` of the commands, an `int`, in full charge intervals. -/
def roundedDiff (conf : ConfData) (diff : ℤ) : Option ℤ :=
  if 1 < conf.chargeInt then inInt (diff.tdiv conf.chargeInt * conf.chargeInt + conf.chargeInt)
  else some diff

/-- The answer to `time`, in seconds.  The sum is one of `time_t` and becomes an `int` afterwards. -/
def timeAnswer (now : ℤ) (infos : Infos) : ℤ :=
  if 0 < infos.onlineStart then toInt32 (toInt32 infos.onlineTime + (now - infos.onlineStart))
  else toInt32 infos.onlineTime

/-- The answer to `chargetime`, in seconds. -/
def chargeTimeAnswer (kind : Kind) (conf : ConfData) (now : ℤ) (infos : Infos) : Option ℤ :=
  if infos.charged kind ∧ 0 < infos.onlineStart then
    (roundedDiff conf (toInt32 (now - infos.onlineStart))).bind fun diff =>
      inInt (toInt32 infos.chargeTime + diff)
  else
    some (toInt32 infos.chargeTime)

/-- The answer to `charge`. -/
def chargeAnswer (kind : Kind) (conf : ConfData) (now : ℤ) (infos : Infos) : Option ℚ :=
  if infos.charged kind ∧ 0 < infos.onlineStart then
    (roundedDiff conf (toInt32 (now - infos.onlineStart))).map fun diff : ℤ =>
      infos.charge + (diff : ℚ) * conf.chargePerMinute / 60
  else
    some infos.charge

/-! ## Runs -/

/-- The accounts at a time. -/
structure Moment where
  now : ℤ
  infos : Infos

/-- Time passes, a connection comes up or is hung up. -/
inductive Step (kind : Kind) (conf : ConfData) : Moment → Moment → Prop
  | tick {m : Moment} {now : ℤ} (h : m.now ≤ now) : Step kind conf m { m with now := now }
  | up {m : Moment} (outgoing : Bool) :
      Step kind conf m { m with infos := goOnline kind outgoing m.now m.infos }
  | hangUp {m : Moment} : Step kind conf m { m with infos := hangUp kind conf m.now m.infos }

/-- A run of the daemon through moments with a property. -/
abbrev Run (P : Moment → Prop) (kind : Kind) (conf : ConfData) : Moment → Moment → Prop :=
  Relation.ReflTransGen fun m m' => Step kind conf m m' ∧ P m'

/-- There is an answer, and it is not less than the one before. -/
def AnswerLe {α : Type} [LE α] (before after : Option α) : Prop :=
  ∃ a b, before = some a ∧ after = some b ∧ a ≤ b

/-- No answer is less than the same answer before. -/
structure AnswersLe (kind : Kind) (conf : ConfData) (m m' : Moment) : Prop where
  time_le : timeAnswer m.now m.infos ≤ timeAnswer m'.now m'.infos
  chargeTime_le : AnswerLe (chargeTimeAnswer kind conf m.now m.infos)
    (chargeTimeAnswer kind conf m'.now m'.infos)
  charge_le : AnswerLe (chargeAnswer kind conf m.now m.infos) (chargeAnswer kind conf m'.now m'.infos)

/-- Hanging up does not change an answer. -/
structure AnswersKept (kind : Kind) (conf : ConfData) (m : Moment) : Prop where
  time_eq : timeAnswer m.now (hangUp kind conf m.now m.infos) = timeAnswer m.now m.infos
  chargeTime_eq : chargeTimeAnswer kind conf m.now (hangUp kind conf m.now m.infos) =
    chargeTimeAnswer kind conf m.now m.infos
  charge_eq : chargeAnswer kind conf m.now (hangUp kind conf m.now m.infos) =
    chargeAnswer kind conf m.now m.infos

/-- The accounting is continuous in the runs through moments with a property: from one moment of a run to
a later one, no answer gets less, and hanging up changes no answer. -/
def Continuous (P : Moment → Prop) (kind : Kind) (conf : ConfData) : Prop :=
  ∀ start m, 0 ≤ start → Run P kind conf ⟨start, Infos.init⟩ m →
    (∀ m', Run P kind conf m m' → AnswersLe kind conf m m') ∧ AnswersKept kind conf m

/-! ## Without a limit -/

/-- The seconds online, booked or not. -/
def secondsOnline (m : Moment) : ℤ :=
  if 0 < m.infos.onlineStart then m.infos.onlineTime + (m.now - m.infos.onlineStart)
  else m.infos.onlineTime

/-- The seconds charged, booked or not. -/
def secondsCharged (kind : Kind) (conf : ConfData) (m : Moment) : ℤ :=
  if m.infos.charged kind ∧ 0 < m.infos.onlineStart then
    m.infos.chargeTime + roundedTime conf (m.now - m.infos.onlineStart)
  else
    m.infos.chargeTime

/-- The charge, booked or not. -/
def chargeSoFar (kind : Kind) (conf : ConfData) (m : Moment) : ℚ :=
  if m.infos.charged kind ∧ 0 < m.infos.onlineStart then
    m.infos.charge + roundedTime conf (m.now - m.infos.onlineStart) * conf.chargePerMinute / 60
  else
    m.infos.charge

/-- The seconds online and the seconds charged are `int`s. -/
structure Moment.Fits (kind : Kind) (conf : ConfData) (m : Moment) : Prop where
  online : secondsOnline m ≤ 2147483647
  charged : secondsCharged kind conf m ≤ 2147483647

/-- No account is less than before. -/
structure AccountsLe (kind : Kind) (conf : ConfData) (m m' : Moment) : Prop where
  online_le : secondsOnline m ≤ secondsOnline m'
  charged_le : secondsCharged kind conf m ≤ secondsCharged kind conf m'
  charge_le : chargeSoFar kind conf m ≤ chargeSoFar kind conf m'

section Proofs

variable {P : Moment → Prop} {kind : Kind} {conf : ConfData} {m m' m'' : Moment}

theorem roundedTime_mono {d d' : ℤ} (h : d ≤ d') : roundedTime conf d ≤ roundedTime conf d' := by
  unfold roundedTime
  split
  · next hint =>
      have hdiv : d.tdiv conf.chargeInt ≤ d'.tdiv conf.chargeInt :=
        Int.tdiv_le_tdiv (by omega) h
      have hmul : d.tdiv conf.chargeInt * conf.chargeInt ≤ d'.tdiv conf.chargeInt * conf.chargeInt :=
        Int.mul_le_mul_of_nonneg_right hdiv (by omega)
      omega
  · exact h

theorem roundedTime_nonneg {d : ℤ} (h : 0 ≤ d) : 0 ≤ roundedTime conf d := by
  have hzero : 0 ≤ roundedTime conf 0 := by
    unfold roundedTime
    split
    · rw [Int.zero_tdiv, Int.zero_mul]
      omega
    · exact Int.le_refl 0
  exact hzero.trans (roundedTime_mono h)

theorem goOnline_eq (kind : Kind) (outgoing : Bool) (now : ℤ) (infos : Infos) :
    ∃ direction, goOnline kind outgoing now infos =
      if infos.onlineStart = 0 then
        { infos with onlineStart := now, isOutgoingDirection := direction }
      else
        infos := by
  cases kind with
  | pppoe => exact ⟨infos.isOutgoingDirection, rfl⟩
  | isdn => exact ⟨outgoing, rfl⟩

theorem hangUp_eq (kind : Kind) (conf : ConfData) (now : ℤ) (infos : Infos) :
    hangUp kind conf now infos =
      if infos.onlineStart ≠ 0 then book conf (infos.charged kind) now infos else infos := by
  cases kind with
  | pppoe => rfl
  | isdn => rfl

theorem hangUp_onlineStart (kind : Kind) (conf : ConfData) (now : ℤ) (infos : Infos) :
    (hangUp kind conf now infos).onlineStart = 0 := by
  rw [hangUp_eq]
  split
  · rfl
  · next h => exact not_not.mp h

theorem charged_book (charged : Bool) (now : ℤ) (infos : Infos) :
    (book conf charged now infos).charged kind = infos.charged kind := by
  cases kind with
  | pppoe => rfl
  | isdn => rfl

/-- A connection that is online has come up at some time before, and the accounts are not negative. -/
structure Moment.Good (m : Moment) : Prop where
  start_nonneg : 0 ≤ m.infos.onlineStart
  start_le : m.infos.onlineStart ≤ m.now
  onlineTime : 0 ≤ m.infos.onlineTime
  chargeTime : 0 ≤ m.infos.chargeTime

theorem good_init {start : ℤ} (h : 0 ≤ start) : (⟨start, Infos.init⟩ : Moment).Good :=
  ⟨Int.le_refl 0, h, Int.le_refl 0, Int.le_refl 0⟩

theorem Step.good (h : Step kind conf m m') (hm : m.Good) : m'.Good := by
  obtain ⟨hstart, hnow, htime, hcharge⟩ := hm
  cases h with
  | tick hle => exact ⟨hstart, hnow.trans hle, htime, hcharge⟩
  | up outgoing =>
      obtain ⟨direction, hup⟩ := goOnline_eq kind outgoing m.now m.infos
      rw [hup]
      split
      · exact ⟨hstart.trans hnow, Int.le_refl _, htime, hcharge⟩
      · exact ⟨hstart, hnow, htime, hcharge⟩
  | hangUp =>
      have hbooked := hangUp_eq kind conf m.now m.infos
      refine ⟨?_, ?_, ?_, ?_⟩
      · exact (hangUp_onlineStart kind conf m.now m.infos).ge
      · exact (hangUp_onlineStart kind conf m.now m.infos).le.trans (hstart.trans hnow)
      · dsimp only
        rw [hbooked]
        split
        · exact Int.add_nonneg htime (Int.sub_nonneg_of_le hnow)
        · exact htime
      · dsimp only
        rw [hbooked]
        split
        · refine Int.add_nonneg hcharge ?_
          split
          · exact roundedTime_nonneg (Int.sub_nonneg_of_le hnow)
          · exact Int.le_refl 0
        · exact hcharge

theorem Run.good (h : Run P kind conf m m') (hm : m.Good) : m'.Good := by
  induction h with
  | refl => exact hm
  | tail _ hstep ih => exact hstep.1.good ih

/-! ### The answers as long as they fit -/

theorem timeAnswer_eq (hm : m.Good) (hfits : m.Fits kind conf) :
    timeAnswer m.now m.infos = secondsOnline m := by
  have hle := hfits.online
  have htime := hm.onlineTime
  have hnow := hm.start_le
  unfold secondsOnline at hle
  unfold timeAnswer secondsOnline
  split
  · next hstart =>
      rw [if_pos hstart] at hle
      rw [toInt32_add, toInt32_of_range (by omega) (by omega)]
  · next hstart =>
      rw [if_neg hstart] at hle
      exact toInt32_of_range (by omega) (by omega)

theorem roundedDiff_eq {now start : ℤ} (hstart : start ≤ now) (hlt : now - start ≤ 2147483647)
    (hle : roundedTime conf (now - start) ≤ 2147483647) :
    roundedDiff conf (toInt32 (now - start)) = some (roundedTime conf (now - start)) := by
  have hnonneg : 0 ≤ roundedTime conf (now - start) := roundedTime_nonneg (by omega)
  rw [toInt32_of_range (by omega) (by omega)]
  unfold roundedDiff inInt
  unfold roundedTime at hle hnonneg ⊢
  split
  · next hint =>
      rw [if_pos hint] at hle hnonneg
      exact if_pos ⟨by omega, hle⟩
  · rfl

theorem Moment.Fits.roundedDiff (hm : m.Good) (hfits : m.Fits kind conf)
    (hcharged : m.infos.charged kind = true ∧ 0 < m.infos.onlineStart) :
    roundedDiff conf (toInt32 (m.now - m.infos.onlineStart)) =
        some (roundedTime conf (m.now - m.infos.onlineStart)) ∧
      m.infos.chargeTime + roundedTime conf (m.now - m.infos.onlineStart) ≤ 2147483647 := by
  have honline := hfits.online
  have hsum := hfits.charged
  have htime := hm.onlineTime
  have hcharge := hm.chargeTime
  unfold secondsOnline at honline
  unfold secondsCharged at hsum
  rw [if_pos hcharged.2] at honline
  rw [if_pos hcharged] at hsum
  exact ⟨roundedDiff_eq hm.start_le (by omega) (by omega), hsum⟩

theorem chargeTimeAnswer_eq (hm : m.Good) (hfits : m.Fits kind conf) :
    chargeTimeAnswer kind conf m.now m.infos = some (secondsCharged kind conf m) := by
  have hcharge := hm.chargeTime
  unfold chargeTimeAnswer
  split
  · next hcharged =>
      obtain ⟨hdiff, hsum⟩ := hfits.roundedDiff hm hcharged
      have hnonneg : 0 ≤ roundedTime conf (m.now - m.infos.onlineStart) :=
        roundedTime_nonneg (Int.sub_nonneg_of_le hm.start_le)
      rw [hdiff, Option.bind_some, toInt32_of_range (by omega) (by omega), secondsCharged, if_pos hcharged]
      exact if_pos ⟨by omega, hsum⟩
  · next hcharged =>
      have hsum := hfits.charged
      unfold secondsCharged at hsum ⊢
      rw [if_neg hcharged] at hsum ⊢
      rw [toInt32_of_range (by omega) (by omega)]

theorem chargeAnswer_eq (hm : m.Good) (hfits : m.Fits kind conf) :
    chargeAnswer kind conf m.now m.infos = some (chargeSoFar kind conf m) := by
  unfold chargeAnswer chargeSoFar
  split
  · next hcharged => rw [(hfits.roundedDiff hm hcharged).1, Option.map_some]
  · rfl

theorem AccountsLe.answersLe (h : AccountsLe kind conf m m') (hm : m.Good) (hm' : m'.Good)
    (hfits : m.Fits kind conf) (hfits' : m'.Fits kind conf) : AnswersLe kind conf m m' := by
  refine ⟨?_, ⟨_, _, chargeTimeAnswer_eq hm hfits, chargeTimeAnswer_eq hm' hfits', h.charged_le⟩,
    ⟨_, _, chargeAnswer_eq hm hfits, chargeAnswer_eq hm' hfits', h.charge_le⟩⟩
  rw [timeAnswer_eq hm hfits, timeAnswer_eq hm' hfits']
  exact h.online_le

/-! ### One step -/

/-- The rounding does not change a charge. -/
def Harmless (conf : ConfData) : Prop :=
  0 ≤ conf.chargePerMinute ∧ (conf.chargeInt ≤ 1 ∨ conf.chargePerMinute = 0)

theorem Harmless.charge_eq (h : Harmless conf) (diff : ℤ) :
    (roundedTime conf diff : ℚ) * conf.chargePerMinute = diff * conf.chargePerMinute := by
  rcases h.2 with hint | hfree
  · rw [roundedTime, if_neg (by omega)]
  · rw [hfree, mul_zero, mul_zero]

theorem hangUp_accounts (kind : Kind) (conf : ConfData) (hm : m.Good) :
    secondsOnline { m with infos := hangUp kind conf m.now m.infos } = secondsOnline m ∧
      secondsCharged kind conf { m with infos := hangUp kind conf m.now m.infos } =
        secondsCharged kind conf m ∧
      (Harmless conf → chargeSoFar kind conf { m with infos := hangUp kind conf m.now m.infos } =
        chargeSoFar kind conf m) := by
  by_cases hstart : m.infos.onlineStart = 0
  · have hsame : hangUp kind conf m.now m.infos = m.infos := by
      rw [hangUp_eq, if_neg (not_not.mpr hstart)]
    rw [hsame]
    exact ⟨rfl, rfl, fun _ => rfl⟩
  · have hpos : 0 < m.infos.onlineStart := lt_of_le_of_ne hm.start_nonneg (Ne.symm hstart)
    have hbook : hangUp kind conf m.now m.infos = book conf (m.infos.charged kind) m.now m.infos := by
      rw [hangUp_eq, if_pos hstart]
    rw [hbook]
    refine ⟨?_, ?_, fun h => ?_⟩
    · simp only [secondsOnline, book, hpos, lt_irrefl, if_true, if_false]
    · simp only [secondsCharged, charged_book]
      cases hcharged : m.infos.charged kind with
      | true => simp [book, hpos]
      | false => simp [book]
    · simp only [chargeSoFar, charged_book]
      cases hcharged : m.infos.charged kind with
      | true => simp [book, hpos, h.charge_eq]
      | false => simp [book]

theorem hangUp_fits (hm : m.Good) (hfits : m.Fits kind conf) :
    ({ m with infos := hangUp kind conf m.now m.infos } : Moment).Fits kind conf := by
  obtain ⟨honline, hcharged, -⟩ := hangUp_accounts kind conf hm
  exact ⟨honline.trans_le hfits.online, hcharged.trans_le hfits.charged⟩

theorem hangUp_kept (hm : m.Good) (hfits : m.Fits kind conf) (h : Harmless conf) :
    AnswersKept kind conf m := by
  have hgood := (Step.hangUp : Step kind conf m _).good hm
  have hfits' := hangUp_fits hm hfits
  obtain ⟨honline, hcharged, hcharge⟩ := hangUp_accounts kind conf hm
  constructor
  · rw [timeAnswer_eq hm hfits, ← honline]
    exact timeAnswer_eq hgood hfits'
  · rw [chargeTimeAnswer_eq hm hfits, ← hcharged]
    exact chargeTimeAnswer_eq hgood hfits'
  · rw [chargeAnswer_eq hm hfits, ← hcharge h]
    exact chargeAnswer_eq hgood hfits'

theorem AccountsLe.refl (m : Moment) : AccountsLe kind conf m m :=
  ⟨le_refl _, le_refl _, le_refl _⟩

theorem AccountsLe.trans (h : AccountsLe kind conf m m') (h' : AccountsLe kind conf m' m'') :
    AccountsLe kind conf m m'' :=
  ⟨h.1.trans h'.1, h.2.trans h'.2, h.3.trans h'.3⟩

theorem accountsLe_tick (hrate : 0 ≤ conf.chargePerMinute) {now : ℤ} (hnow : m.now ≤ now) :
    AccountsLe kind conf m { m with now := now } := by
  have hdiff : m.now - m.infos.onlineStart ≤ now - m.infos.onlineStart := by omega
  have hrounded : roundedTime conf _ ≤ roundedTime conf _ := roundedTime_mono hdiff
  constructor
  · simp only [secondsOnline]
    split
    · omega
    · exact le_refl _
  · simp only [secondsCharged]
    split
    · omega
    · exact le_refl _
  · simp only [chargeSoFar]
    split
    · have hcast : (roundedTime conf (m.now - m.infos.onlineStart) : ℚ) ≤
          roundedTime conf (now - m.infos.onlineStart) := Int.cast_le.mpr hrounded
      gcongr
    · exact le_refl _

theorem accountsLe_up (hrate : 0 ≤ conf.chargePerMinute) (outgoing : Bool) :
    AccountsLe kind conf m { m with infos := goOnline kind outgoing m.now m.infos } := by
  obtain ⟨direction, hup⟩ := goOnline_eq kind outgoing m.now m.infos
  by_cases hstart : m.infos.onlineStart = 0
  · rw [if_pos hstart] at hup
    have hzero : 0 ≤ roundedTime conf 0 := roundedTime_nonneg (Int.le_refl 0)
    rw [hup]
    constructor
    · simp only [secondsOnline, hstart, lt_irrefl, if_false, sub_self, add_zero]
      split <;> exact le_refl _
    · simp only [secondsCharged, hstart, lt_irrefl, and_false, if_false, sub_self]
      split
      · omega
      · exact le_refl _
    · simp only [chargeSoFar, hstart, lt_irrefl, and_false, if_false, sub_self]
      split
      · have hcast : (0 : ℚ) ≤ roundedTime conf 0 := Int.cast_nonneg hzero
        have hpart : 0 ≤ (roundedTime conf 0 : ℚ) * conf.chargePerMinute / 60 := by positivity
        exact le_add_of_nonneg_right hpart
      · exact le_refl _
  · rw [if_neg hstart] at hup
    rw [hup]
    exact AccountsLe.refl m

theorem Step.accountsLe (hstep : Step kind conf m m') (hm : m.Good) (h : Harmless conf) :
    AccountsLe kind conf m m' := by
  cases hstep with
  | tick hnow => exact accountsLe_tick h.1 hnow
  | up outgoing => exact accountsLe_up h.1 outgoing
  | hangUp =>
      obtain ⟨honline, hcharged, hcharge⟩ := hangUp_accounts kind conf hm
      exact ⟨honline.ge, hcharged.ge, (hcharge h).ge⟩

theorem Run.accountsLe (hrun : Run P kind conf m m') (hm : m.Good) (h : Harmless conf) :
    AccountsLe kind conf m m' := by
  induction hrun with
  | refl => exact AccountsLe.refl m
  | tail hbefore hstep ih => exact ih.trans (hstep.1.accountsLe (Run.good hbefore hm) h)

theorem Run.holds (hrun : Run P kind conf m m') (h : P m) : P m' := by
  cases hrun with
  | refl => exact h
  | tail _ hstep => exact hstep.2

theorem fits_init (kind : Kind) (conf : ConfData) (start : ℤ) :
    (⟨start, Infos.init⟩ : Moment).Fits kind conf := by
  have hnone : ¬ (Infos.init.charged kind = true ∧ 0 < Infos.init.onlineStart) := fun h => lt_irrefl 0 h.2
  constructor
  · exact (if_neg (lt_irrefl (0 : ℤ))).trans_le (by decide : (0 : ℤ) ≤ 2147483647)
  · unfold secondsCharged
    rw [if_neg hnone]
    exact (by decide : (0 : ℤ) ≤ 2147483647)

/-! ### The condition is necessary -/

/-- A connection that has come up in the first second and is still up. -/
def onlineMoment (kind : Kind) (now : ℤ) : Moment := ⟨now, goOnline kind true 1 Infos.init⟩

theorem onlineMoment_infos (kind : Kind) (now : ℤ) :
    (onlineMoment kind now).infos.onlineStart = 1 ∧ (onlineMoment kind now).infos.onlineTime = 0 ∧
      (onlineMoment kind now).infos.chargeTime = 0 ∧ (onlineMoment kind now).infos.charge = 0 ∧
      (onlineMoment kind now).infos.charged kind = true := by
  cases kind with
  | pppoe => exact ⟨rfl, rfl, rfl, rfl, rfl⟩
  | isdn => exact ⟨rfl, rfl, rfl, rfl, rfl⟩

theorem onlineMoment_fits (kind : Kind) {now : ℤ} (hlt : now ≤ 2147483648)
    (hint : roundedTime conf (now - 1) ≤ 2147483647) : (onlineMoment kind now).Fits kind conf := by
  obtain ⟨hstart, htime, hcharge, -, hcharged⟩ := onlineMoment_infos kind now
  have hnow : (onlineMoment kind now).now = now := rfl
  constructor
  · unfold secondsOnline
    rw [hstart, htime, hnow, if_pos Int.one_pos]
    omega
  · unfold secondsCharged
    rw [hstart, hcharge, hcharged, hnow, if_pos ⟨rfl, Int.one_pos⟩]
    omega

theorem onlineMoment_good (kind : Kind) {now : ℤ} (hnow : 1 ≤ now) : (onlineMoment kind now).Good := by
  obtain ⟨hstart, htime, hcharge, -, -⟩ := onlineMoment_infos kind now
  exact ⟨by omega, hstart.trans_le hnow, htime.ge, hcharge.ge⟩

theorem run_online (hfirst : P (onlineMoment kind 1)) :
    Run P kind conf ⟨1, Infos.init⟩ (onlineMoment kind 1) :=
  Relation.ReflTransGen.single ⟨Step.up true, hfirst⟩

theorem run_stays {now : ℤ} (hnow : 1 ≤ now) (hlast : P (onlineMoment kind now)) :
    Run P kind conf (onlineMoment kind 1) (onlineMoment kind now) :=
  Relation.ReflTransGen.single ⟨Step.tick hnow, hlast⟩

theorem chargeSoFar_onlineMoment (kind : Kind) (conf : ConfData) (now : ℤ) :
    chargeSoFar kind conf (onlineMoment kind now) =
      roundedTime conf (now - 1) * conf.chargePerMinute / 60 := by
  obtain ⟨hstart, -, -, hcharge, hcharged⟩ := onlineMoment_infos kind now
  unfold chargeSoFar
  rw [hstart, hcharge, hcharged, if_pos ⟨rfl, Int.one_pos⟩]
  exact zero_add _

theorem roundedTime_zero (hint : 1 < conf.chargeInt) : roundedTime conf 0 = conf.chargeInt := by
  rw [roundedTime, if_pos hint, Int.zero_tdiv, Int.zero_mul, Int.zero_add]

theorem Continuous.interval (h : Continuous (Moment.Fits kind conf) kind conf)
    (hmax : conf.chargeInt ≤ 2147483647) : conf.chargeInt ≤ 1 ∨ conf.chargePerMinute = 0 := by
  by_cases hint : 1 < conf.chargeInt
  · have hzero := roundedTime_zero hint
    have hfits : (onlineMoment kind 1).Fits kind conf :=
      onlineMoment_fits kind (by decide) (hzero.trans_le hmax)
    have hgood : (onlineMoment kind 1).Good := onlineMoment_good kind (Int.le_refl 1)
    have hkept := (h 1 _ Int.one_nonneg (run_online hfits)).2.charge_eq
    obtain ⟨hstart, -, -, hcharge, -⟩ := onlineMoment_infos kind 1
    have hne : (onlineMoment kind 1).infos.onlineStart ≠ 0 := hstart.trans_ne Int.one_ne_zero
    have hoff : ¬ 0 < (hangUp kind conf 1 (onlineMoment kind 1).infos).onlineStart := by
      rw [hangUp_onlineStart]
      exact lt_irrefl 0
    have hbooked : (hangUp kind conf 1 (onlineMoment kind 1).infos).charge = 0 := by
      rw [hangUp_eq, if_pos hne]
      simp [book, hstart, hcharge]
    have hafter : chargeAnswer kind conf 1 (hangUp kind conf 1 (onlineMoment kind 1).infos) = some 0 := by
      rw [chargeAnswer, if_neg fun hcharged => hoff hcharged.2, hbooked]
    rw [chargeAnswer_eq hgood hfits, chargeSoFar_onlineMoment, sub_self, hzero] at hkept
    have hmul : (0 : ℚ) = conf.chargeInt * conf.chargePerMinute / 60 :=
      Option.some.inj (hafter.symm.trans hkept)
    have hpos : (conf.chargeInt : ℚ) ≠ 0 := Int.cast_ne_zero.mpr (by omega)
    right
    exact (mul_eq_zero.mp (by linarith : (conf.chargeInt : ℚ) * conf.chargePerMinute = 0)).resolve_left hpos
  · left
    omega

theorem Continuous.rate_nonneg (h : Continuous (Moment.Fits kind conf) kind conf)
    (hmax : conf.chargeInt ≤ 2147483647) : 0 ≤ conf.chargePerMinute := by
  rcases h.interval hmax with hint | hfree
  · have hplain : ∀ d, roundedTime conf d = d := fun d => if_neg (by omega)
    have hfits : ∀ now ≤ (2 : ℤ), (onlineMoment kind now).Fits kind conf := fun now hnow =>
      onlineMoment_fits kind (by omega) ((hplain _).trans_le (by omega))
    have hle := ((h 1 _ Int.one_nonneg (run_online (hfits 1 (by decide)))).1 _
      (run_stays (by decide) (hfits 2 (by decide)))).charge_le
    obtain ⟨a, b, ha, hb, hab⟩ := hle
    rw [chargeAnswer_eq (onlineMoment_good kind (Int.le_refl 1)) (hfits 1 (by decide)),
      chargeSoFar_onlineMoment, hplain, Option.some_inj] at ha
    rw [chargeAnswer_eq (onlineMoment_good kind (by decide)) (hfits 2 (by decide)),
      chargeSoFar_onlineMoment, hplain, Option.some_inj] at hb
    norm_num at ha hb
    linarith
  · exact hfree.ge

theorem not_continuous_unlimited (kind : Kind) (conf : ConfData) :
    ¬ Continuous (fun _ => True) kind conf := by
  intro h
  have hle := ((h 1 _ Int.one_nonneg (run_online trivial)).1 (onlineMoment kind 2147483649)
    (run_stays (by decide) trivial)).time_le
  have hfirst : timeAnswer 1 (onlineMoment kind 1).infos = 0 := by
    obtain ⟨hstart, htime, -⟩ := onlineMoment_infos kind 1
    rw [timeAnswer, hstart, htime]
    decide
  have hlast : timeAnswer 2147483649 (onlineMoment kind 2147483649).infos = -2147483648 := by
    obtain ⟨hstart, htime, -⟩ := onlineMoment_infos kind 2147483649
    rw [timeAnswer, hstart, htime]
    decide
  exact absurd (hfirst.symm.trans_le (hle.trans_eq hlast)) (by decide)

end Proofs

/-- As long as the accounts are `int`s, the accounting is continuous for exactly those circuits for which
the rounding to charge intervals does not change the charge.  The interval itself is an `int`. -/
theorem accounting_continuous_iff (kind : Kind) (conf : ConfData) (hmax : conf.chargeInt ≤ 2147483647) :
    Continuous (Moment.Fits kind conf) kind conf ↔
      0 ≤ conf.chargePerMinute ∧ (conf.chargeInt ≤ 1 ∨ conf.chargePerMinute = 0) := by
  constructor
  · intro h
    exact ⟨h.rate_nonneg hmax, h.interval hmax⟩
  · intro h start m hstart hrun
    have hgood : m.Good := Run.good hrun (good_init hstart)
    have hfits : m.Fits kind conf := Run.holds hrun (fits_init kind conf start)
    refine ⟨fun m' hlater => ?_, hangUp_kept hgood hfits h⟩
    exact (Run.accountsLe hlater hgood h).answersLe hgood (Run.good hlater hgood) hfits
      (Run.holds hlater hfits)

/-- A call that costs nothing is accounted for without a break, with every charge interval. -/
theorem accounting_continuous_flat :
    Continuous (Moment.Fits .isdn ⟨60, 0⟩) .isdn ⟨60, 0⟩ :=
  (accounting_continuous_iff .isdn ⟨60, 0⟩ (by decide)).mpr ⟨le_refl _, Or.inr rfl⟩

/-- With a charge interval of a minute, a call of ten seconds is booked with less than the command
`charge` has answered. -/
theorem accounting_minutes :
    ¬ ∀ (kind : Kind) (conf : ConfData), 0 ≤ conf.chargePerMinute →
      Continuous (Moment.Fits kind conf) kind conf := by
  intro h
  have hfits : ∀ now : ℤ, 1 ≤ now → now ≤ 11 → (onlineMoment .pppoe now).Fits .pppoe ⟨60, 6⟩ := by
    intro now hfirst hlast
    refine onlineMoment_fits .pppoe (by omega) ?_
    have hle : roundedTime ⟨60, 6⟩ (now - 1) ≤ roundedTime ⟨60, 6⟩ 10 := roundedTime_mono (by omega)
    exact hle.trans (by decide)
  have hrun : Run (Moment.Fits .pppoe ⟨60, 6⟩) .pppoe ⟨60, 6⟩ ⟨1, Infos.init⟩ (onlineMoment .pppoe 11) :=
    (run_online (hfits 1 (by decide) (by decide))).trans
      (run_stays (by decide) (hfits 11 (by decide) (by decide)))
  have hkept := (h .pppoe ⟨60, 6⟩ (by norm_num) 1 _ Int.one_nonneg hrun).2.charge_eq
  have hbefore : chargeAnswer .pppoe ⟨60, 6⟩ 11 ⟨1, 0, 0, 0, false⟩ = some 6 := by
    have hdiff : roundedDiff ⟨60, 6⟩ (toInt32 (11 - 1)) = some 60 := by decide
    simp only [chargeAnswer, Infos.charged, hdiff, Option.map_some]
    norm_num
  have hafter : chargeAnswer .pppoe ⟨60, 6⟩ 11 (hangUp .pppoe ⟨60, 6⟩ 11 ⟨1, 0, 0, 0, false⟩) = some 1 := by
    norm_num [chargeAnswer, hangUp, setStatusDown, book, roundedTime, Infos.charged]
  have hmoment : (onlineMoment .pppoe 11).infos = ⟨1, 0, 0, 0, false⟩ := rfl
  rw [hmoment] at hkept
  have hanswers : some (6 : ℚ) = some 1 := hbefore.symm.trans (hkept.symm.trans hafter)
  norm_num at hanswers

end Imond
end Mkfli4l
