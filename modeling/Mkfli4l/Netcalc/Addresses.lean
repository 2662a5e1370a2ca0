import Mkfli4l.Lib.Octets

/-!
# Networks and hosts

`netcalc` computes with addresses as arrays of bytes.  Its loops walk over the bits with a pointer and a
bit mask.  Each of them gets a lemma about the bits of the resulting address; the laws that connect the
functions follow from these.
-/

namespace Mkfli4l
namespace Netcalc

open Lib Function

/-! ### The functions -/

/-- The address families. -/
inductive AddressType where
  | inet
  | inet6
deriving DecidableEq, Repr

/-- The number of bytes of an address. -/
def AddressType.num : AddressType → ℕ
  | .inet => 4
  | .inet6 => 16

/-- `struct Address`: an address with the number of its netmask bits. -/
structure Address (type : AddressType) where
  address : Octets type.num
  netmaskbits : BitVec 32

/-- The errors that the conversions store in the type of an address. -/
inductive AddressError where
  | invalidNetmask
  | invalidNetbitmask
  | combinationFailed
deriving DecidableEq, Repr

theorem shiftRight_lt {bitmask : BitVec 8} (h : bitmask ≠ 0#8) : (bitmask >>> 1).toNat < bitmask.toNat := by
  have hpos : 0 < bitmask.toNat := Nat.pos_of_ne_zero fun hzero => h (BitVec.eq_of_toNat_eq hzero)
  rw [BitVec.toNat_ushiftRight, Nat.shiftRight_eq_div_pow]
  omega

section loops

variable {n : ℕ}

/-- The loop over the bits of a mask in `convertNetmaskToCIDR`: whether it is left at a bit that is not
set, the mask there and the number of bits. -/
def countBits (byte bitmask : BitVec 8) (netmaskbits : BitVec 32) : Bool × BitVec 8 × BitVec 32 :=
  if bitmask ≠ 0#8 then
    if byte &&& bitmask ≠ 0#8 then countBits byte (bitmask >>> 1) (netmaskbits + 1)
    else (true, bitmask, netmaskbits)
  else (false, bitmask, netmaskbits)
termination_by bitmask.toNat
decreasing_by
  exact shiftRight_lt ‹_›

/-- The first loop over the bytes of a mask: the number of bytes left, the pointer, the mask and the number
of bits at its end.  `none` means that a byte outside of the address is read. -/
def countBytes (a : Octets n) : ℕ → ℕ → BitVec 32 → Option (ℕ × ℕ × BitVec 8 × BitVec 32)
  | 0, p, netmaskbits => some (0, p, 0#8, netmaskbits)
  | num + 1, p, netmaskbits =>
      if h : p < n then
        match countBits (a ⟨p, h⟩) 0x80#8 netmaskbits with
        | (true, bitmask, netmaskbits) => some (num + 1, p, bitmask, netmaskbits)
        | (false, _, netmaskbits) => countBytes a num (p + 1) netmaskbits
      else none

/-- The inner part of the second loop: no bit from the one of the mask on is set. -/
def restIsClear (byte bitmask : BitVec 8) : Bool :=
  if bitmask ≠ 0#8 then
    if byte &&& bitmask ≠ 0#8 then false
    else restIsClear byte (bitmask >>> 1)
  else true
termination_by bitmask.toNat
decreasing_by
  exact shiftRight_lt ‹_›

/-- The second loop over the bytes of a mask. -/
def checkRest (a : Octets n) : ℕ → ℕ → BitVec 8 → Option Bool
  | 0, _, _ => some true
  | num + 1, p, bitmask =>
      if h : p < n then
        if restIsClear (a ⟨p, h⟩) bitmask then checkRest a num (p + 1) 0x80#8
        else some false
      else none

/-- The loop of `convertCIDRToNetmask`: the number of bits left and the address. -/
def setLeading : ℕ → ℕ → ℕ → BitVec 8 → Octets n → Option (ℕ × Octets n)
  | 0, _, _, _, a => some (0, a)
  | bits + 1, num, p, bitmask, a =>
      if 0 < num then
        if h : p < n then
          let a := update a ⟨p, h⟩ (a ⟨p, h⟩ ||| bitmask)
          if bitmask >>> 1 = 0#8 then setLeading bits (num - 1) (p + 1) 0x80#8 a
          else setLeading bits num p (bitmask >>> 1) a
        else none
      else some (bits + 1, a)

/-- The loops of `convertCIDRToNetwork`, `convertCIDRToHost` and `convertCIDRToBroadcast`, which differ in
what they do to the bit of the mask. -/
def overBits (op : BitVec 8 → BitVec 8 → BitVec 8) : ℕ → ℕ → BitVec 8 → Octets n → Option (Octets n)
  | 0, _, _, a => some a
  | bits + 1, p, bitmask, a =>
      if h : p < n then
        let a := update a ⟨p, h⟩ (op (a ⟨p, h⟩) bitmask)
        if bitmask >>> 1 = 0#8 then overBits op bits (p + 1) 0x80#8 a
        else overBits op bits p (bitmask >>> 1) a
      else none

/-- The loop of `combineAddresses`. -/
def combineBytes (netmask host : Octets n) : ℕ → ℕ → Octets n → Option (Except AddressError (Octets n))
  | 0, _, network => some (.ok network)
  | num + 1, p, network =>
      if h : p < n then
        if netmask ⟨p, h⟩ &&& host ⟨p, h⟩ ≠ 0#8 then some (.error .combinationFailed)
        else combineBytes netmask host num (p + 1)
          (update network ⟨p, h⟩ (network ⟨p, h⟩ &&& netmask ⟨p, h⟩ ||| host ⟨p, h⟩))
      else none

end loops

variable {type : AddressType}

def convertNetmaskToCIDR (netmask : Address type) : Option (Except AddressError (Address type)) :=
  match countBytes netmask.address type.num 0 0 with
  | none => none
  | some (num, p, bitmask, netmaskbits) =>
      (checkRest netmask.address num p bitmask).map fun clear =>
        if clear then .ok ⟨netmask.address, netmaskbits⟩ else .error .invalidNetmask

def convertCIDRToNetmask (netmask : Address type) : Option (Except AddressError (Address type)) :=
  (setLeading netmask.netmaskbits.toInt.toNat type.num 0 0x80#8 fun _ => 0#8).map fun (bits, address) =>
    if 0 < bits then .error .invalidNetbitmask else .ok ⟨address, netmask.netmaskbits⟩

def convertCIDRToNetwork (addr : Address type) : Option (Address type) :=
  (overBits (fun byte bitmask => byte &&& ~~~bitmask) (type.num * 8 - addr.netmaskbits.toInt).toNat
    (addr.netmaskbits.toNat / 8) (0x80#8 >>> (addr.netmaskbits.toNat % 8)) addr.address).map
    fun address => ⟨address, addr.netmaskbits⟩

def convertCIDRToHost (addr : Address type) : Option (Address type) :=
  (overBits (fun byte bitmask => byte &&& ~~~bitmask) addr.netmaskbits.toInt.toNat 0 0x80#8 addr.address).map
    fun address => ⟨address, addr.netmaskbits⟩

def convertCIDRToBroadcast (addr : Address type) : Option (Address type) :=
  (overBits (fun byte bitmask => byte ||| bitmask) (type.num * 8 - addr.netmaskbits.toInt).toNat
    (addr.netmaskbits.toNat / 8) (0x80#8 >>> (addr.netmaskbits.toNat % 8)) addr.address).map
    fun address => ⟨address, addr.netmaskbits⟩

def combineAddresses (network host : Address type) : Option (Except AddressError (Address type)) :=
  match convertCIDRToNetmask network with
  | none => none
  | some (.error e) => some (.error e)
  | some (.ok netmask) =>
      (combineBytes netmask.address host.address type.num 0 network.address).map fun result =>
        result.map fun address => ⟨address, network.netmaskbits⟩

/-! ### The loops, bit by bit -/

section bits

variable {n : ℕ} {op : BitVec 8 → BitVec 8 → BitVec 8} {v : Bool}

theorem bitAt_update_next (hop : GivesBit op v) (a : Octets n) {i : ℕ} (hp : i / 8 < n) (bits j : ℕ) :
    (if i + 1 ≤ j ∧ j < i + 1 + bits then v
      else bitAt (update a ⟨i / 8, hp⟩ (op (a ⟨i / 8, hp⟩) (maskAt i))) j) =
      if i ≤ j ∧ j < i + (bits + 1) then v else bitAt a j := by
  rw [bitAt_update hop]
  by_cases hlater : i + 1 ≤ j ∧ j < i + 1 + bits
  · rw [if_pos hlater, if_pos (by omega)]
  · rw [if_neg hlater]
    by_cases hsame : j = i
    · rw [if_pos hsame, if_pos (by omega)]
    · rw [if_neg hsame, if_neg (by omega)]

theorem overBits_spec (hop : GivesBit op v) (bits i : ℕ) (a : Octets n) (h : i + bits ≤ 8 * n) :
    ∃ a', overBits op bits (i / 8) (maskAt i) a = some a' ∧
      ∀ j, bitAt a' j = if i ≤ j ∧ j < i + bits then v else bitAt a j := by
  induction bits generalizing i a with
  | zero =>
      refine ⟨a, rfl, ?_⟩
      intro j
      rw [if_neg (by omega)]
  | succ bits ih =>
      have hp : i / 8 < n := by omega
      obtain ⟨a', hrun, hbits⟩ := ih (i + 1)
        (update a ⟨i / 8, hp⟩ (op (a ⟨i / 8, hp⟩) (maskAt i))) (by omega)
      have hstep : overBits op (bits + 1) (i / 8) (maskAt i) a = some a' := by
        rw [overBits, dif_pos hp]
        rcases maskAt_shift i with ⟨hzero, hbyte, hmask⟩ | ⟨hne, hbyte, hmask⟩
        · rw [hbyte, hmask] at hrun
          simp only [hzero, if_true]
          exact hrun
        · rw [hbyte, hmask] at hrun
          dsimp only
          rw [if_neg hne]
          exact hrun
      refine ⟨a', hstep, ?_⟩
      intro j
      rw [hbits, bitAt_update_next hop]

theorem setLeading_spec (bits i : ℕ) (a : Octets n) (h : i + bits ≤ 8 * n) :
    ∃ a', setLeading bits (n - i / 8) (i / 8) (maskAt i) a = some (0, a') ∧
      ∀ j, bitAt a' j = if i ≤ j ∧ j < i + bits then true else bitAt a j := by
  induction bits generalizing i a with
  | zero =>
      refine ⟨a, rfl, ?_⟩
      intro j
      rw [if_neg (by omega)]
  | succ bits ih =>
      have hp : i / 8 < n := by omega
      obtain ⟨a', hrun, hbits⟩ := ih (i + 1)
        (update a ⟨i / 8, hp⟩ (a ⟨i / 8, hp⟩ ||| maskAt i)) (by omega)
      have hstep : setLeading (bits + 1) (n - i / 8) (i / 8) (maskAt i) a = some (0, a') := by
        rw [setLeading, if_pos (by omega), dif_pos hp]
        rcases maskAt_shift i with ⟨hzero, hbyte, hmask⟩ | ⟨hne, hbyte, hmask⟩
        · have hnum : n - (i / 8 + 1) = n - i / 8 - 1 := by omega
          rw [hbyte, hmask, hnum] at hrun
          simp only [hzero, if_true]
          exact hrun
        · rw [hbyte, hmask] at hrun
          dsimp only
          rw [if_neg hne]
          exact hrun
      refine ⟨a', hstep, ?_⟩
      intro j
      rw [hbits, bitAt_update_next givesBit_or]

theorem shift_ne_zero {k : ℕ} (hk : k < 8) : (0x80#8 >>> k : BitVec 8) ≠ 0#8 := by
  have hne := maskAt_ne_zero k
  unfold maskAt at hne
  rwa [Nat.mod_eq_of_lt hk] at hne

theorem and_shift (byte : BitVec 8) {k : ℕ} (hk : k < 8) :
    byte &&& 0x80#8 >>> k ≠ 0#8 ↔ byte.getLsbD (7 - k) = true := by
  have hiff := and_maskAt byte k
  unfold maskAt at hiff
  rwa [Nat.mod_eq_of_lt hk] at hiff

theorem countBits_spec (byte : BitVec 8) (bits : BitVec 32) (z : ℕ) {k : ℕ} (hk : k ≤ z) (hz : z ≤ 8)
    (hset : ∀ j, k ≤ j → j < z → byte.getLsbD (7 - j) = true)
    (hclear : z < 8 → byte.getLsbD (7 - z) = false) :
    countBits byte (0x80#8 >>> k) bits = (decide (z < 8), 0x80#8 >>> z, bits + BitVec.ofNat 32 (z - k)) := by
  induction hd : z - k generalizing k bits with
  | zero =>
      obtain rfl : k = z := by omega
      rw [countBits]
      by_cases hlt : k < 8
      · have hand : ¬ byte &&& 0x80#8 >>> k ≠ 0#8 := by
          rw [and_shift byte hlt, hclear hlt]
          decide
        rw [if_pos (shift_ne_zero hlt), if_neg hand, decide_eq_true hlt]
        simp
      · obtain rfl : k = 8 := by omega
        simp
  | succ d ih =>
      have hlt : k < 8 := by omega
      have hand : byte &&& 0x80#8 >>> k ≠ 0#8 := (and_shift byte hlt).mpr (hset k (le_refl k) (by omega))
      have hnext := ih (k := k + 1) (bits + 1) (by omega) (fun j hj => hset j (by omega)) (by omega)
      rw [countBits, if_pos (shift_ne_zero hlt), if_pos hand, ← BitVec.shiftRight_add, hnext]
      have hsum : bits + 1 + BitVec.ofNat 32 d = bits + BitVec.ofNat 32 (d + 1) := by
        rw [BitVec.ofNat_add, BitVec.add_assoc, BitVec.add_comm 1]
        rfl
      rw [hsum]

theorem restIsClear_spec (byte : BitVec 8) {k : ℕ} (hk : k ≤ 8) :
    restIsClear byte (0x80#8 >>> k) = true ↔ ∀ j, k ≤ j → j < 8 → byte.getLsbD (7 - j) = false := by
  induction hd : 8 - k generalizing k with
  | zero =>
      obtain rfl : k = 8 := by omega
      have hnone : restIsClear byte (0x80#8 >>> 8) = true := by
        rw [restIsClear]
        rfl
      rw [hnone]
      exact iff_of_true rfl fun j hj hlt => by omega
  | succ d ih =>
      have hlt : k < 8 := by omega
      have hnext := ih (k := k + 1) (by omega) (by omega)
      rw [restIsClear, if_pos (shift_ne_zero hlt), ← BitVec.shiftRight_add]
      by_cases hset : byte.getLsbD (7 - k) = true
      · rw [if_pos ((and_shift byte hlt).mpr hset)]
        refine iff_of_false Bool.false_ne_true fun hall => ?_
        rw [hall k (le_refl k) hlt] at hset
        contradiction
      · rw [if_neg (fun h => hset ((and_shift byte hlt).mp h)), hnext]
        constructor
        · intro hall j hj hj8
          rcases hj.lt_or_eq with hj | rfl
          · exact hall j hj hj8
          · exact Bool.not_eq_true _ ▸ hset
        · intro hall j hj
          exact hall j (by omega)

theorem getLsbD_byte (a : Octets n) {p : ℕ} (hlt : p < n) :
    ∀ j < 8, (a ⟨p, hlt⟩).getLsbD (7 - j) = bitAt a (8 * p + j) := by
  intro j hj
  have hdiv : (8 * p + j) / 8 = p := by omega
  have hmod : (8 * p + j) % 8 = j := by omega
  simp only [bitAt, hdiv, hmod, hlt, dif_pos]

theorem countBytes_spec (a : Octets n) {z : ℕ} (hz : z ≤ 8 * n) (hset : ∀ j < z, bitAt a j = true)
    (hclear : z < 8 * n → bitAt a z = false) {p : ℕ} (num : ℕ) (hnum : p + num = n) (hp : 8 * p ≤ z) :
    countBytes a num p (BitVec.ofNat 32 (8 * p)) =
      some (n - z / 8, z / 8, if z < 8 * n then 0x80#8 >>> (z % 8) else 0#8, BitVec.ofNat 32 z) := by
  induction num generalizing p with
  | zero =>
      obtain rfl : p = n := by omega
      have hall : z = 8 * p := by omega
      have hdiv : 8 * p / 8 = p := by omega
      rw [countBytes, hall, hdiv, Nat.sub_self, if_neg (lt_irrefl _)]
  | succ num ih =>
      have hlt : p < n := by omega
      have hbyte := getLsbD_byte a hlt
      have hstop : min (z - 8 * p) 8 < 8 → bitAt a (8 * p + min (z - 8 * p) 8) = false := by
        intro hmin
        have hz' : 8 * p + min (z - 8 * p) 8 = z := by omega
        rw [hz']
        exact hclear (by omega)
      have hcount := countBits_spec (a ⟨p, hlt⟩) (BitVec.ofNat 32 (8 * p)) (min (z - 8 * p) 8)
        (Nat.zero_le _) (by omega)
        (fun j _ hj => (hbyte j (by omega)).trans (hset _ (by omega)))
        (fun hmin => (hbyte _ hmin).trans (hstop hmin))
      rw [BitVec.ushiftRight_zero] at hcount
      rw [countBytes, dif_pos hlt, hcount, Nat.sub_zero, ← BitVec.ofNat_add]
      by_cases hin : z < 8 * p + 8
      · have hmin : min (z - 8 * p) 8 = z - 8 * p := by omega
        have hdiv : z / 8 = p := by omega
        have hmod : z % 8 = z - 8 * p := by omega
        have hsum : 8 * p + (z - 8 * p) = z := by omega
        have hlen : n - p = num + 1 := by omega
        rw [hmin, hdiv, hmod, hsum, hlen, decide_eq_true (by omega), if_pos (by omega)]
      · have hmin : min (z - 8 * p) 8 = 8 := by omega
        rw [hmin]
        exact ih (by omega) (by omega)

theorem checkRest_spec (a : Octets n) (num p k : ℕ) (hnum : p + num = n) (hk : k ≤ 8) :
    ∃ clear, checkRest a num p (0x80#8 >>> k) = some clear ∧
      (clear = true ↔ ∀ j, 8 * p + k ≤ j → j < 8 * n → bitAt a j = false) := by
  induction num generalizing p k with
  | zero => exact ⟨true, rfl, iff_of_true rfl fun j hj hlt => by omega⟩
  | succ num ih =>
      have hlt : p < n := by omega
      have hbyte := getLsbD_byte a hlt
      have hrest := restIsClear_spec (a ⟨p, hlt⟩) hk
      rw [checkRest, dif_pos hlt]
      by_cases hclear : restIsClear (a ⟨p, hlt⟩) (0x80#8 >>> k) = true
      · obtain ⟨clear, hrun, hiff⟩ := ih (p + 1) 0 (by omega) (by omega)
        rw [if_pos hclear]
        refine ⟨clear, hrun, hiff.trans ?_⟩
        constructor
        · intro hall j hj hj'
          by_cases hin : j < 8 * p + 8
          · have hbit := hrest.mp hclear (j - 8 * p) (by omega) (by omega)
            rw [hbyte _ (by omega)] at hbit
            have hindex : 8 * p + (j - 8 * p) = j := by omega
            rwa [hindex] at hbit
          · exact hall j (by omega) hj'
        · intro hall j hj
          exact hall j (by omega)
      · rw [if_neg hclear]
        refine ⟨false, rfl, iff_of_false Bool.false_ne_true fun hall => ?_⟩
        apply hclear
        apply hrest.mpr
        intro j hj hj8
        rw [hbyte j hj8]
        exact hall _ (by omega) (by omega)

theorem combineBytes_spec {netmask host : Octets n} (hdisjoint : ∀ p, netmask p &&& host p = 0#8)
    (network : Octets n) (num p : ℕ) (hnum : p + num = n) :
    combineBytes netmask host num p network =
      some (.ok fun q => if p ≤ q.val then network q &&& netmask q ||| host q else network q) := by
  induction num generalizing p network with
  | zero =>
      rw [combineBytes]
      congr 2
      funext q
      rw [if_neg (by omega)]
  | succ num ih =>
      have hlt : p < n := by omega
      rw [combineBytes, dif_pos hlt, if_neg (not_not.mpr (hdisjoint _)), ih _ _ (by omega)]
      congr 2
      funext q
      by_cases hsame : q = ⟨p, hlt⟩
      · subst hsame
        rw [if_neg (by show ¬ p + 1 ≤ p; omega), if_pos (le_refl p), update_self]
      · have hne : q.val ≠ p := fun h => hsame (Fin.ext h)
        rw [update_of_ne hsame]
        by_cases hle : p ≤ q.val
        · rw [if_pos hle, if_pos (by omega)]
        · rw [if_neg hle, if_neg (by omega)]

end bits

/-! ### The functions, bit by bit -/

theorem AddressType.num_le (type : AddressType) : type.num ≤ 16 := by
  cases type <;> decide

/-- There are no more netmask bits than the address has bits. -/
def Address.InRange (addr : Address type) : Prop := addr.netmaskbits.toNat ≤ 8 * type.num

theorem Address.InRange.toInt {addr : Address type} (h : addr.InRange) :
    addr.netmaskbits.toInt = addr.netmaskbits.toNat := by
  have hnum := type.num_le
  unfold Address.InRange at h
  exact BitVec.toInt_eq_toNat_of_lt (by omega)

theorem convertCIDRToNetmask_spec {addr : Address type} (h : addr.InRange) :
    ∃ mask, convertCIDRToNetmask addr = some (.ok ⟨mask, addr.netmaskbits⟩) ∧
      ∀ j < 8 * type.num, bitAt mask j = decide (j < addr.netmaskbits.toNat) := by
  obtain ⟨mask, hrun, hbits⟩ := setLeading_spec addr.netmaskbits.toNat 0
    (fun _ : Fin type.num => 0#8) (by rw [Nat.zero_add]; exact h)
  refine ⟨mask, ?_, ?_⟩
  · unfold convertCIDRToNetmask
    rw [h.toInt, Int.toNat_natCast]
    simp only [Nat.zero_div, Nat.sub_zero] at hrun
    have hmask : maskAt 0 = 0x80#8 := by decide
    rw [hmask] at hrun
    rw [hrun]
    rfl
  · intro j _
    rw [hbits, bitAt_zero]
    simp

theorem overBits_behind {op : BitVec 8 → BitVec 8 → BitVec 8} {v : Bool} (hop : GivesBit op v)
    {addr : Address type} (h : addr.InRange) :
    ∃ a', overBits op (type.num * 8 - addr.netmaskbits.toInt).toNat (addr.netmaskbits.toNat / 8)
        (0x80#8 >>> (addr.netmaskbits.toNat % 8)) addr.address = some a' ∧
      ∀ j < 8 * type.num,
        bitAt a' j = if addr.netmaskbits.toNat ≤ j then v else bitAt addr.address j := by
  have hle : addr.netmaskbits.toNat ≤ 8 * type.num := h
  have hbits : (type.num * 8 - addr.netmaskbits.toInt).toNat = 8 * type.num - addr.netmaskbits.toNat := by
    rw [h.toInt]
    omega
  obtain ⟨a', hrun, hspec⟩ := overBits_spec hop (8 * type.num - addr.netmaskbits.toNat)
    addr.netmaskbits.toNat addr.address (by omega)
  rw [hbits]
  refine ⟨a', hrun, ?_⟩
  intro j hj
  rw [hspec]
  have hiff : addr.netmaskbits.toNat ≤ j ∧
      j < addr.netmaskbits.toNat + (8 * type.num - addr.netmaskbits.toNat) ↔ addr.netmaskbits.toNat ≤ j := by
    omega
  simp only [hiff]

theorem convertCIDRToNetwork_spec {addr : Address type} (h : addr.InRange) :
    ∃ net, convertCIDRToNetwork addr = some ⟨net, addr.netmaskbits⟩ ∧
      ∀ j < 8 * type.num,
        bitAt net j = if addr.netmaskbits.toNat ≤ j then false else bitAt addr.address j := by
  obtain ⟨net, hrun, hbits⟩ := overBits_behind givesBit_and_not h
  refine ⟨net, ?_, hbits⟩
  unfold convertCIDRToNetwork
  rw [hrun]
  rfl

theorem convertCIDRToBroadcast_spec {addr : Address type} (h : addr.InRange) :
    ∃ broadcast, convertCIDRToBroadcast addr = some ⟨broadcast, addr.netmaskbits⟩ ∧
      ∀ j < 8 * type.num,
        bitAt broadcast j = if addr.netmaskbits.toNat ≤ j then true else bitAt addr.address j := by
  obtain ⟨broadcast, hrun, hbits⟩ := overBits_behind givesBit_or h
  refine ⟨broadcast, ?_, hbits⟩
  unfold convertCIDRToBroadcast
  rw [hrun]
  rfl

theorem convertCIDRToHost_spec {addr : Address type} (h : addr.InRange) :
    ∃ host, convertCIDRToHost addr = some ⟨host, addr.netmaskbits⟩ ∧
      ∀ j, bitAt host j = if j < addr.netmaskbits.toNat then false else bitAt addr.address j := by
  obtain ⟨host, hrun, hbits⟩ := overBits_spec givesBit_and_not addr.netmaskbits.toNat 0 addr.address
    (by rw [Nat.zero_add]; exact h)
  have hmask : maskAt 0 = 0x80#8 := by decide
  rw [Nat.zero_div, hmask] at hrun
  refine ⟨host, ?_, ?_⟩
  · unfold convertCIDRToHost
    rw [h.toInt, Int.toNat_natCast, hrun]
    rfl
  · intro j
    rw [hbits, Nat.zero_add]
    simp only [Nat.zero_le, true_and]

/-- The mask is a run of ones that is followed by zeros. -/
def IsNetmask (mask : Octets type.num) : Prop :=
  ∃ b ≤ 8 * type.num, ∀ j < 8 * type.num, bitAt mask j = decide (j < b)

theorem exists_leading (f : ℕ → Bool) (m : ℕ) :
    ∃ z ≤ m, (∀ j < z, f j = true) ∧ (z < m → f z = false) := by
  induction m with
  | zero => exact ⟨0, le_refl 0, nofun, fun h => absurd h (lt_irrefl 0)⟩
  | succ m ih =>
      obtain ⟨z, hz, hset, hclear⟩ := ih
      rcases hz.lt_or_eq with hlt | rfl
      · exact ⟨z, by omega, hset, fun _ => hclear hlt⟩
      · cases hbit : f z with
        | false => exact ⟨z, by omega, hset, fun _ => hbit⟩
        | true =>
            refine ⟨z + 1, le_refl _, ?_, fun h => absurd h (lt_irrefl _)⟩
            intro j hj
            rcases (Nat.lt_succ_iff.mp hj).lt_or_eq with hlt | rfl
            · exact hset j hlt
            · exact hbit

theorem convertNetmaskToCIDR_spec (netmask : Address type) {z : ℕ} (hz : z ≤ 8 * type.num)
    (hset : ∀ j < z, bitAt netmask.address j = true)
    (hclear : z < 8 * type.num → bitAt netmask.address z = false) :
    ∃ clear : Bool, (convertNetmaskToCIDR netmask = some
        (if clear then .ok ⟨netmask.address, BitVec.ofNat 32 z⟩ else .error .invalidNetmask)) ∧
      (clear = true ↔ ∀ j, z ≤ j → j < 8 * type.num → bitAt netmask.address j = false) := by
  have hcount : countBytes netmask.address type.num 0 0 = _ :=
    countBytes_spec netmask.address hz hset hclear type.num (Nat.zero_add _) (Nat.zero_le z)
  have hrest : ∃ clear, checkRest netmask.address (type.num - z / 8) (z / 8)
      (if z < 8 * type.num then 0x80#8 >>> (z % 8) else 0#8) = some clear ∧
      (clear = true ↔ ∀ j, z ≤ j → j < 8 * type.num → bitAt netmask.address j = false) := by
    by_cases hlt : z < 8 * type.num
    · rw [if_pos hlt]
      have hspec := checkRest_spec netmask.address (type.num - z / 8) (z / 8) (z % 8) (by omega) (by omega)
      have hindex : 8 * (z / 8) + z % 8 = z := by omega
      rwa [hindex] at hspec
    · have hnone : type.num - z / 8 = 0 := by omega
      rw [hnone]
      exact ⟨true, rfl, iff_of_true rfl fun j hj hj' => by omega⟩
  obtain ⟨clear, hrun, hiff⟩ := hrest
  refine ⟨clear, ?_, hiff⟩
  unfold convertNetmaskToCIDR
  rw [hcount]
  dsimp only
  rw [hrun]
  rfl

theorem convertNetmaskToCIDR_isNetmask {netmask : Address type} {b : ℕ} (hb : b ≤ 8 * type.num)
    (hbits : ∀ j < 8 * type.num, bitAt netmask.address j = decide (j < b)) :
    convertNetmaskToCIDR netmask = some (.ok ⟨netmask.address, BitVec.ofNat 32 b⟩) := by
  obtain ⟨clear, hrun, hiff⟩ := convertNetmaskToCIDR_spec netmask hb
    (fun j hj => (hbits j (by omega)).trans (decide_eq_true hj))
    (fun hlt => (hbits b hlt).trans (decide_eq_false (lt_irrefl b)))
  have hclear := hiff.mpr fun j hj hlt => (hbits j hlt).trans (decide_eq_false (by omega))
  rw [hrun, hclear]
  rfl

theorem convertNetmaskToCIDR_ok_iff (netmask : Address type) :
    (∃ result, convertNetmaskToCIDR netmask = some (.ok result)) ↔ IsNetmask netmask.address := by
  constructor
  · rintro ⟨result, hok⟩
    obtain ⟨z, hz, hset, hclear⟩ := exists_leading (bitAt netmask.address) (8 * type.num)
    obtain ⟨clear, hrun, hiff⟩ := convertNetmaskToCIDR_spec netmask hz hset hclear
    cases clear with
    | false =>
        rw [hrun] at hok
        cases hok
    | true =>
        refine ⟨z, hz, ?_⟩
        intro j hj
        by_cases hlt : j < z
        · rw [hset j hlt, decide_eq_true hlt]
        · rw [hiff.mp rfl j (by omega) hj, decide_eq_false hlt]
  · rintro ⟨b, hb, hbits⟩
    exact ⟨_, convertNetmaskToCIDR_isNetmask hb hbits⟩

/-! ### The laws -/

/-- What connects the functions for an address with its netmask bits. -/
structure Laws (addr : Address type) : Prop where
  /-- The netmask bits come back from the netmask. -/
  netmask : ∃ mask, convertCIDRToNetmask addr = some (.ok ⟨mask, addr.netmaskbits⟩) ∧
    ∀ bits, convertNetmaskToCIDR ⟨mask, bits⟩ = some (.ok ⟨mask, addr.netmaskbits⟩)
  /-- The network and the host have no bits in common and give the address together. -/
  parts : ∃ net host, convertCIDRToNetwork addr = some ⟨net, addr.netmaskbits⟩ ∧
    convertCIDRToHost addr = some ⟨host, addr.netmaskbits⟩ ∧
    (∀ p, net p &&& host p = 0#8) ∧ (∀ p, net p ||| host p = addr.address p) ∧
    ∀ bits, combineAddresses ⟨net, addr.netmaskbits⟩ ⟨host, bits⟩ = some (.ok addr)
  /-- The broadcast address is the largest address of the network. -/
  broadcast : ∃ last, convertCIDRToBroadcast addr = some ⟨last, addr.netmaskbits⟩ ∧
    convertCIDRToNetwork ⟨last, addr.netmaskbits⟩ = convertCIDRToNetwork addr ∧
    ∀ a, convertCIDRToNetwork ⟨a, addr.netmaskbits⟩ = convertCIDRToNetwork addr → value a ≤ value last

theorem convertCIDRToNetwork_eq_iff {addr : Address type} (h : addr.InRange) (a : Octets type.num) :
    convertCIDRToNetwork ⟨a, addr.netmaskbits⟩ = convertCIDRToNetwork addr ↔
      ∀ j < 8 * type.num, j < addr.netmaskbits.toNat → bitAt a j = bitAt addr.address j := by
  have h' : Address.InRange ⟨a, addr.netmaskbits⟩ := h
  obtain ⟨net, hnet, hspec⟩ := convertCIDRToNetwork_spec h
  obtain ⟨net', hnet', hspec'⟩ := convertCIDRToNetwork_spec h'
  dsimp only at hnet' hspec'
  rw [hnet, hnet', Option.some_inj, Address.mk.injEq]
  constructor
  · rintro ⟨rfl, -⟩ j hj hlead
    have hboth := (hspec j hj).symm.trans (hspec' j hj)
    rw [if_neg (by omega), if_neg (by omega)] at hboth
    exact hboth.symm
  · intro hall
    refine ⟨ext_bitAt ?_, rfl⟩
    intro j hj
    rw [hspec j hj, hspec' j hj]
    by_cases hlead : addr.netmaskbits.toNat ≤ j
    · rw [if_pos hlead, if_pos hlead]
    · rw [if_neg hlead, if_neg hlead]
      exact hall j hj (by omega)

theorem laws_parts {addr : Address type} (h : addr.InRange) :
    ∃ net host, convertCIDRToNetwork addr = some ⟨net, addr.netmaskbits⟩ ∧
      convertCIDRToHost addr = some ⟨host, addr.netmaskbits⟩ ∧
      (∀ p, net p &&& host p = 0#8) ∧ (∀ p, net p ||| host p = addr.address p) ∧
      ∀ bits, combineAddresses ⟨net, addr.netmaskbits⟩ ⟨host, bits⟩ = some (.ok addr) := by
  obtain ⟨net, hnet, hnetBits⟩ := convertCIDRToNetwork_spec h
  obtain ⟨host, hhost, hhostBits⟩ := convertCIDRToHost_spec h
  have hand : (fun p => net p &&& host p) = fun _ => 0#8 := by
    apply ext_bitAt
    intro j hj
    rw [bitAt_and, hnetBits j hj, hhostBits, bitAt_zero]
    by_cases hlead : addr.netmaskbits.toNat ≤ j
    · rw [if_pos hlead, Bool.false_and]
    · rw [if_pos (Nat.not_le.mp hlead), Bool.and_false]
  have hor : (fun p => net p ||| host p) = addr.address := by
    apply ext_bitAt
    intro j hj
    rw [bitAt_or, hnetBits j hj, hhostBits]
    by_cases hlead : addr.netmaskbits.toNat ≤ j
    · rw [if_pos hlead, if_neg (by omega), Bool.false_or]
    · rw [if_neg hlead, if_pos (Nat.not_le.mp hlead), Bool.or_false]
  refine ⟨net, host, hnet, hhost, congrFun hand, congrFun hor, ?_⟩
  intro bits
  have hrange : Address.InRange ⟨net, addr.netmaskbits⟩ := h
  obtain ⟨mask, hmask, hmaskBits⟩ := convertCIDRToNetmask_spec hrange
  dsimp only at hmask hmaskBits
  -- the network has no bits behind the mask and the host has none under it
  have hkeep : (fun p => net p &&& mask p) = net := by
    apply ext_bitAt
    intro j hj
    rw [bitAt_and, hnetBits j hj, hmaskBits j hj]
    by_cases hlead : addr.netmaskbits.toNat ≤ j
    · rw [if_pos hlead, Bool.false_and]
    · rw [if_neg hlead, decide_eq_true (by omega), Bool.and_true]
  have hfree : (fun p => mask p &&& host p) = fun _ => 0#8 := by
    apply ext_bitAt
    intro j hj
    rw [bitAt_and, hmaskBits j hj, hhostBits, bitAt_zero]
    by_cases hlead : addr.netmaskbits.toNat ≤ j
    · rw [decide_eq_false (by omega), Bool.false_and]
    · rw [if_pos (Nat.not_le.mp hlead), Bool.and_false]
  have hcombine := combineBytes_spec (congrFun hfree) net type.num 0 (Nat.zero_add _)
  have hall : (fun q : Fin type.num => if 0 ≤ q.val then net q &&& mask q ||| host q else net q) =
      addr.address := by
    rw [← hor]
    funext q
    rw [if_pos (Nat.zero_le _), congrFun hkeep q]
  rw [hall] at hcombine
  unfold combineAddresses
  rw [hmask]
  dsimp only
  rw [hcombine]
  rfl

theorem laws_broadcast {addr : Address type} (h : addr.InRange) :
    ∃ last, convertCIDRToBroadcast addr = some ⟨last, addr.netmaskbits⟩ ∧
      convertCIDRToNetwork ⟨last, addr.netmaskbits⟩ = convertCIDRToNetwork addr ∧
      ∀ a, convertCIDRToNetwork ⟨a, addr.netmaskbits⟩ = convertCIDRToNetwork addr → value a ≤ value last := by
  obtain ⟨last, hlast, hbits⟩ := convertCIDRToBroadcast_spec h
  refine ⟨last, hlast, ?_, ?_⟩
  · apply (convertCIDRToNetwork_eq_iff h _).mpr
    intro j hj hlead
    rw [hbits j hj, if_neg (by omega)]
  · intro a ha
    apply value_le
    intro j hj hset
    rw [hbits j hj]
    by_cases hlead : addr.netmaskbits.toNat ≤ j
    · rw [if_pos hlead]
    · rw [if_neg hlead, ← (convertCIDRToNetwork_eq_iff h _).mp ha j hj (Nat.not_le.mp hlead)]
      exact hset

/-- A mask is accepted if and only if it is a run of ones that is followed by zeros, and the laws hold for
every address that has no more netmask bits than bits. -/
theorem netcalc_laws (type : AddressType) :
    (∀ netmask : Address type,
      (∃ result, convertNetmaskToCIDR netmask = some (.ok result)) ↔ IsNetmask netmask.address) ∧
    ∀ addr : Address type, addr.InRange → Laws addr := by
  refine ⟨convertNetmaskToCIDR_ok_iff, ?_⟩
  intro addr h
  refine ⟨?_, laws_parts h, laws_broadcast h⟩
  obtain ⟨mask, hrun, hbits⟩ := convertCIDRToNetmask_spec h
  refine ⟨mask, hrun, ?_⟩
  intro bits
  have hback : convertNetmaskToCIDR ⟨mask, bits⟩ = _ := convertNetmaskToCIDR_isNetmask h hbits
  rw [BitVec.ofNat_toNat, BitVec.setWidth_eq] at hback
  exact hback

/-- The loopback address with the bits of its network. -/
def loopback : Address .inet := ⟨![127#8, 0#8, 0#8, 1#8], 8#32⟩

theorem netcalc_laws_loopback : Laws loopback := by
  apply (netcalc_laws .inet).2 loopback
  unfold Address.InRange
  decide

end Netcalc
end Mkfli4l
