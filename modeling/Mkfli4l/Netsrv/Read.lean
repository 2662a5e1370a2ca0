import Mathlib.Algebra.BigOperators.Group.Finset.Basic
import Mathlib.Tactic

/-!
# Reading from a connection

`netsrv_net_read` serves a stream and a datagram through one interface.  From a stream it reads in a loop
until it has all the bytes it is asked for.  The loop takes the result of `recv` as the number of bytes that
have come, also at the end of the stream, where it is 0, and if a signal has interrupted the call, where it
is -1.  From a datagram, which has been received before, nothing is ever copied.

`netRead_iff` says when a sequence of calls delivers what the peer has sent all the same.
-/

namespace Mkfli4l
namespace Netsrv

/-! ## The program -/

/-- A result of `recv`: at least one byte is waiting, the stream has ended, the call is interrupted by a
signal, or it fails. -/
inductive Recv
  | data (more : ℕ)
  | eof
  | intr
  | error
deriving DecidableEq

/-- A TCP connection: the bytes that the peer sends, how many of them have been received, and what the
calls of `recv` meet. -/
structure Tcp where
  stream : ℕ → UInt8
  received : ℕ
  results : ℕ → Recv
  calls : ℕ

/-- A UDP datagram: its bytes that have not been asked for, and how many there are according to the field
`count`. -/
structure Udp where
  datagram : List UInt8
  count : ℕ

/-- `struct conn_info`. -/
inductive Conn
  | tcp (c : Tcp)
  | udp (u : Udp)

/-- The memory of the caller.  Its buffer begins at 0. -/
abbrev Memory := ℤ → UInt8

def errorRead : ℤ := 15

/-- `recv` stores `n` bytes of the stream. -/
def Tcp.store (c : Tcp) (buf : ℤ) (n : ℕ) (mem : Memory) : Memory :=
  fun i => if buf ≤ i ∧ i < buf + n then c.stream (c.received + (i - buf).toNat) else mem i

/-- The loop over `recv`, with the number of bytes still to come and the place for them.  If the call is
interrupted, the number -1 is subtracted from the one and added to the other. -/
def recvLoop : ℕ → Tcp → ℕ → ℤ → Memory → Option (ℤ × Tcp × Memory)
  | 0, _, _, _, _ => none
  | fuel + 1, c, count, buf, mem =>
      if count = 0 then some (0, c, mem)
      else
        match c.results c.calls with
        | .data more =>
            let bytesread := min (more + 1) count
            recvLoop fuel { c with received := c.received + bytesread, calls := c.calls + 1 }
              (count - bytesread) (buf + bytesread) (c.store buf bytesread mem)
        | .eof => recvLoop fuel { c with calls := c.calls + 1 } count buf mem
        | .intr => recvLoop fuel { c with calls := c.calls + 1 } (count + 1) (buf - 1) mem
        | .error => some (errorRead, { c with calls := c.calls + 1 }, mem)

/-- `netsrv_net_read`.  The parameter `buf` of a datagram is given another value, and that is all. -/
def netRead (fuel : ℕ) (conn : Conn) (count : ℕ) (mem : Memory) : Option (ℤ × Conn × Memory) :=
  match conn with
  | .tcp c => (recvLoop fuel c count 0 mem).map fun (rc, c, mem) => (rc, .tcp c, mem)
  | .udp u =>
      if u.count < count then some (errorRead, .udp u, mem)
      else some (0, .udp ⟨u.datagram.drop count, u.count - count⟩, mem)

/-- `netsrv_net_accept_udp`.  The size of the datagram is stored in the lower half of a variable whose upper
half is whatever there was before. -/
def acceptUdp (upper : ℕ) (datagram : List UInt8) : Conn := .udp ⟨datagram, upper * 2 ^ 32 + datagram.length⟩

/-! ## What it is for -/

/-- The buffer of the caller holds the next bytes, no other memory is changed, and the connection goes on
behind them. -/
def Filled (count : ℕ) (mem mem' : Memory) : Conn → Conn → Prop
  | .tcp c, .tcp c' =>
      c'.received = c.received + count ∧ (∀ i < count, mem' i = c.stream (c.received + i)) ∧
        ∀ i : ℤ, i < 0 ∨ count ≤ i → mem' i = mem i
  | .udp u, .udp u' =>
      u'.datagram = u.datagram.drop count ∧ (∀ i < count, u.datagram[i]? = some (mem' i)) ∧
        ∀ i : ℤ, i < 0 ∨ count ≤ i → mem' i = mem i
  | _, _ => False

/-- The call comes to an end.  Unless it returns an error, it has filled the buffer. -/
def Serves (conn : Conn) (count : ℕ) (mem : Memory) : Prop :=
  ∃ fuel rc conn' mem', netRead fuel conn count mem = some (rc, conn', mem') ∧
    (rc = 0 → Filled count mem mem' conn conn')

/-- A call: the number of bytes, and the memory before it. -/
structure Call where
  count : ℕ
  mem : Memory

/-- Every call of a sequence serves the caller. -/
def ServesAll : Conn → List Call → Prop
  | _, [] => True
  | conn, call :: calls =>
      Serves conn call.count call.mem ∧ ∀ fuel rc conn' mem',
        netRead fuel conn call.count call.mem = some (rc, conn', mem') → ServesAll conn' calls

/-! ## When it does so -/

namespace Tcp

variable (c : Tcp)

/-- What the next calls of `recv` meet. -/
def next (j : ℕ) : Recv := c.results (c.calls + j)

/-- The bytes that are waiting in the next `m` calls of `recv`. -/
def waiting (m : ℕ) : ℕ := ∑ j ∈ Finset.range m, match c.next j with
  | .data more => more + 1
  | _ => 0

/-- How often the next `m` calls of `recv` are interrupted. -/
def interrupted (m : ℕ) : ℕ := ∑ j ∈ Finset.range m, if c.next j = .intr then 1 else 0

/-- A call of `recv` fails before the loop has all the bytes, or they come without an interruption. -/
def CallFits (count : ℕ) : Prop :=
  ∃ k, (∀ j < k, c.next j ≠ .error) ∧
    ((c.next k = .error ∧ ∀ m ≤ k, c.waiting m < count + c.interrupted m) ∨
      (count ≤ c.waiting k ∧ c.interrupted k = 0))

end Tcp

/-- A call on a stream fits as above; one on a datagram asks for more bytes than there are according to the
field `count`, or for bytes that are in the buffer already. -/
def CallFits (conn : Conn) (count : ℕ) (mem : Memory) : Prop :=
  match conn with
  | .tcp c => c.CallFits count
  | .udp u => u.count < count ∨ ∀ i < count, u.datagram[i]? = some (mem i)

/-- Every call of a sequence fits, in the state that the calls before it leave. -/
def FitsAll : Conn → List Call → Prop
  | _, [] => True
  | conn, call :: calls =>
      CallFits conn call.count call.mem ∧ ∀ fuel rc conn' mem',
        netRead fuel conn call.count call.mem = some (rc, conn', mem') → FitsAll conn' calls

/-! ### The loop -/

section tcp

variable {c : Tcp} {count m : ℕ} {mem : Memory}

theorem waiting_succ (c : Tcp) (m : ℕ) : c.waiting (m + 1) = c.waiting m + match c.next m with
    | .data more => more + 1
    | _ => 0 := Finset.sum_range_succ _ m

theorem interrupted_succ (c : Tcp) (m : ℕ) :
    c.interrupted (m + 1) = c.interrupted m + if c.next m = .intr then 1 else 0 := Finset.sum_range_succ _ m

/-- The loop still asks for bytes after the first `m` calls of `recv`. -/
def Asking (c : Tcp) (count m : ℕ) : Prop := c.waiting m < count + c.interrupted m

instance (c : Tcp) (count m : ℕ) : Decidable (Asking c count m) := inferInstanceAs (Decidable (_ < _))

/-- The bytes that have been received, which are never more than there are asked for. -/
def got (c : Tcp) (count m : ℕ) : ℕ := min (c.waiting m) (count + c.interrupted m)

theorem store_store (c : Tcp) (calls n k : ℕ) (mem : Memory) :
    Tcp.store { c with received := c.received + n, calls } n k (c.store 0 n mem) = c.store 0 (n + k) mem := by
  funext i
  unfold Tcp.store
  dsimp only
  by_cases hsecond : (n : ℤ) ≤ i ∧ i < n + k
  · have hindex : c.received + n + (i - n).toNat = c.received + (i - 0).toNat := by omega
    rw [if_pos hsecond, if_pos (by omega), hindex]
  · rw [if_neg hsecond]
    by_cases hfirst : 0 ≤ i ∧ i < 0 + (n : ℤ)
    · rw [if_pos hfirst, if_pos (by omega)]
    · rw [if_neg hfirst, if_neg (by omega)]

/-- The loop gets as far as the first `m` calls of `recv` take it, if none of them fails and it asks for
bytes before each of them.  Without an interruption, what has been received is in the buffer. -/
theorem recvLoop_reach (c : Tcp) (count : ℕ) (mem : Memory)
    (hgoes : ∀ j < m, c.next j ≠ .error ∧ Asking c count j) :
    ∃ mem', (∀ fuel, recvLoop (m + fuel) c count 0 mem =
        recvLoop fuel { c with received := c.received + got c count m, calls := c.calls + m }
          (count + c.interrupted m - got c count m) (got c count m - c.interrupted m) mem') ∧
      (c.interrupted m = 0 → mem' = c.store 0 (got c count m) mem) := by
  induction m with
  | zero =>
      refine ⟨mem, ?_, ?_⟩
      · intro fuel
        simp [got, Tcp.waiting, Tcp.interrupted]
      · intro _
        funext i
        have hnot : ¬ (0 ≤ i ∧ i < 0 + ((got c count 0 : ℕ) : ℤ)) := by
          simp [got, Tcp.waiting]
        exact (if_neg hnot).symm
  | succ m ih =>
      obtain ⟨mem', hloop, hfilled⟩ := ih fun j hj => hgoes j (Nat.lt_succ_of_lt hj)
      obtain ⟨hgoes, hasking⟩ := hgoes m (Nat.lt_succ_self m)
      unfold Asking at hasking
      have hgot : got c count m = c.waiting m := Nat.min_eq_left (Nat.le_of_lt hasking)
      have hmore : count + c.interrupted m - got c count m ≠ 0 := by omega
      have hround : ∀ fuel, recvLoop (m + 1 + fuel) c count 0 mem =
          recvLoop (fuel + 1) { c with received := c.received + got c count m, calls := c.calls + m }
            (count + c.interrupted m - got c count m) (got c count m - c.interrupted m) mem' := by
        intro fuel
        rw [← hloop (fuel + 1), Nat.add_assoc, Nat.add_comm 1 fuel]
      -- data moves both counters on, an end of stream neither of them, and an interruption moves them back
      cases hnext : c.next m with
      | error => exact absurd hnext hgoes
      | data more =>
          have hwaiting : c.waiting (m + 1) = c.waiting m + (more + 1) := by rw [waiting_succ, hnext]
          have hinterrupted : c.interrupted (m + 1) = c.interrupted m := by simp [interrupted_succ, hnext]
          have hread : got c count (m + 1) =
              got c count m + min (more + 1) (count + c.interrupted m - got c count m) := by
            rw [hgot, got, hwaiting, hinterrupted]
            omega
          refine ⟨Tcp.store { c with received := c.received + got c count m, calls := c.calls + m }
            (got c count m - c.interrupted m) (min (more + 1) (count + c.interrupted m - got c count m)) mem',
            ?_, ?_⟩
          · intro fuel
            have hresult : c.results (c.calls + m) = .data more := hnext
            rw [hround, recvLoop, if_neg hmore]
            dsimp only
            rw [hresult]
            dsimp only
            rw [hread, hinterrupted, Nat.sub_add_eq, Nat.add_assoc, Nat.add_assoc, Nat.cast_add,
              add_sub_right_comm]
          · intro hnone
            rw [hinterrupted] at hnone
            rw [hfilled hnone, hread, hnone, Nat.cast_zero, sub_zero, store_store]
      | eof =>
          have hwaiting : c.waiting (m + 1) = c.waiting m := by simp [waiting_succ, hnext]
          have hinterrupted : c.interrupted (m + 1) = c.interrupted m := by simp [interrupted_succ, hnext]
          have hread : got c count (m + 1) = got c count m := by
            unfold got
            rw [hwaiting, hinterrupted]
          refine ⟨mem', ?_, ?_⟩
          · intro fuel
            rw [hround, recvLoop, if_neg hmore]
            have hresult : c.results (c.calls + m) = .eof := hnext
            dsimp only
            rw [hresult, hread, hinterrupted, Nat.add_assoc]
          · rw [hinterrupted, hread]
            exact hfilled
      | intr =>
          have hwaiting : c.waiting (m + 1) = c.waiting m := by simp [waiting_succ, hnext]
          have hinterrupted : c.interrupted (m + 1) = c.interrupted m + 1 := by simp [interrupted_succ, hnext]
          have hread : got c count (m + 1) = got c count m := by
            unfold got at hgot ⊢
            omega
          refine ⟨mem', ?_, fun hnone => by omega⟩
          intro fuel
          rw [hround, recvLoop, if_neg hmore]
          have hresult : c.results (c.calls + m) = .intr := hnext
          have hcount : count + c.interrupted m - got c count m + 1 =
              count + c.interrupted (m + 1) - got c count (m + 1) := by
            omega
          dsimp only
          rw [hresult]
          dsimp only
          rw [hcount, hread, hinterrupted, Nat.add_assoc, Nat.cast_add, Nat.cast_one, sub_sub]

/-- The loop ends after the first `m` calls of `recv`: it has all the bytes, or the next call fails. -/
structure Ends (c : Tcp) (count m : ℕ) : Prop where
  goes : ∀ j < m, c.next j ≠ .error ∧ Asking c count j
  stops : Asking c count m → c.next m = .error

theorem recvLoop_eq_none (c : Tcp) (count : ℕ) (mem : Memory) {fuel : ℕ}
    (hgoes : ∀ j < m, c.next j ≠ .error ∧ Asking c count j) (hle : fuel ≤ m) :
    recvLoop fuel c count 0 mem = none := by
  obtain ⟨mem', hloop, -⟩ := recvLoop_reach c count mem fun j hj => hgoes j (Nat.lt_of_lt_of_le hj hle)
  exact hloop 0

theorem recvLoop_ends (h : Ends c count m) (mem : Memory) :
    ∃ rc c' mem', (∀ fuel r, recvLoop fuel c count 0 mem = some r ↔ m < fuel ∧ r = (rc, c', mem')) ∧
      (Asking c count m → rc = errorRead) ∧
      (¬ Asking c count m → rc = 0 ∧ c'.received = c.received + (count + c.interrupted m) ∧
        (c.interrupted m = 0 → mem' = c.store 0 count mem)) := by
  obtain ⟨mem', hloop, hfilled⟩ := recvLoop_reach c count mem h.goes
  -- with more rounds than calls of `recv` the result is always the same
  have hresult : ∀ r₀, (∀ fuel, recvLoop (m + (fuel + 1)) c count 0 mem = some r₀) →
      ∀ fuel r, recvLoop fuel c count 0 mem = some r ↔ m < fuel ∧ r = r₀ := by
    intro r₀ hlong fuel r
    by_cases hle : fuel ≤ m
    · rw [recvLoop_eq_none c count mem h.goes hle]
      exact iff_of_false nofun fun h => absurd h.1 (not_lt.mpr hle)
    · obtain ⟨more, rfl⟩ : ∃ more, fuel = m + (more + 1) := ⟨fuel - m - 1, by omega⟩
      rw [hlong, Option.some_inj, eq_comm]
      exact (and_iff_right (by omega)).symm
  by_cases hasking : Asking c count m
  · have hmore : count + c.interrupted m - got c count m ≠ 0 := by
      unfold Asking at hasking
      unfold got
      omega
    have herror : c.results (c.calls + m) = .error := h.stops hasking
    have hlong : ∀ fuel, recvLoop (m + (fuel + 1)) c count 0 mem = some (errorRead,
        { c with received := c.received + got c count m, calls := c.calls + m + 1 }, mem') := by
      intro fuel
      rw [hloop, recvLoop, if_neg hmore]
      dsimp only
      rw [herror]
    exact ⟨_, _, _, hresult _ hlong, fun _ => rfl, fun hnot => absurd hasking hnot⟩
  · have hgot : got c count m = count + c.interrupted m := by
      unfold Asking at hasking
      unfold got
      omega
    have hlong : ∀ fuel, recvLoop (m + (fuel + 1)) c count 0 mem = some (0,
        { c with received := c.received + got c count m, calls := c.calls + m }, mem') := by
      intro fuel
      rw [hloop, recvLoop, if_pos (by omega)]
    refine ⟨_, _, _, hresult _ hlong, fun h => absurd h hasking, fun _ => ⟨rfl, ?_, ?_⟩⟩
    · rw [hgot]
    · intro hnone
      rw [hfilled hnone, hgot, hnone, Nat.add_zero]

theorem not_asking_of_ends {k : ℕ} (h : ∀ m, ¬ Ends c count m) :
    ∀ j < k, c.next j ≠ .error ∧ Asking c count j := by
  intro j
  induction j using Nat.strong_induction_on with
  | _ j ih =>
      intro hj
      have hgoes : ∀ i < j, c.next i ≠ .error ∧ Asking c count i := fun i hi => ih i hi (by omega)
      constructor
      · exact fun herror => h j ⟨hgoes, fun _ => herror⟩
      · by_contra hnot
        exact h j ⟨hgoes, fun hasking => absurd hasking hnot⟩

theorem recvLoop_endless (h : ∀ m, ¬ Ends c count m) (mem : Memory) (fuel : ℕ) :
    recvLoop fuel c count 0 mem = none :=
  recvLoop_eq_none c count mem (not_asking_of_ends h) (le_refl fuel)

theorem callFits_iff (c : Tcp) (count : ℕ) :
    c.CallFits count ↔ ∃ m, Ends c count m ∧ (Asking c count m ∨ c.interrupted m = 0) := by
  constructor
  · rintro ⟨k, hgoes, ⟨herror, hasking⟩ | ⟨hall, hnone⟩⟩
    · have hends : Ends c count k :=
        ⟨fun j hj => ⟨hgoes j hj, hasking j (Nat.le_of_lt hj)⟩, fun _ => herror⟩
      exact ⟨k, hends, .inl (hasking k (le_refl k))⟩
    · -- the first moment at which there are enough bytes
      have hdone : ∃ m, ¬ Asking c count m := ⟨k, not_lt.mpr (by rw [hnone]; exact hall)⟩
      have hle : Nat.find hdone ≤ k := Nat.find_min' hdone (not_lt.mpr (by rw [hnone]; exact hall))
      refine ⟨Nat.find hdone, ⟨?_, fun hasking => absurd hasking (Nat.find_spec hdone)⟩, .inr ?_⟩
      · exact fun j hj => ⟨hgoes j (by omega), not_not.mp (Nat.find_min hdone hj)⟩
      · have hmono : c.interrupted (Nat.find hdone) ≤ c.interrupted k :=
          Finset.sum_le_sum_of_subset (Finset.range_mono hle)
        omega
  · rintro ⟨m, hends, hgood⟩
    refine ⟨m, fun j hj => (hends.goes j hj).1, ?_⟩
    by_cases hasking : Asking c count m
    · refine .inl ⟨hends.stops hasking, ?_⟩
      intro j hj
      rcases Nat.lt_or_eq_of_le hj with hj | rfl
      · exact (hends.goes j hj).2
      · exact hasking
    · have hnone := hgood.resolve_left hasking
      refine .inr ⟨?_, hnone⟩
      have hle := not_lt.mp hasking
      rwa [hnone, Nat.add_zero] at hle

theorem serves_tcp_iff (c : Tcp) (count : ℕ) (mem : Memory) : Serves (.tcp c) count mem ↔ c.CallFits count := by
  rw [callFits_iff]
  constructor
  · rintro ⟨fuel, rc, conn', mem', hrun, hfilled⟩
    obtain ⟨⟨rc₁, c₁, mem₁⟩, hloop, hpair⟩ := Option.map_eq_some_iff.mp hrun
    cases hpair
    by_cases hends : ∃ m, Ends c count m
    · obtain ⟨m, hends⟩ := hends
      refine ⟨m, hends, ?_⟩
      -- every interruption has made the loop take one byte more than it was asked for
      by_contra hnot
      obtain ⟨hdone, hinterrupted⟩ := not_or.mp hnot
      obtain ⟨rc, c', mem', hresult, -, hzero⟩ := recvLoop_ends hends mem
      obtain ⟨-, heq⟩ := (hresult fuel _).mp hloop
      cases heq
      obtain ⟨hrc, hreceived, -⟩ := hzero hdone
      have hcount := (hfilled hrc).1
      omega
    · rw [recvLoop_endless (not_exists.mp hends)] at hloop
      exact nomatch hloop
  · rintro ⟨m, hends, hgood⟩
    obtain ⟨rc, c', mem', hresult, herror, hzero⟩ := recvLoop_ends hends mem
    have hloop := (hresult (m + 1) _).mpr ⟨Nat.lt_succ_self m, rfl⟩
    refine ⟨m + 1, rc, .tcp c', mem', by rw [netRead, hloop]; rfl, ?_⟩
    intro hrc
    have hdone : ¬ Asking c count m := by
      intro hasking
      rw [herror hasking] at hrc
      exact absurd hrc (by decide)
    have hnone := hgood.resolve_left hdone
    obtain ⟨-, hreceived, hmem⟩ := hzero hdone
    rw [hnone, Nat.add_zero] at hreceived
    refine ⟨hreceived, ?_, ?_⟩
    · intro i hi
      rw [hmem hnone]
      exact if_pos (by omega)
    · intro i hi
      rw [hmem hnone]
      exact if_neg (by omega)

end tcp

/-! ### Calls -/

theorem serves_udp_iff (u : Udp) (count : ℕ) (mem : Memory) :
    Serves (.udp u) count mem ↔ CallFits (.udp u) count mem := by
  constructor
  · rintro ⟨fuel, rc, conn', mem', hrun, hfilled⟩
    by_cases hshort : u.count < count
    · exact .inl hshort
    · rw [netRead, if_neg hshort] at hrun
      obtain ⟨rfl, hpair⟩ := Prod.mk.inj (Option.some.inj hrun)
      obtain ⟨rfl, rfl⟩ := Prod.mk.inj hpair
      exact .inr (hfilled rfl).2.1
  · intro hfits
    by_cases hshort : u.count < count
    · exact ⟨0, errorRead, _, mem, if_pos hshort, fun h => absurd h (by decide)⟩
    · refine ⟨0, 0, _, mem, if_neg hshort, fun _ => ⟨rfl, hfits.resolve_left hshort, fun _ _ => rfl⟩⟩

theorem serves_iff (conn : Conn) (count : ℕ) (mem : Memory) :
    Serves conn count mem ↔ CallFits conn count mem := by
  cases conn with
  | tcp c => exact serves_tcp_iff c count mem
  | udp u => exact serves_udp_iff u count mem

/-- Every call of a sequence serves the caller if every call fits, and only then. -/
theorem netRead_iff (conn : Conn) (calls : List Call) : ServesAll conn calls ↔ FitsAll conn calls := by
  induction calls generalizing conn with
  | nil => exact Iff.rfl
  | cons call calls ih =>
      refine and_congr (serves_iff conn call.count call.mem) ?_
      exact forall_congr' fun _ => forall_congr' fun _ => forall_congr' fun conn' => forall_congr' fun _ =>
        imp_congr_right fun _ => ih conn'

/-- Memory with nothing in it. -/
def emptyMemory : Memory := fun _ => 0

/-- The stream has ended before anything came, a signal comes before the first byte, and a datagram of one
byte is asked for. -/
theorem netRead_fails :
    ¬ ServesAll (.tcp ⟨fun _ => 1, 0, fun _ => .eof, 0⟩) [⟨1, emptyMemory⟩] ∧
      ¬ ServesAll (.tcp ⟨fun _ => 1, 0, fun j => if j = 0 then .intr else .data 7, 0⟩) [⟨1, emptyMemory⟩] ∧
      ¬ ServesAll (acceptUdp 0 [1]) [⟨1, emptyMemory⟩] := by
  refine ⟨?_, ?_, ?_⟩
  · rintro ⟨hserves, -⟩
    obtain ⟨k, -, ⟨herror, -⟩ | ⟨hall, -⟩⟩ := (serves_iff _ _ _).mp hserves
    · exact nomatch herror
    · simp [Tcp.waiting, Tcp.next] at hall
  · rintro ⟨hserves, -⟩
    obtain ⟨k, -, ⟨herror, -⟩ | ⟨hall, hnone⟩⟩ := (serves_iff _ _ _).mp hserves
    · simp only [Tcp.next, Nat.zero_add] at herror
      split at herror
      · exact nomatch herror
      · exact nomatch herror
    · have hzero := Finset.sum_eq_zero_iff.mp hnone
      by_cases hk : k = 0
      · rw [hk] at hall
        exact absurd hall (by decide)
      · exact absurd (hzero 0 (Finset.mem_range.mpr (Nat.pos_of_ne_zero hk))) (by decide)
  · rintro ⟨hserves, -⟩
    rcases (serves_iff _ _ _).mp hserves with hshort | hsame
    · exact absurd hshort (by decide)
    · exact absurd (hsame 0 (by decide)) (by decide)

end Netsrv
end Mkfli4l
