import Mkfli4l.Lib.CNumber
import Mkfli4l.Lib.Loops
import Mkfli4l.Lib.Numerals

/-!
# File transfers between `flicp` and `imond`

`flicp` and `imond` move files over a connection with one stream of bytes in each direction.  What one side
writes arrives in any fragments: a `recv` or `read` returns some of the bytes in flight, at least one and
at most as many as are asked for.

In a download the server waits for one acknowledgement after each block of 1024 bytes, and the client
acknowledges every fragment.  The client does not cut the target file either.  So the transfer is right
only if there are as many fragments as blocks and the old file is not longer.  In an upload the size of
the file goes through an `int`.  `transfer_right_iff` says when the transfers that both sides take for
successful are right.
-/

namespace Mkfli4l
namespace Imond
namespace Transfer

open Lib

/-- `TRANSFER_BUFFER_SIZE`. -/
def blockSize : ℕ := 1024

/-- `ACK_CHAR`. -/
def ack : UInt8 := 6

/-- `NAK_CHAR`. -/
def nak : UInt8 := 21

/-- The bytes of a text. -/
def bytesOf (text : CString) : Bytes := text.map fun c => UInt8.ofNat c.toNat

/-- The text of bytes. -/
def textOf (bytes : Bytes) : CString := bytes.map fun b => Char.ofNat b.toNat

/-- The answers with which a command ends. -/
def okLine : Bytes := bytesOf "OK\r\n".toList

def errLine : Bytes := bytesOf "ERR\r\n".toList

/-- The number of blocks of a file. -/
def blocks (length : ℕ) : ℕ := (length + 1023) / 1024

/-! ## Downloads -/

namespace Download

/-- `send_file`: the file is about to be opened, the rest is about to be sent, or it is about to be sent
once an acknowledgement has been read; in the end `send_file` returns `OK` or not. -/
inductive Server
  | start
  | sending (rest : Bytes)
  | awaiting (rest : Bytes)
  | done (ok : Bool)
deriving DecidableEq

/-- `flicp`: it reads the answer, with the characters kept so far and the number of all, or it receives
the file; in the end it exits with success or not. -/
inductive Client
  | answer (buf : Bytes) (len : ℕ)
  | receiving (size recvBytes : ℤ)
  | done (ok : Bool)
deriving DecidableEq

/-- Both sides, the bytes in flight to the client and to the server, and the bytes that have been written
to the target file. -/
structure State where
  server : Server
  client : Client
  down : Bytes
  up : Bytes
  received : Bytes

/-- The command has been sent and read. -/
def State.init : State := ⟨.start, .answer [] 0, [], [], []⟩

/-- The line with the size of the file. -/
def header (nbytes : ℕ) : Bytes :=
  bytesOf ("OK ".toList ++ formatInt nbytes) ++ bytesOf "\r\n".toList

/-- The next step of `send_file` and of `print_status`, for a file that can be opened or not. -/
def serverStep (file : Option Bytes) (s : State) : Option State :=
  match s.server with
  | .start =>
      match file with
      | some source =>
          some { s with server := .sending source, down := s.down ++ header source.length }
      | none => some { s with server := .done false, down := s.down ++ errLine }
  | .sending rest =>
      if rest = [] then some { s with server := .done true, down := s.down ++ okLine }
      else some { s with
        server := .awaiting (rest.drop blockSize)
        down := s.down ++ rest.take blockSize }
  | .awaiting rest =>
      match s.up with
      | [] => none
      | b :: up =>
          if b = nak then
            some { s with server := .done false, up := up, down := s.down ++ errLine }
          else some { s with server := .sending rest, up := up }
  | .done _ => none

/-- The result of `get_answer`. -/
def parseAnswer (buf : Bytes) (len : ℕ) : Option Bytes :=
  if bytesOf "OK ".toList <+: buf then some (buf.drop 3)
  else if 2 < len ∧ buf.drop (len - 2) = bytesOf "OK".toList then some (buf.take (len - 2))
  else if len = 2 ∧ buf = bytesOf "OK".toList then some buf
  else none

/-- One round of `get_answer`, and at the end of the line the size. -/
def readAnswer (s : State) : Option State :=
  match s.client, s.down with
  | .answer buf len, b :: down =>
      if b = 10 then
        match parseAnswer buf (len + 1) with
        | some answer =>
            some { s with client := .receiving (atoi (textOf answer)) 0, down := down }
        | none => some { s with client := .done false, down := down }
      else if b = 13 then some { s with client := .answer buf (len + 1), down := down }
      else some { s with client := .answer (buf ++ [b]) (len + 1), down := down }
  | _, _ => none

/-- One round of the loop of `flicp`, in which `recv` returns `nowrecv` bytes. -/
def recv (nowrecv : ℕ) (s : State) : Option State :=
  match s.client with
  | .receiving size recvBytes =>
      if recvBytes < size ∧ 1 ≤ nowrecv ∧ nowrecv ≤ 1024 ∧ nowrecv ≤ s.down.length then
        some { s with
          client := .receiving size (toInt32 (recvBytes + nowrecv))
          down := s.down.drop nowrecv
          up := s.up ++ [ack]
          received := s.received ++ s.down.take nowrecv }
      else none
  | _ => none

/-- The end of `flicp`.  A wrong size is an error unless `flicp` is silent. -/
def finish (silent : Bool) (s : State) : Option State :=
  match s.client with
  | .receiving size recvBytes =>
      if recvBytes < size then none
      else some { s with client := .done (decide (recvBytes = size) || silent) }
  | _ => none

/-- The steps of both sides. -/
inductive Event
  | server
  | readAnswer
  | recv (nowrecv : ℕ)
  | finish

def step (silent : Bool) (file : Option Bytes) (s : State) : Event → Option State
  | .server => serverStep file s
  | .readAnswer => readAnswer s
  | .recv nowrecv => recv nowrecv s
  | .finish => finish silent s

/-- A run from the beginning. -/
def run (silent : Bool) (file : Option Bytes) (events : List Event) : Option State :=
  events.foldlM (step silent file) State.init

/-- The sizes of the fragments in which the file is received. -/
def fragments (events : List Event) : List ℕ :=
  events.filterMap fun event =>
    match event with
    | .recv nowrecv => some nowrecv
    | _ => none

/-- The run has come to its end, and both sides report success. -/
structure Succeeded (s : State) : Prop where
  server : s.server = .done true
  client : s.client = .done true

/-- The target file, which is opened without being cut. -/
def target (old : Bytes) (s : State) : Bytes := s.received ++ old.drop s.received.length

/-! ### What has been sent and received -/

section Runs

variable {source : Bytes} {silent : Bool} {sizes : List ℕ} {s s' : State}

/-- The part of the first line that `get_answer` keeps. -/
def headerText (nbytes : ℕ) : Bytes := bytesOf ("OK ".toList ++ formatInt nbytes)

/-- The size that the client takes from the first line. -/
def sizeSeen (nbytes : ℕ) : ℤ := atoi (textOf ((headerText nbytes).drop 3))

/-- What the server has written, and how many acknowledgements it has read for it. -/
inductive ServerAt (source : Bytes) : Server → ℕ → Bytes → Prop
  | start : ServerAt source .start 0 []
  | sending (acked : ℕ) (h : 1024 * acked < source.length + 1024) :
      ServerAt source (.sending (source.drop (1024 * acked))) acked
        (header source.length ++ source.take (1024 * acked))
  | awaiting (acked : ℕ) (h : 1024 * acked < source.length) :
      ServerAt source (.awaiting (source.drop (1024 * (acked + 1)))) acked
        (header source.length ++ source.take (1024 * (acked + 1)))
  | done : ServerAt source (.done true) (blocks source.length)
      (header source.length ++ source ++ okLine)

/-- What the client has taken from the stream, and what of this it has written. -/
inductive ClientAt (source : Bytes) : Client → Bytes → Bytes → Prop
  | text (len : ℕ) (h : len ≤ (headerText source.length).length) :
      ClientAt source (.answer ((headerText source.length).take len) len) []
        ((headerText source.length).take len)
  | lineEnd : ClientAt source
      (.answer (headerText source.length) ((headerText source.length).length + 1)) []
      (headerText source.length ++ [13])
  | receiving (received : Bytes) :
      ClientAt source (.receiving (sizeSeen source.length) (toInt32 received.length)) received
        (header source.length ++ received)
  | done (received : Bytes) (ok : Bool) (h : sizeSeen source.length ≤ received.length) :
      ClientAt source (.done ok) received (header source.length ++ received)

/-- What holds after a run in which the client has received fragments of some sizes: what has been written
has been read or is in flight, every fragment has been acknowledged, and the file is exceeded only after
more fragments than there are blocks. -/
structure Invariant (source : Bytes) (sizes : List ℕ) (s : State) : Prop where
  flow : ∃ acked sent taken, ServerAt source s.server acked sent ∧
    ClientAt source s.client s.received taken ∧ sent = taken ++ s.down ∧
    sizes.length = acked + s.up.length
  acks : ∀ b ∈ s.up, b = ack
  sum_eq : sizes.sum = s.received.length
  bounded : s.received.length ≤ source.length ∨ blocks source.length < sizes.length

theorem init_invariant (source : Bytes) : Invariant source [] State.init := by
  refine ⟨⟨0, [], [], .start, .text 0 (Nat.zero_le _), rfl, rfl⟩, ?_, rfl, ?_⟩
  · simp [State.init]
  · exact Or.inl (Nat.zero_le _)

theorem header_eq (nbytes : ℕ) : header nbytes = headerText nbytes ++ [13] ++ [10] := by
  unfold header headerText
  rw [List.append_assoc]
  rfl

/-- A step of the server keeps the invariant. -/
theorem serverStep_invariant (h : serverStep (some source) s = some s')
    (hs : Invariant source sizes s) : Invariant source sizes s' := by
  obtain ⟨⟨acked, sent, taken, hserver, hclient, hsent, hcount⟩, hacks, hsum, hbounded⟩ := hs
  obtain ⟨server, client, down, up, received⟩ := s
  dsimp only at *
  cases hserver with
  | start =>
      simp only [serverStep, Option.some.injEq] at h
      subst h
      -- nothing is in flight yet, and the first line is written
      obtain ⟨rfl, rfl⟩ := List.append_eq_nil_iff.mp hsent.symm
      refine ⟨⟨0, _, [], .sending 0 (by omega), hclient, ?_, hcount⟩, hacks, hsum, hbounded⟩
      simp
  | sending _ hacked =>
      simp only [serverStep] at h
      split at h
      · next hrest =>
          rw [Option.some.injEq] at h
          subst h
          -- the file has been sent, and every block of it has been acknowledged
          have hlength := List.drop_eq_nil_iff.mp hrest
          have hblocks : blocks source.length = acked := by
            unfold blocks
            omega
          refine ⟨⟨_, _, _, .done, hclient, ?_, ?_⟩, hacks, hsum, hbounded⟩
          · rw [List.take_of_length_le hlength] at hsent
            show header source.length ++ source ++ okLine = taken ++ (down ++ okLine)
            rw [hsent, List.append_assoc]
          · rw [hblocks]
            exact hcount
      · next hrest =>
          rw [Option.some.injEq] at h
          subst h
          -- the next block, which is not acknowledged yet
          have hlength : 1024 * acked < source.length := by
            by_contra hle
            exact hrest (List.drop_eq_nil_iff.mpr (by omega))
          have hnext : 1024 * (acked + 1) = 1024 * acked + 1024 := by omega
          refine ⟨⟨acked, header source.length ++ source.take (1024 * (acked + 1)), taken, ?_, hclient,
            ?_, hcount⟩, hacks, hsum, hbounded⟩
          · show ServerAt source (.awaiting ((source.drop (1024 * acked)).drop 1024)) acked _
            rw [List.drop_drop, ← hnext]
            exact ServerAt.awaiting acked hlength
          · show _ = taken ++ (down ++ (source.drop (1024 * acked)).take 1024)
            rw [← List.append_assoc, ← hsent, List.append_assoc, hnext, List.take_add]
  | awaiting _ hacked =>
      cases up with
      | nil => simp [serverStep] at h
      | cons b up =>
          -- the client never sends anything but acknowledgements
          have hb : b = ack := hacks b List.mem_cons_self
          subst hb
          have hnak : ¬ ack = nak := by decide
          simp only [serverStep, if_neg hnak, Option.some.injEq] at h
          subst h
          refine ⟨⟨acked + 1, _, taken, .sending (acked + 1) (by omega), hclient, hsent, ?_⟩, ?_, hsum,
            hbounded⟩
          · rw [List.length_cons] at hcount
            show sizes.length = acked + 1 + up.length
            omega
          · exact fun b hb => hacks b (List.mem_cons_of_mem _ hb)
  | done => simp [serverStep] at h

theorem not_lineEnd_of_mem_headerText {n : ℕ} {b : UInt8} (h : b ∈ headerText n) :
    b ≠ 10 ∧ b ≠ 13 := by
  unfold headerText bytesOf at h
  obtain ⟨c, hc, rfl⟩ := List.mem_map.mp h
  rw [formatInt_natCast] at hc
  rcases List.mem_append.mp hc with hc | hc
  · have hchar : c = 'O' ∨ c = 'K' ∨ c = ' ' := by simpa using hc
    rcases hchar with rfl | rfl | rfl
    · decide
    · decide
    · decide
  · have hdigit := Nat.isDigit_of_mem_toDigits (by omega) (by omega) hc
    have hrange : 48 ≤ c.toNat ∧ c.toNat ≤ 57 := by
      simpa [Char.isDigit, UInt32.le_iff_toNat_le] using hdigit
    have hnat : (UInt8.ofNat c.toNat).toNat = c.toNat := by
      rw [UInt8.toNat_ofNat', Nat.mod_eq_of_lt (by omega)]
    constructor
    · intro heq
      rw [heq] at hnat
      simp at hnat
      omega
    · intro heq
      rw [heq] at hnat
      simp at hnat
      omega

theorem ServerAt.sent_cases {server : Server} {acked : ℕ} {sent : Bytes}
    (h : ServerAt source server acked sent) : sent = [] ∨ ∃ rest,
      sent = headerText source.length ++ 13 :: 10 :: rest := by
  cases h with
  | start => exact Or.inl rfl
  | sending _ _ => exact Or.inr ⟨source.take (1024 * acked), by simp [header_eq]⟩
  | awaiting _ _ => exact Or.inr ⟨source.take (1024 * (acked + 1)), by simp [header_eq]⟩
  | done => exact Or.inr ⟨source ++ okLine, by simp [header_eq]⟩

theorem parseAnswer_headerText (n len : ℕ) :
    parseAnswer (headerText n) len = some ((headerText n).drop 3) := by
  have hprefix : bytesOf "OK ".toList <+: headerText n := by
    unfold headerText bytesOf
    rw [List.map_append]
    exact List.prefix_append _ _
  unfold parseAnswer
  rw [if_pos hprefix]

/-- A step of `get_answer` keeps the invariant. -/
theorem readAnswer_invariant (h : readAnswer s = some s') (hs : Invariant source sizes s) :
    Invariant source sizes s' := by
  obtain ⟨⟨acked, sent, taken, hserver, hclient, hsent, hcount⟩, hacks, hsum, hbounded⟩ := hs
  obtain ⟨server, client, down, up, received⟩ := s
  dsimp only at *
  cases down with
  | nil => cases client <;> simp [readAnswer] at h
  | cons b down =>
      obtain ⟨rest, hline⟩ : ∃ rest, sent = headerText source.length ++ 13 :: 10 :: rest := by
        rcases hserver.sent_cases with hnil | hline
        · rw [hnil] at hsent
          simp at hsent
        · exact hline
      rw [hline] at hsent
      cases hclient with
      | receiving _ => simp [readAnswer] at h
      | done _ _ _ => simp [readAnswer] at h
      | lineEnd =>
          -- this is the end of the line
          simp at hsent
          obtain ⟨rfl, rfl⟩ := hsent
          simp only [readAnswer, if_pos, parseAnswer_headerText, Option.some.injEq] at h
          subst h
          refine ⟨⟨acked, sent, header source.length ++ [], hserver, .receiving [], ?_, hcount⟩, hacks,
            hsum, hbounded⟩
          simp [hline, header_eq]
      | text len hlen =>
          by_cases hlast : len = (headerText source.length).length
          · -- the carriage return, which is not kept
            rw [hlast, List.take_length] at hsent
            simp at hsent
            obtain ⟨rfl, rfl⟩ := hsent
            simp only [readAnswer, if_neg (by decide : ¬ (13 : UInt8) = 10), if_pos,
              Option.some.injEq] at h
            subst h
            refine ⟨⟨acked, sent, headerText source.length ++ [13], hserver, ?_, ?_, hcount⟩, hacks,
              hsum, hbounded⟩
            · rw [hlast, List.take_length]
              exact ClientAt.lineEnd
            · simp [hline]
          · have hlt : len < (headerText source.length).length := by omega
            -- the next character of the line
            have hnext : (headerText source.length).drop len ++ 13 :: 10 :: rest = b :: down := by
              have hdrop := congrArg (List.drop len) hsent
              rw [List.drop_append_of_le_length hlen, List.drop_left' (List.length_take_of_le hlen)]
                at hdrop
              exact hdrop
            rw [List.drop_eq_getElem_cons hlt, List.cons_append, List.cons.injEq] at hnext
            obtain ⟨rfl, rfl⟩ := hnext
            obtain ⟨hnl, hcr⟩ := not_lineEnd_of_mem_headerText
              (List.getElem_mem hlt : (headerText source.length)[len] ∈ headerText source.length)
            simp only [readAnswer, if_neg hnl, if_neg hcr, Option.some.injEq] at h
            subst h
            refine ⟨⟨acked, sent, (headerText source.length).take (len + 1), hserver, ?_, ?_, hcount⟩,
              hacks, hsum, hbounded⟩
            · show ClientAt source (.answer ((headerText source.length).take len ++
                [(headerText source.length)[len]]) (len + 1)) [] _
              rw [List.take_concat_get' _ _ hlt]
              exact ClientAt.text (len + 1) hlt
            · show sent = _ ++ ((headerText source.length).drop (len + 1) ++ 13 :: 10 :: rest)
              rw [hline, ← List.append_assoc, List.take_append_drop]

/-- A fragment that is received keeps the invariant. -/
theorem recv_invariant {nowrecv : ℕ} (h : recv nowrecv s = some s')
    (hs : Invariant source sizes s) : Invariant source (sizes ++ [nowrecv]) s' := by
  obtain ⟨⟨acked, sent, taken, hserver, hclient, hsent, hcount⟩, hacks, hsum, hbounded⟩ := hs
  obtain ⟨server, client, down, up, received⟩ := s
  dsimp only at *
  cases hclient with
  | text _ _ => simp [recv] at h
  | lineEnd => simp [recv] at h
  | done _ _ _ => simp [recv] at h
  | receiving _ =>
      simp only [recv] at h
      split at h
      · next hsize =>
          obtain ⟨-, hpos, hmax, hlength⟩ := hsize
          rw [Option.some.injEq] at h
          subst h
          have htaken : (received ++ down.take nowrecv).length = received.length + nowrecv := by
            rw [List.length_append, List.length_take, Nat.min_eq_left hlength]
          refine ⟨⟨acked, sent, header source.length ++ (received ++ down.take nowrecv), hserver, ?_, ?_,
            ?_⟩, ?_, ?_, ?_⟩
          · show ClientAt source
              (.receiving (sizeSeen source.length) (toInt32 (toInt32 received.length + nowrecv))) _ _
            -- the counter of the client wraps around with the sum
            have hcast : toInt32 (toInt32 received.length + nowrecv) =
                toInt32 ((received ++ down.take nowrecv).length : ℕ) := by
              rw [htaken, toInt32_add]
              push_cast
              rfl
            rw [hcast]
            exact ClientAt.receiving _
          · rw [hsent]
            simp
          · rw [List.length_append, List.length_singleton, hcount]
            show _ = acked + (up ++ [ack]).length
            rw [List.length_append, List.length_singleton]
            omega
          · intro b hb
            rcases List.mem_append.mp hb with hb | hb
            · exact hacks b hb
            · exact List.mem_singleton.mp hb
          · rw [List.sum_append, hsum, List.sum_singleton]
            exact htaken.symm
          · show (received ++ down.take nowrecv).length ≤ source.length ∨ _
            rw [htaken, List.length_append, List.length_singleton, hcount]
            have hlen := congrArg List.length hsent
            cases hserver with
            | start =>
                simp at hlen
                omega
            | sending _ _ =>
                simp at hlen
                omega
            | awaiting _ _ =>
                simp at hlen
                omega
            | done =>
                -- the server has read an acknowledgement for every block before this fragment
                right
                omega
      · contradiction

/-- The end of the client keeps the invariant. -/
theorem finish_invariant (h : finish silent s = some s') (hs : Invariant source sizes s) :
    Invariant source sizes s' := by
  obtain ⟨⟨acked, sent, taken, hserver, hclient, hsent, hcount⟩, hacks, hsum, hbounded⟩ := hs
  obtain ⟨server, client, down, up, received⟩ := s
  dsimp only at *
  cases hclient with
  | text _ _ => simp [finish] at h
  | lineEnd => simp [finish] at h
  | done _ _ _ => simp [finish] at h
  | receiving _ =>
      simp only [finish] at h
      split at h
      · contradiction
      · next hsize =>
          rw [Option.some.injEq] at h
          subst h
          -- the counter never exceeds what has been received
          have hcounted := toInt32_natCast_le received.length
          exact ⟨⟨acked, sent, _, hserver, .done received _ (by omega), hsent, hcount⟩, hacks, hsum,
            hbounded⟩

/-- The invariant holds after every run. -/
theorem run_invariant {events : List Event} (h : run silent (some source) events = some s) :
    Invariant source (fragments events) s := by
  refine foldlM_history (I := fun past s => Invariant source (fragments past) s) ?_
    (init_invariant source) h
  intro past event s s' _ hs hstep
  -- only `recv` adds a fragment
  have hfragments (event : Event) :
      fragments (past ++ [event]) = fragments past ++ fragments [event] := List.filterMap_append
  rw [hfragments]
  cases event with
  | server => simpa [fragments] using serverStep_invariant hstep hs
  | readAnswer => simpa [fragments] using readAnswer_invariant hstep hs
  | recv nowrecv => simpa [fragments] using recv_invariant hstep hs
  | finish => simpa [fragments] using finish_invariant hstep hs

/-- A download that both sides take for successful is right if and only if there have been as many
fragments as blocks, and the old file agrees with the source behind what has been received. -/
theorem download_right_iff {old : Bytes} {events : List Event}
    (h : run silent (some source) events = some s) (hdone : Succeeded s) :
    target old s = source ∧ s.up = [] ↔
      (fragments events).length = blocks source.length ∧
        old.drop (fragments events).sum = source.drop (fragments events).sum := by
  obtain ⟨⟨acked, sent, taken, hserver, hclient, hsent, hcount⟩, hacks, hsum, hbounded⟩ :=
    run_invariant h
  rw [hdone.server] at hserver
  rw [hdone.client] at hclient
  cases hserver
  generalize hreceived : s.received = received at hclient
  cases hclient
  have hup : s.up = [] ↔ (fragments events).length = blocks source.length := by
    rw [hcount, ← List.length_eq_zero_iff]
    omega
  rw [hup, hsum, and_comm]
  refine and_congr_right fun hblocks => ?_
  -- the file has not been exceeded, so that a prefix of it has been received
  have hle : s.received.length ≤ source.length := by
    rcases hbounded with hle | hlt
    · exact hle
    · omega
  have hprefix : s.received = source.take s.received.length := by
    rw [List.append_assoc, List.append_assoc, List.append_cancel_left_eq, ← hreceived] at hsent
    have htake := congrArg (List.take s.received.length) hsent
    rw [List.take_append_of_le_length hle, List.take_left] at htake
    exact htake.symm
  have hsplit : source = s.received ++ source.drop s.received.length := by
    conv_lhs => rw [← List.take_append_drop s.received.length source]
    rw [← hprefix]
  unfold target
  constructor
  · intro heq
    rw [hsplit, List.append_cancel_left_eq] at heq
    rw [heq]
  · intro heq
    rw [heq]
    exact hsplit.symm

end Runs

end Download

/-! ## Uploads -/

namespace Upload

/-- `receive_file`: the file is about to be opened, the loop goes on with a number of bytes, or some bytes
of a block are still to be read; in the end `receive_file` returns `OK` or not. -/
inductive Server
  | start
  | loop (nbytes : ℤ)
  | block (left : ℕ) (nbytes : ℤ)
  | done (ok : Bool)
deriving DecidableEq

/-- `flicp`: it waits for an acknowledgement, is at the head of its loop, or reads the answer, with the
number of bytes that have been sent and the rest of the file; in the end it exits with success or not. -/
inductive Client
  | awaiting (sntBytes : ℤ) (rest : Bytes)
  | loop (sntBytes : ℤ) (rest : Bytes)
  | answer
  | done (ok : Bool)
deriving DecidableEq

/-- Both sides, the bytes in flight, and the target file. -/
structure State where
  server : Server
  client : Client
  down : Bytes
  up : Bytes
  written : Bytes

/-- The command has been sent and read. -/
def State.init (source : Bytes) : State := ⟨.start, .awaiting 0 source, [], [], []⟩

/-- `size = fbuf.st_size`, an `int`. -/
def sizeOf (source : Bytes) : ℤ := toInt32 source.length

/-- The next step of `receive_file` and of `print_status` besides reading. -/
def serverStep (canOpen : Bool) (size : ℤ) (s : State) : Option State :=
  match s.server with
  | .start =>
      if canOpen then some { s with server := .loop size, written := [] }
      else some { s with server := .done false, down := s.down ++ nak :: errLine }
  | .loop nbytes =>
      if 0 < nbytes then
        if nbytes < blockSize then
          some { s with server := .block nbytes.toNat 0, down := s.down ++ [ack] }
        else some { s with server := .block blockSize (nbytes - blockSize), down := s.down ++ [ack] }
      else some { s with server := .done true, down := s.down ++ ack :: okLine }
  | _ => none

/-- One `read` of a block, which returns `bytesRead` bytes. -/
def serverRead (bytesRead : ℕ) (s : State) : Option State :=
  match s.server with
  | .block left nbytes =>
      if 1 ≤ bytesRead ∧ bytesRead ≤ left ∧ bytesRead ≤ s.up.length then
        some { s with
          server := if left - bytesRead = 0 then .loop nbytes else .block (left - bytesRead) nbytes
          up := s.up.drop bytesRead
          written := s.written ++ s.up.take bytesRead }
      else none
  | _ => none

/-- The `read` of an acknowledgement, which asks for three bytes. -/
def readAck (bytesRead : ℕ) (s : State) : Option State :=
  match s.client, s.down with
  | .awaiting sntBytes rest, b :: _ =>
      if 1 ≤ bytesRead ∧ bytesRead ≤ 3 ∧ bytesRead ≤ s.down.length then
        some { s with
          client := if b = ack then .loop sntBytes rest else .done false
          down := s.down.drop bytesRead }
      else none
  | _, _ => none

/-- The head of the loop of `flicp`. -/
def clientStep (size : ℤ) (s : State) : Option State :=
  match s.client with
  | .loop sntBytes rest =>
      if sntBytes < size then
        some { s with
          client := .awaiting (toInt32 (sntBytes + (rest.take 1024).length)) (rest.drop 1024)
          up := s.up ++ rest.take 1024 }
      else some { s with client := .answer }
  | _ => none

/-- One round of `get_answer`, whose result `flicp` ignores. -/
def readAnswer (s : State) : Option State :=
  match s.client, s.down with
  | .answer, b :: down =>
      some { s with client := if b = 10 then .done true else .answer, down := down }
  | _, _ => none

/-- The steps of both sides. -/
inductive Event
  | server
  | serverRead (bytesRead : ℕ)
  | readAck (bytesRead : ℕ)
  | client
  | readAnswer

def step (canOpen : Bool) (size : ℤ) (s : State) : Event → Option State
  | .server => serverStep canOpen size s
  | .serverRead bytesRead => serverRead bytesRead s
  | .readAck bytesRead => readAck bytesRead s
  | .client => clientStep size s
  | .readAnswer => readAnswer s

/-- A run from the beginning. -/
def run (canOpen : Bool) (source : Bytes) (events : List Event) : Option State :=
  events.foldlM (step canOpen (sizeOf source)) (State.init source)

/-- The run has come to its end, and both sides report success. -/
structure Succeeded (s : State) : Prop where
  server : s.server = .done true
  client : s.client = .done true

/-! ### What has been sent and written -/

section Runs

variable {source : Bytes} {canOpen : Bool} {s s' : State}

/-- The rest of the file that the client has not sent. -/
inductive Unsent : Client → Bytes → Prop
  | awaiting (sntBytes : ℤ) (rest : Bytes) : Unsent (.awaiting sntBytes rest) rest
  | loop (sntBytes : ℤ) (rest : Bytes) : Unsent (.loop sntBytes rest) rest
  | answer (rest : Bytes) : Unsent .answer rest
  | done (ok : Bool) (rest : Bytes) : Unsent (.done ok) rest

/-- How many bytes the server has written, of a size that it takes for 0 if it is negative. -/
inductive WrittenAt (size : ℤ) : Server → ℕ → Prop
  | start : WrittenAt size .start 0
  | loop (nbytes : ℤ) (written : ℕ) (h : written + max nbytes 0 = max size 0) :
      WrittenAt size (.loop nbytes) written
  | block (left : ℕ) (nbytes : ℤ) (written : ℕ) (hnonneg : 0 ≤ nbytes)
      (h : written + left + nbytes = max size 0) : WrittenAt size (.block left nbytes) written
  | done (written : ℕ) (h : (written : ℤ) = max size 0) : WrittenAt size (.done true) written
  | failed (written : ℕ) : WrittenAt size (.done false) written

/-- What holds after every run: what has been written, what is in flight and what has not been sent is the
source, and the server has written as many bytes as it has counted. -/
structure Invariant (source : Bytes) (s : State) : Prop where
  flow : ∃ rest, Unsent s.client rest ∧ s.written ++ s.up ++ rest = source
  counted : WrittenAt (sizeOf source) s.server s.written.length

theorem init_invariant (source : Bytes) : Invariant source (State.init source) :=
  ⟨⟨source, .awaiting 0 source, rfl⟩, .start⟩

/-- A step of the server besides reading keeps the invariant. -/
theorem serverStep_invariant (h : serverStep canOpen (sizeOf source) s = some s')
    (hs : Invariant source s) : Invariant source s' := by
  obtain ⟨⟨rest, hunsent, hflow⟩, hcounted⟩ := hs
  obtain ⟨server, client, down, up, written⟩ := s
  dsimp only at *
  generalize hlength : written.length = n at hcounted
  cases hcounted with
  | start =>
      obtain rfl := List.length_eq_zero_iff.mp hlength
      simp only [serverStep] at h
      split at h <;> rw [Option.some.injEq] at h <;> subst h
      · exact ⟨⟨rest, hunsent, hflow⟩, .loop _ 0 (by simp)⟩
      · exact ⟨⟨rest, hunsent, hflow⟩, .failed 0⟩
  | loop nbytes _ hn =>
      simp only [serverStep] at h
      split at h
      · next hpos =>
          split at h
          · -- the rest of the file is less than a block
            rw [Option.some.injEq] at h
            subst h
            refine ⟨⟨rest, hunsent, hflow⟩, .block _ 0 _ (by omega) ?_⟩
            show (written.length : ℤ) + (nbytes.toNat : ℤ) + 0 = _
            omega
          · next hblock =>
              rw [Option.some.injEq] at h
              subst h
              unfold blockSize at hblock
              refine ⟨⟨rest, hunsent, hflow⟩, .block _ _ _ ?_ ?_⟩
              · show 0 ≤ nbytes - ((1024 : ℕ) : ℤ)
                omega
              · show (written.length : ℤ) + ((1024 : ℕ) : ℤ) + (nbytes - ((1024 : ℕ) : ℤ)) = _
                omega
      · next hpos =>
          rw [Option.some.injEq] at h
          subst h
          exact ⟨⟨rest, hunsent, hflow⟩, .done _ (by show (written.length : ℤ) = _; omega)⟩
  | block _ _ _ _ _ => simp [serverStep] at h
  | done _ _ => simp [serverStep] at h
  | failed _ => simp [serverStep] at h

/-- Reading a part of a block keeps the invariant. -/
theorem serverRead_invariant {bytesRead : ℕ} (h : serverRead bytesRead s = some s')
    (hs : Invariant source s) : Invariant source s' := by
  obtain ⟨⟨rest, hunsent, hflow⟩, hcounted⟩ := hs
  obtain ⟨server, client, down, up, written⟩ := s
  dsimp only at *
  generalize hlength : written.length = n at hcounted
  cases hcounted with
  | block left nbytes _ hnonneg hn =>
      simp only [serverRead] at h
      split at h
      · next hread =>
          obtain ⟨hpos, hleft, hup⟩ := hread
          rw [Option.some.injEq] at h
          subst h
          have htaken : (written ++ up.take bytesRead).length = n + bytesRead := by
            rw [List.length_append, List.length_take, Nat.min_eq_left hup, hlength]
          refine ⟨⟨rest, hunsent, ?_⟩, ?_⟩
          · show written ++ up.take bytesRead ++ up.drop bytesRead ++ rest = source
            rw [List.append_assoc written, List.take_append_drop]
            exact hflow
          · show WrittenAt _ (if left - bytesRead = 0 then _ else _) (written ++ _).length
            rw [htaken]
            split
            · exact .loop _ _ (by push_cast; omega)
            · exact .block _ _ _ hnonneg (by push_cast; omega)
      · contradiction
  | start => simp [serverRead] at h
  | loop _ _ _ => simp [serverRead] at h
  | done _ _ => simp [serverRead] at h
  | failed _ => simp [serverRead] at h

/-- Reading an acknowledgement keeps the invariant. -/
theorem readAck_invariant {bytesRead : ℕ} (h : readAck bytesRead s = some s')
    (hs : Invariant source s) : Invariant source s' := by
  obtain ⟨⟨rest, hunsent, hflow⟩, hcounted⟩ := hs
  obtain ⟨server, client, down, up, written⟩ := s
  dsimp only at *
  unfold readAck at h
  dsimp only at h
  split at h
  · next sntBytes rest' b _ =>
      split at h
      · rw [Option.some.injEq] at h
        subst h
        cases hunsent
        refine ⟨⟨rest, ?_, hflow⟩, hcounted⟩
        show Unsent (if b = ack then _ else _) rest
        split
        · exact Unsent.loop _ _
        · exact Unsent.done _ _
      · contradiction
  · contradiction

theorem clientStep_invariant (h : clientStep (sizeOf source) s = some s')
    (hs : Invariant source s) : Invariant source s' := by
  obtain ⟨⟨rest, hunsent, hflow⟩, hcounted⟩ := hs
  obtain ⟨server, client, down, up, written⟩ := s
  dsimp only at *
  cases hunsent with
  | loop sntBytes _ =>
      simp only [clientStep] at h
      split at h <;> rw [Option.some.injEq] at h <;> subst h
      · refine ⟨⟨rest.drop 1024, .awaiting _ _, ?_⟩, hcounted⟩
        show written ++ (up ++ rest.take 1024) ++ rest.drop 1024 = source
        rw [List.append_assoc, List.append_assoc, List.take_append_drop, ← List.append_assoc]
        exact hflow
      · exact ⟨⟨rest, .answer _, hflow⟩, hcounted⟩
  | awaiting _ _ => simp [clientStep] at h
  | answer _ => simp [clientStep] at h
  | done _ _ => simp [clientStep] at h

/-- Reading the answer keeps the invariant. -/
theorem readAnswer_invariant (h : readAnswer s = some s') (hs : Invariant source s) :
    Invariant source s' := by
  obtain ⟨⟨rest, hunsent, hflow⟩, hcounted⟩ := hs
  obtain ⟨server, client, down, up, written⟩ := s
  dsimp only at *
  unfold readAnswer at h
  dsimp only at h
  split at h
  · next b _ =>
      rw [Option.some.injEq] at h
      subst h
      refine ⟨⟨rest, ?_, hflow⟩, hcounted⟩
      show Unsent (if b = 10 then _ else _) rest
      split
      · exact Unsent.done _ _
      · exact Unsent.answer _
  · contradiction

theorem run_invariant {events : List Event} (h : run canOpen source events = some s) :
    Invariant source s := by
  refine foldlM_history (I := fun _ s => Invariant source s) ?_ (init_invariant source) h
  intro past event s s' _ hs hstep
  cases event with
  | server => exact serverStep_invariant hstep hs
  | serverRead bytesRead => exact serverRead_invariant hstep hs
  | readAck bytesRead => exact readAck_invariant hstep hs
  | client => exact clientStep_invariant hstep hs
  | readAnswer => exact readAnswer_invariant hstep hs

theorem upload_right_iff {events : List Event} (h : run canOpen source events = some s)
    (hdone : Succeeded s) : s.written = source ↔ source.length < 2147483648 := by
  obtain ⟨⟨rest, -, hflow⟩, hcounted⟩ := run_invariant h
  rw [hdone.server] at hcounted
  have hwritten : (s.written.length : ℤ) = max (sizeOf source) 0 := by
    generalize s.written.length = n at hcounted
    cases hcounted
    assumption
  unfold sizeOf toInt32 at hwritten
  constructor
  · intro heq
    rw [heq] at hwritten
    omega
  · intro hsize
    have hprefix : s.written <+: source := by
      rw [← hflow, List.append_assoc]
      exact List.prefix_append _ _
    refine hprefix.eq_of_length ?_
    omega

end Runs

end Upload

/-! ## Both directions -/

/-- When transfers that both sides take for successful are right: a download if there have been as many
fragments as blocks, and the old file agrees with the source behind what has been received; an upload if
the size fits into an `int`. -/
theorem transfer_right_iff (source : Bytes) :
    (∀ silent old events s, Download.run silent (some source) events = some s →
      Download.Succeeded s →
      (Download.target old s = source ∧ s.up = [] ↔
        (Download.fragments events).length = blocks source.length ∧
          old.drop (Download.fragments events).sum =
            source.drop (Download.fragments events).sum)) ∧
      ∀ canOpen events s, Upload.run canOpen source events = some s → Upload.Succeeded s →
        (s.written = source ↔ source.length < 2147483648) := by
  constructor
  · intro silent old events s h hdone
    exact Download.download_right_iff h hdone
  · intro canOpen events s h hdone
    exact Upload.upload_right_iff h hdone

/-- The steps of a download in which the answer is read and the file is received in fragments. -/
def Download.events (answer : ℕ) (sizes : List ℕ) : List Download.Event :=
  [.server] ++ List.replicate answer .readAnswer ++ [.server] ++ sizes.map .recv ++
    [.server, .server, .finish]

/-- A file of two blocks; the server reads the first one of an upload in two fragments. -/
theorem transfer_right_iff_twoBlocks :
    (∃ s, Download.run false (some (List.replicate 1025 65)) ([.server] ++ List.replicate 9 .readAnswer ++
        [.server, .recv 1024, .server, .server, .recv 1, .server, .server, .finish]) = some s ∧
      Download.Succeeded s ∧ Download.target [66] s = List.replicate 1025 65 ∧ s.up = []) ∧
    ∃ s, Upload.run true (List.replicate 1025 65) [.server, .server, .readAck 1, .client, .serverRead 1000,
        .serverRead 24, .server, .readAck 1, .client, .serverRead 1, .server, .readAck 3, .client, .readAnswer,
        .readAnswer] = some s ∧
      Upload.Succeeded s ∧ s.written = List.replicate 1025 65 := by
  constructor
  · have hend : (Download.run false (some (List.replicate 1025 65)) ([.server] ++ List.replicate 9 .readAnswer ++
        [.server, .recv 1024, .server, .server, .recv 1, .server, .server, .finish])).any
          (fun s => decide (s.server = .done true ∧ s.client = .done true)) = true := by decide +kernel
    obtain ⟨s, hrun, hdone⟩ := (Option.any_eq_true _ _).mp hend
    obtain ⟨hserver, hclient⟩ := of_decide_eq_true hdone
    exact ⟨s, hrun, ⟨hserver, hclient⟩,
      ((transfer_right_iff _).1 false [66] _ s hrun ⟨hserver, hclient⟩).mpr (by decide +kernel)⟩
  · have hend : (Upload.run true (List.replicate 1025 65) [.server, .server, .readAck 1, .client,
        .serverRead 1000, .serverRead 24, .server, .readAck 1, .client, .serverRead 1, .server, .readAck 3,
        .client, .readAnswer, .readAnswer]).any
          (fun s => decide (s.server = .done true ∧ s.client = .done true)) = true := by decide +kernel
    obtain ⟨s, hrun, hdone⟩ := (Option.any_eq_true _ _).mp hend
    obtain ⟨hserver, hclient⟩ := of_decide_eq_true hdone
    exact ⟨s, hrun, ⟨hserver, hclient⟩,
      ((transfer_right_iff _).2 true _ s hrun ⟨hserver, hclient⟩).mpr (by decide +kernel)⟩

/-- The old file is longer than the source, or a block arrives in two fragments. -/
theorem download_broken :
    (∃ s, Download.run false (some [65]) (Download.events 6 [1]) = some s ∧ Download.Succeeded s ∧
      Download.target [66, 67] s ≠ [65]) ∧
    ∃ s, Download.run false (some [65, 66]) (Download.events 6 [1, 1]) = some s ∧
      Download.Succeeded s ∧ s.up = [ack] := by
  constructor
  · exact ⟨⟨.done true, .done true, okLine, [], [65]⟩, rfl, ⟨rfl, rfl⟩, by decide⟩
  · exact ⟨⟨.done true, .done true, okLine, [ack], [65, 66]⟩, rfl, ⟨rfl, rfl⟩, rfl⟩

end Transfer
end Imond
end Mkfli4l
