import Mkfli4l.Lib.CNumber
import Mkfli4l.Lib.Records

/-!
# Messages of the kernel

`mom_netlink` takes apart what the kernel tells about links, addresses and routes.  A datagram holds
messages, a message holds attributes, and an attribute may hold attributes again, each with its length in
front.  The remaining lengths are unsigned, although the macros that go from one record to the next count on
signed ones: if the last record is not padded, the length wraps around and everything behind it is taken for
records.  A text without characters and an answer to no request are not thought of either.
`readAndProcessMessages_iff` says which datagrams are safe.
-/

namespace Mkfli4l
namespace Netlink

open Lib

/-! ## The program -/

/-- What must not happen: a byte is read that was not received, a remaining length wraps around, a byte is
written outside of a buffer, or an entry is taken that a table does not have. -/
inductive Fault
  | outside
  | wraps
  | copy
  | index
deriving DecidableEq

/-- A datagram, which is no longer than `g_message_buffer`. -/
structure Datagram where
  bytes : List UInt8
  length_le : bytes.length ≤ 65536

namespace Datagram

variable (d : Datagram)

/-- The value of some bytes, the least significant one first. -/
def field (n pos : ℕ) : ℕ := Nat.ofDigits 256 (((d.bytes.drop pos).take n).map UInt8.toNat)

/-- Some bytes are read. -/
def read (pos n : ℕ) : Except Fault (List UInt8) :=
  if pos + n ≤ d.bytes.length then .ok ((d.bytes.drop pos).take n) else .error .outside

/-- A number of some bytes is read. -/
def get (n pos : ℕ) : Except Fault ℕ :=
  if pos + n ≤ d.bytes.length then .ok (d.field n pos) else .error .outside

end Datagram

/-! ### The environment -/

/-- The values of variables, before they are printed. -/
inductive EnvValue
  | text (s : CString)
  | unsigned (n : ℕ)
  | signed (n : ℤ)
  | layer2 (mac : List UInt8)
  | layer3 (family : ℕ) (address : List UInt8)
  | bytes (s : List UInt8)

/-- `struct env_t`. -/
structure EnvEntry where
  name : CString
  value : EnvValue

/-- The assignments for an event, the last one first. -/
abbrev Env := List EnvEntry

def addEnvEntry (env : Env) (name : CString) (value : EnvValue) : Env := ⟨name, value⟩ :: env

def handleFlag (flag : ℕ) (env : Env) (var : CString) : Env :=
  if flag ≠ 0 then addEnvEntry env var (.text "1".toList) else env

/-- The flags of a table, with their masks and variables. -/
def handleFlags (table : List (ℕ × CString)) (flags : ℕ) (env : Env) : Env :=
  table.foldl (fun env entry => handleFlag (flags &&& entry.1) env entry.2) env

/-! ### Attributes -/

def rtaData (rta : Record) : ℕ := rta.pos + 4

def rtaPayload (rta : Record) : ℕ := rta.length - 4

/-- A loop over attributes with `RTA_OK` and `RTA_NEXT`, and the `switch` over their types in it.  The
remaining length is unsigned. -/
def attributeLoop (d : Datagram) (switch : ℕ → Record → Env → Except Fault Env) :
    ℕ → ℕ → Env → Except Fault Env :=
  recordLoop 4 (d.get 2) .wraps fun rta env => do
    let type ← d.get 2 (rta.pos + 2)
    switch type rta env

def handleU8 (d : Datagram) (rta : Record) (env : Env) (var : CString) : Except Fault Env :=
  if 1 ≤ rtaPayload rta then do
    let value ← d.get 1 (rtaData rta)
    .ok (addEnvEntry env var (.unsigned value))
  else .ok env

def handleU32 (d : Datagram) (rta : Record) (env : Env) (var : CString) : Except Fault Env :=
  if 4 ≤ rtaPayload rta then do
    let value ← d.get 4 (rtaData rta)
    .ok (addEnvEntry env var (.unsigned value))
  else .ok env

/-- `strncpy` into a buffer of that size, which is filled up with NUL bytes. -/
def strncpy (src : List UInt8) (n : ℕ) : List UInt8 :=
  src.takeWhile (· ≠ 0) ++ List.replicate (n - (src.takeWhile (· ≠ 0)).length) 0

/-- A byte is stored in a buffer. -/
def storeByte (buf : List UInt8) (i : ℤ) (b : UInt8) : Except Fault (List UInt8) :=
  if 0 ≤ i ∧ i < buf.length then .ok (buf.set i.toNat b) else .error .copy

def handleString (d : Datagram) (rta : Record) (env : Env) (var : CString) : Except Fault Env := do
  let buflen := rtaPayload rta
  let data ← d.read (rtaData rta) buflen
  let buf ← storeByte (strncpy data buflen) (buflen - 1) 0
  .ok (addEnvEntry env var (.bytes (buf.takeWhile (· ≠ 0))))

def arphrdEther : ℕ := 1

def handleLayer2EthernetAddress (d : Datagram) (rta : Record) (env : Env) (var : CString) : Except Fault Env :=
  if 6 ≤ rtaPayload rta then do
    let mac ← d.read (rtaData rta) 6
    .ok (addEnvEntry env var (.layer2 mac))
  else .ok env

def handleLayer2Address (d : Datagram) (type : ℕ) (rta : Record) (env : Env) (var : CString) :
    Except Fault Env :=
  if type = arphrdEther then handleLayer2EthernetAddress d rta env var else .ok env

def afInet : ℕ := 2

def afInet6 : ℕ := 10

def handleLayer3Address (d : Datagram) (family : ℕ) (rta : Record) (env : Env) (var : CString) :
    Except Fault Env :=
  if (family = afInet ∧ 4 ≤ rtaPayload rta) ∨ (family = afInet6 ∧ 16 ≤ rtaPayload rta) then do
    let address ← d.read (rtaData rta) (if family = afInet then 4 else 16)
    .ok (addEnvEntry env var (.layer3 family address))
  else .ok env

/-- The flags `IF_*` of IPv6. -/
def inet6Flags : List (ℕ × CString) :=
  [(0x80000000, "link_net_event_inet6_flag_ready".toList), (0x10, "link_net_event_inet6_flag_rs_sent".toList),
    (0x20, "link_net_event_inet6_flag_ra_rcvd".toList), (0x40, "link_net_event_inet6_flag_ra_managed".toList),
    (0x80, "link_net_event_inet6_flag_ra_otherconf".toList)]

def handleAfInet6Flags (d : Datagram) (rta : Record) (env : Env) : Except Fault Env :=
  if 4 ≤ rtaPayload rta then do
    let flags ← d.get 4 (rtaData rta)
    .ok (handleFlags inet6Flags flags env)
  else .ok env

def iflaInet6Flags : ℕ := 1

def handleAfInet6Attributes (d : Datagram) (rta : Record) (env : Env) : Except Fault Env :=
  attributeLoop d (fun type nestedRta env =>
      if type = iflaInet6Flags then handleAfInet6Flags d nestedRta env else .ok env)
    (rtaData rta) (rtaPayload rta) env

def handleAfSpecAttributes (d : Datagram) (rta : Record) (env : Env) : Except Fault Env :=
  attributeLoop d (fun type familyRta env =>
      if type = afInet6 then handleAfInet6Attributes d familyRta env else .ok env)
    (rtaData rta) (rtaPayload rta) env

/-- What is done with an attribute. -/
inductive AttributeKind
  | layer2Address (type : ℕ) (var : CString)
  | layer3Address (family : ℕ) (var : CString)
  | string (var : CString)
  | u8 (var : CString)
  | u32 (var : CString)
  | afSpec
  | ignored

/-- A case of the `switch` over the attributes of a message. -/
def handleAttribute (d : Datagram) (rta : Record) (env : Env) : AttributeKind → Except Fault Env
  | .layer2Address type var => handleLayer2Address d type rta env var
  | .layer3Address family var => handleLayer3Address d family rta env var
  | .string var => handleString d rta env var
  | .u8 var => handleU8 d rta env var
  | .u32 var => handleU32 d rta env var
  | .afSpec => handleAfSpecAttributes d rta env
  | .ignored => .ok env

/-- The loop over the attributes of a message. -/
def handleAttributes (d : Datagram) (switch : ℕ → AttributeKind) : ℕ → ℕ → Env → Except Fault Env :=
  attributeLoop d fun type rta env => handleAttribute d rta env (switch type)

/-! ### Messages -/

/-- The flags `IFF_*`. -/
def ifinfoFlags : List (ℕ × CString) :=
  [(0x1, "link_net_event_flag_up".toList), (0x2, "link_net_event_flag_broadcast".toList),
    (0x4, "link_net_event_flag_debug".toList), (0x8, "link_net_event_flag_loopback".toList),
    (0x10, "link_net_event_flag_pointopoint".toList), (0x20, "link_net_event_flag_notrailers".toList),
    (0x40, "link_net_event_flag_running".toList), (0x80, "link_net_event_flag_noarp".toList),
    (0x100, "link_net_event_flag_promisc".toList), (0x200, "link_net_event_flag_allmulti".toList),
    (0x400, "link_net_event_flag_master".toList), (0x800, "link_net_event_flag_slave".toList),
    (0x1000, "link_net_event_flag_multicast".toList), (0x2000, "link_net_event_flag_portsel".toList),
    (0x4000, "link_net_event_flag_automedia".toList), (0x8000, "link_net_event_flag_dynamic".toList),
    (0x10000, "link_net_event_flag_lower_up".toList), (0x20000, "link_net_event_flag_dormant".toList),
    (0x40000, "link_net_event_flag_echo".toList)]

/-- The `switch` for links, with the type of the link. -/
def ifinfoAttribute (ifiType : ℕ) : ℕ → AttributeKind
  | 1 => .layer2Address ifiType "link_net_event_address".toList
  | 2 => .layer2Address ifiType "link_net_event_broadcast".toList
  | 3 => .string "link_net_event_ifname".toList
  | 4 => .u32 "link_net_event_mtu".toList
  | 5 => .u32 "link_net_event_link".toList
  | 16 => .u8 "link_net_event_operstate".toList
  | 17 => .u8 "link_net_event_linkmode".toList
  | 26 => .afSpec
  | _ => .ignored

def handleIfinfoMessage (d : Datagram) (message messageLen : ℕ) (env : Env) : Except Fault (Bool × Env) := do
  let family ← d.get 1 message
  let ifiType ← d.get 2 (message + 2)
  let index ← d.get 4 (message + 4)
  let flags ← d.get 4 (message + 8)
  let env := addEnvEntry env "net_event_family".toList (.unsigned family)
  let env := addEnvEntry env "bound_net_event_index".toList (.signed (toInt32 index))
  let env := addEnvEntry env "link_net_event_linktype".toList (.unsigned ifiType)
  let env := handleFlags ifinfoFlags flags env
  let env ← handleAttributes d (ifinfoAttribute ifiType) (message + 16) messageLen env
  .ok (true, env)

/-- The flags `IFA_F_*`. -/
def ifaddrFlags : List (ℕ × CString) :=
  [(0x1, "addr_net_event_flag_temporary".toList), (0x2, "addr_net_event_flag_nodad".toList),
    (0x4, "addr_net_event_flag_optimistic".toList), (0x8, "addr_net_event_flag_dadfailed".toList),
    (0x10, "addr_net_event_flag_homeaddress".toList), (0x20, "addr_net_event_flag_deprecated".toList),
    (0x40, "addr_net_event_flag_tentative".toList), (0x80, "addr_net_event_flag_permanent".toList)]

/-- The `switch` for addresses, with the address family. -/
def ifaddrAttribute (ifaFamily : ℕ) : ℕ → AttributeKind
  | 1 => .layer3Address ifaFamily "addr_net_event_address".toList
  | 2 => .layer3Address ifaFamily "addr_net_event_local".toList
  | 3 => .string "addr_net_event_label".toList
  | 4 => .layer3Address ifaFamily "addr_net_event_broadcast".toList
  | 5 => .layer3Address ifaFamily "addr_net_event_nycast".toList
  | 7 => .layer3Address ifaFamily "addr_net_event_multicast".toList
  | _ => .ignored

def handleIfaddrMessage (d : Datagram) (message messageLen : ℕ) (env : Env) : Except Fault (Bool × Env) := do
  let family ← d.get 1 message
  let prefixlen ← d.get 1 (message + 1)
  let flags ← d.get 1 (message + 2)
  let scope ← d.get 1 (message + 3)
  let index ← d.get 4 (message + 4)
  let env := addEnvEntry env "net_event_family".toList (.unsigned family)
  let env := addEnvEntry env "bound_net_event_index".toList (.unsigned index)
  let env := addEnvEntry env "addr_net_event_prefixlen".toList (.unsigned prefixlen)
  let env := addEnvEntry env "addr_net_event_scope".toList (.unsigned scope)
  let env := handleFlags ifaddrFlags flags env
  let env ← handleAttributes d (ifaddrAttribute family) (message + 8) messageLen env
  .ok (true, env)

/-- The flags `IF_PREFIX_*`. -/
def prefixFlags : List (ℕ × CString) :=
  [(0x1, "prefix_net_event_flag_onlink".toList), (0x2, "prefix_net_event_flag_autoconf".toList)]

/-- The `switch` for prefixes, with the address family. -/
def prefixAttribute (prefixFamily : ℕ) : ℕ → AttributeKind
  | 1 => .layer3Address prefixFamily "prefix_net_event_address".toList
  | _ => .ignored

def handlePrefixMessage (d : Datagram) (message messageLen : ℕ) (env : Env) : Except Fault (Bool × Env) := do
  let family ← d.get 1 message
  let ifindex ← d.get 4 (message + 4)
  let prefixLen ← d.get 1 (message + 9)
  let flags ← d.get 1 (message + 10)
  let env := addEnvEntry env "net_event_family".toList (.unsigned family)
  let env := addEnvEntry env "bound_net_event_index".toList (.signed (toInt32 ifindex))
  let env := addEnvEntry env "prefix_net_event_prefixlen".toList (.unsigned prefixLen)
  let env := handleFlags prefixFlags flags env
  let env ← handleAttributes d (prefixAttribute family) (message + 12) messageLen env
  .ok (true, env)

def rtmFCloned : ℕ := 0x200

/-- The `switch` for routes, with the address family. -/
def rtAttribute (rtmFamily : ℕ) : ℕ → AttributeKind
  | 1 => .layer3Address rtmFamily "rt_net_event_dst".toList
  | 2 => .layer3Address rtmFamily "rt_net_event_src".toList
  | 3 => .u32 "rt_net_event_iif".toList
  | 4 => .u32 "rt_net_event_oif".toList
  | 5 => .layer3Address rtmFamily "rt_net_event_gateway".toList
  | 6 => .u32 "rt_net_event_priority".toList
  | _ => .ignored

/-- `handle_rt_message`, which ignores cloned routes. -/
def handleRtMessage (d : Datagram) (message messageLen : ℕ) (env : Env) : Except Fault (Bool × Env) := do
  let flags ← d.get 4 (message + 8)
  if flags &&& rtmFCloned ≠ 0 then .ok (false, env)
  else do
    let family ← d.get 1 message
    let dstLen ← d.get 1 (message + 1)
    let srcLen ← d.get 1 (message + 2)
    let tos ← d.get 1 (message + 3)
    let table ← d.get 1 (message + 4)
    let protocol ← d.get 1 (message + 5)
    let scope ← d.get 1 (message + 6)
    let type ← d.get 1 (message + 7)
    let env := addEnvEntry env "net_event_family".toList (.unsigned family)
    let env := addEnvEntry env "rt_net_event_routetype".toList (.unsigned type)
    let env := addEnvEntry env "rt_net_event_protocol".toList (.unsigned protocol)
    let env := addEnvEntry env "rt_net_event_scope".toList (.unsigned scope)
    let env := addEnvEntry env "rt_net_event_dst_len".toList (.unsigned dstLen)
    let env := addEnvEntry env "rt_net_event_src_len".toList (.unsigned srcLen)
    let env := addEnvEntry env "rt_net_event_tos".toList (.unsigned tos)
    let env := addEnvEntry env "rt_net_event_table".toList (.unsigned table)
    let env ← handleAttributes d (rtAttribute family) (message + 12) messageLen env
    .ok (true, env)

/-- What the program does: it delivers an event with its environment, subscribes to a multicast group, waits
for the process that sent the requests, or logs a message that it does not know. -/
inductive Action
  | broadcast (event : CString) (env : Env)
  | subscribe (group : ℕ)
  | wait
  | unknownMessage (type : ℕ)

/-- The kinds of messages, those about links, addresses and so on with their event. -/
inductive MessageKind
  | link (event : CString)
  | addr (event : CString)
  | route (event : CString)
  | prefixes (event : CString)
  | ack
  | unknown

/-- The `switch` over the types of messages. -/
def messageKind : ℕ → MessageKind
  | 16 => .link "new_link_net_event".toList
  | 17 => .link "del_link_net_event".toList
  | 20 => .addr "new_addr_net_event".toList
  | 21 => .addr "del_addr_net_event".toList
  | 24 => .route "new_rt_net_event".toList
  | 25 => .route "del_rt_net_event".toList
  | 52 => .prefixes "new_prefix_net_event".toList
  | 2 => .ack
  | 3 => .ack
  | _ => .unknown

/-- The groups of `req_mgrp_assoc`. -/
def reqMgrpAssoc : List ℕ := [1, 5, 9, 7, 11, 18]

/-- The group of an entry of `req_mgrp_assoc`. -/
def reqGroup (i : ℕ) : Except Fault ℕ :=
  match reqMgrpAssoc[i]? with
  | some group => .ok group
  | none => .error .index

/-- `NLMSG_PAYLOAD`: what remains behind a header of some bytes, an unsigned number. -/
def nlmsgPayload (nlh : Record) (size : ℕ) : Except Fault ℕ :=
  if roundUp (size + 16) ≤ nlh.length then .ok (nlh.length - roundUp (size + 16)) else .error .wraps

/-- The answer to a request: the number of the request is in `nlmsg_seq`, of 32 bits. -/
def handleAck (seq : ℕ) : Except Fault (List Action) :=
  if seq ≤ reqMgrpAssoc.length then do
    let group ← reqGroup ((seq + 4294967295) % 4294967296)
    .ok (.subscribe group :: if seq = reqMgrpAssoc.length then [.wait] else [])
  else .ok []

/-- The result of a handler: the event is delivered if the handler says so. -/
def deliver (event : CString) (handled : Bool × Env) : List Action :=
  if handled.1 then [.broadcast event handled.2] else []

/-- `process_message`, and the delivery of its event. -/
def processMessage (d : Datagram) (nlh : Record) : Except Fault (List Action) := do
  let type ← d.get 2 (nlh.pos + 4)
  match messageKind type with
  | .link event => do
      let payload ← nlmsgPayload nlh 16
      let handled ← handleIfinfoMessage d (nlh.pos + 16) payload []
      .ok (deliver event handled)
  | .addr event => do
      let payload ← nlmsgPayload nlh 8
      let handled ← handleIfaddrMessage d (nlh.pos + 16) payload []
      .ok (deliver event handled)
  | .route event => do
      let payload ← nlmsgPayload nlh 12
      let handled ← handleRtMessage d (nlh.pos + 16) payload []
      .ok (deliver event handled)
  | .prefixes event => do
      let payload ← nlmsgPayload nlh 12
      let handled ← handlePrefixMessage d (nlh.pos + 16) payload []
      .ok (deliver event handled)
  | .ack => do
      let seq ← d.get 4 (nlh.pos + 8)
      handleAck seq
  | .unknown => .ok [.unknownMessage type]

/-- `read_and_process_messages`: it is to be called again if a datagram was received.  The loop over the
messages goes on with `NLMSG_OK` and `NLMSG_NEXT`. -/
def readAndProcessMessages : Option Datagram → Except Fault (Bool × List Action)
  | none => .ok (false, [])
  | some d => do
      let actions ← recordLoop 16 (d.get 4) .wraps
        (fun nlh actions => do
          let more ← processMessage d nlh
          .ok (actions ++ more))
        0 d.bytes.length []
      .ok (true, actions)

/-! ## What it is for -/

variable (d : Datagram)

/-- The attributes in a range of a datagram. -/
def Datagram.attributes (pos len : ℕ) : List Record := records 4 (d.field 2) pos len

/-- The messages of a datagram. -/
def Datagram.messages : List Record := records 16 (d.field 4) 0 d.bytes.length

/-- The type of an attribute. -/
def Datagram.attributeType (rta : Record) : ℕ := d.field 2 (rta.pos + 2)

/-- The type of a message. -/
def Datagram.messageType (nlh : Record) : ℕ := d.field 2 (nlh.pos + 4)

/-- The attributes inside of an attribute. -/
def Datagram.nested (rta : Record) : List Record := d.attributes (rtaData rta) (rtaPayload rta)

/-- The attributes for address families are padded, and so is what the one for IPv6 holds. -/
def AfSpecSafe (rta : Record) : Prop :=
  ∀ familyRta ∈ d.nested rta,
    (d.attributeType familyRta = afInet6 → ∀ nestedRta ∈ d.nested familyRta, nestedRta.Padded) ∧ familyRta.Padded

/-- A text is not empty, and nested attributes are padded. -/
def AttributeSafe (rta : Record) : AttributeKind → Prop
  | .string _ => 0 < rtaPayload rta
  | .afSpec => AfSpecSafe d rta
  | _ => True

/-- All attributes of a message are safe and padded. -/
def AttributesSafe (switch : ℕ → AttributeKind) (pos len : ℕ) : Prop :=
  ∀ rta ∈ d.attributes pos len, AttributeSafe d rta (switch (d.attributeType rta)) ∧ rta.Padded

/-- A message has room for its header and safe attributes, unless it is about a cloned route; an answer is
one to a request. -/
def MessageSafe (nlh : Record) : Prop :=
  match messageKind (d.messageType nlh) with
  | .link _ =>
      32 ≤ nlh.length ∧
        AttributesSafe d (ifinfoAttribute (d.field 2 (nlh.pos + 18))) (nlh.pos + 32) (nlh.length - 32)
  | .addr _ =>
      24 ≤ nlh.length ∧
        AttributesSafe d (ifaddrAttribute (d.field 1 (nlh.pos + 16))) (nlh.pos + 24) (nlh.length - 24)
  | .route _ =>
      28 ≤ nlh.length ∧ (d.field 4 (nlh.pos + 24) &&& rtmFCloned = 0 →
        AttributesSafe d (rtAttribute (d.field 1 (nlh.pos + 16))) (nlh.pos + 28) (nlh.length - 28))
  | .prefixes _ =>
      28 ≤ nlh.length ∧
        AttributesSafe d (prefixAttribute (d.field 1 (nlh.pos + 16))) (nlh.pos + 28) (nlh.length - 28)
  | .ack => d.field 4 (nlh.pos + 8) ≠ 0
  | .unknown => True

/-- All messages of a datagram are safe and padded. -/
def Datagram.Safe : Prop := ∀ nlh ∈ d.messages, MessageSafe d nlh ∧ nlh.Padded

/-! ## What comes through -/

variable {d : Datagram} {rta nlh : Record} {env : Env} {pos len : ℕ}

theorem Datagram.get_ok {n : ℕ} (h : pos + n ≤ d.bytes.length) : d.get n pos = .ok (d.field n pos) := if_pos h

theorem Datagram.read_ok {n : ℕ} (h : pos + n ≤ d.bytes.length) :
    d.read pos n = .ok ((d.bytes.drop pos).take n) := if_pos h

/-- A record that lies in the datagram, with room for a header. -/
structure Inside (d : Datagram) (rta : Record) : Prop where
  header : 4 ≤ rta.length
  fits : rta.pos + rta.length ≤ d.bytes.length

theorem Datagram.inside_of_mem (hrta : rta ∈ d.attributes pos len) (hrange : pos + len ≤ d.bytes.length) :
    Inside d rta := by
  obtain ⟨-, hend, hheader, hlength⟩ := mem_records (by decide) hrta
  exact ⟨hheader, by omega⟩

theorem Inside.payload_le (h : Inside d rta) {n : ℕ} (hn : n ≤ rtaPayload rta) :
    rtaData rta + n ≤ d.bytes.length := by
  have hheader := h.header
  have hfits := h.fits
  unfold rtaPayload at hn
  unfold rtaData
  omega

theorem handleU8_ok (h : Inside d rta) (env : Env) (var : CString) :
    ∃ env', handleU8 d rta env var = .ok env' := by
  unfold handleU8
  split
  · next hroom =>
      rw [d.get_ok (h.payload_le hroom)]
      exact ⟨_, rfl⟩
  · exact ⟨env, rfl⟩

theorem handleU32_ok (h : Inside d rta) (env : Env) (var : CString) :
    ∃ env', handleU32 d rta env var = .ok env' := by
  unfold handleU32
  split
  · next hroom =>
      rw [d.get_ok (h.payload_le hroom)]
      exact ⟨_, rfl⟩
  · exact ⟨env, rfl⟩

theorem handleLayer2Address_ok (h : Inside d rta) (type : ℕ) (env : Env) (var : CString) :
    ∃ env', handleLayer2Address d type rta env var = .ok env' := by
  unfold handleLayer2Address handleLayer2EthernetAddress
  split
  · split
    · next hroom =>
        rw [d.read_ok (h.payload_le hroom)]
        exact ⟨_, rfl⟩
    · exact ⟨env, rfl⟩
  · exact ⟨env, rfl⟩

theorem handleLayer3Address_ok (h : Inside d rta) (family : ℕ) (env : Env) (var : CString) :
    ∃ env', handleLayer3Address d family rta env var = .ok env' := by
  unfold handleLayer3Address
  split
  · next hroom =>
      have hlength : (if family = afInet then 4 else 16) ≤ rtaPayload rta := by
        rcases hroom with ⟨hfamily, hle⟩ | ⟨hfamily, hle⟩
        · rw [if_pos hfamily]
          exact hle
        · split
          · omega
          · exact hle
      rw [d.read_ok (h.payload_le hlength)]
      exact ⟨_, rfl⟩
  · exact ⟨env, rfl⟩

theorem handleAfInet6Flags_ok (h : Inside d rta) (env : Env) :
    ∃ env', handleAfInet6Flags d rta env = .ok env' := by
  unfold handleAfInet6Flags
  split
  · next hroom =>
      rw [d.get_ok (h.payload_le hroom)]
      exact ⟨_, rfl⟩
  · exact ⟨env, rfl⟩

theorem length_strncpy {src : List UInt8} {n : ℕ} (h : src.length ≤ n) : (strncpy src n).length = n := by
  have hle : (src.takeWhile (· ≠ 0)).length ≤ src.length := (List.takeWhile_prefix _).length_le
  rw [strncpy, List.length_append, List.length_replicate]
  omega

theorem handleString_ok_iff (h : Inside d rta) (env : Env) (var : CString) :
    (∃ env', handleString d rta env var = .ok env') ↔ 0 < rtaPayload rta := by
  have hread := h.payload_le Nat.le.refl
  have hlength := length_strncpy (List.length_take_le (rtaPayload rta) (d.bytes.drop (rtaData rta)))
  simp only [handleString, storeByte, d.read_ok hread, bind, Except.bind, hlength]
  by_cases hempty : 0 < rtaPayload rta
  · rw [if_pos (by omega)]
    exact iff_of_true ⟨_, rfl⟩ hempty
  · rw [if_neg (by omega)]
    exact iff_of_false (fun ⟨env', henv'⟩ => nomatch henv') hempty

/-! ### Loops over attributes -/

theorem attributeLoop_ok_iff (hrange : pos + len ≤ d.bytes.length) {switch : ℕ → Record → Env → Except Fault Env}
    {P : Record → Prop}
    (hswitch : ∀ rta, Inside d rta → ∀ env, (∃ env', switch (d.attributeType rta) rta env = .ok env') ↔ P rta)
    (env : Env) :
    (∃ env', attributeLoop d switch pos len env = .ok env') ↔
      ∀ rta ∈ d.attributes pos len, P rta ∧ rta.Padded := by
  refine recordLoop_ok_iff (fun _ hp => d.get_ok (by omega)) (fun rta hrta env => ?_) env
  have hinside := d.inside_of_mem hrta hrange
  have hheader := hinside.header
  have hfits := hinside.fits
  have htype : d.get 2 (rta.pos + 2) = .ok (d.attributeType rta) := d.get_ok (by omega)
  rw [htype]
  exact hswitch rta hinside env

theorem handleAfInet6Attributes_ok_iff (h : Inside d rta) (env : Env) :
    (∃ env', handleAfInet6Attributes d rta env = .ok env') ↔ ∀ nestedRta ∈ d.nested rta, nestedRta.Padded := by
  refine (attributeLoop_ok_iff (h.payload_le Nat.le.refl) (P := fun _ => True)
    (fun nestedRta hnested env => ?_) env).trans ?_
  · split
    · exact iff_of_true (handleAfInet6Flags_ok hnested env) trivial
    · exact iff_of_true ⟨env, rfl⟩ trivial
  · exact forall₂_congr fun nestedRta _ => and_iff_right trivial

theorem handleAfSpecAttributes_ok_iff (h : Inside d rta) (env : Env) :
    (∃ env', handleAfSpecAttributes d rta env = .ok env') ↔ AfSpecSafe d rta := by
  refine attributeLoop_ok_iff (h.payload_le Nat.le.refl) (fun familyRta hfamily env => ?_) env
  by_cases htype : d.attributeType familyRta = afInet6
  · rw [if_pos htype, forall_prop_of_true htype]
    exact handleAfInet6Attributes_ok_iff hfamily env
  · rw [if_neg htype]
    exact iff_of_true ⟨env, rfl⟩ fun htype' => absurd htype' htype

theorem handleAttribute_ok_iff (h : Inside d rta) (env : Env) (kind : AttributeKind) :
    (∃ env', handleAttribute d rta env kind = .ok env') ↔ AttributeSafe d rta kind := by
  cases kind with
  | layer2Address type var => exact iff_of_true (handleLayer2Address_ok h type env var) trivial
  | layer3Address family var => exact iff_of_true (handleLayer3Address_ok h family env var) trivial
  | string var => exact handleString_ok_iff h env var
  | u8 var => exact iff_of_true (handleU8_ok h env var) trivial
  | u32 var => exact iff_of_true (handleU32_ok h env var) trivial
  | afSpec => exact handleAfSpecAttributes_ok_iff h env
  | ignored => exact iff_of_true ⟨env, rfl⟩ trivial

theorem handleAttributes_ok_iff (switch : ℕ → AttributeKind) (hrange : pos + len ≤ d.bytes.length) (env : Env) :
    (∃ env', handleAttributes d switch pos len env = .ok env') ↔ AttributesSafe d switch pos len :=
  attributeLoop_ok_iff hrange (fun _ hrta env => handleAttribute_ok_iff hrta env _) env

/-! ### Messages -/

theorem bind_ok_iff {α β : Type} {x : Except Fault α} {f : α → β} :
    (∃ b, (x >>= fun a => .ok (f a)) = .ok b) ↔ ∃ a, x = .ok a := by
  cases x with
  | error e => exact iff_of_false (fun ⟨b, hb⟩ => nomatch hb) fun ⟨a, ha⟩ => nomatch ha
  | ok a => exact iff_of_true ⟨f a, rfl⟩ ⟨a, rfl⟩

theorem handleIfinfoMessage_ok_iff (hrange : pos + 16 + len ≤ d.bytes.length) (env : Env) :
    (∃ r, handleIfinfoMessage d pos len env = .ok r) ↔
      AttributesSafe d (ifinfoAttribute (d.field 2 (pos + 2))) (pos + 16) len := by
  unfold handleIfinfoMessage
  rw [d.get_ok (by omega), d.get_ok (by omega), d.get_ok (by omega), d.get_ok (by omega)]
  exact bind_ok_iff.trans (handleAttributes_ok_iff _ hrange _)

theorem handleIfaddrMessage_ok_iff (hrange : pos + 8 + len ≤ d.bytes.length) (env : Env) :
    (∃ r, handleIfaddrMessage d pos len env = .ok r) ↔
      AttributesSafe d (ifaddrAttribute (d.field 1 pos)) (pos + 8) len := by
  unfold handleIfaddrMessage
  rw [d.get_ok (by omega), d.get_ok (by omega), d.get_ok (by omega), d.get_ok (by omega), d.get_ok (by omega)]
  exact bind_ok_iff.trans (handleAttributes_ok_iff _ hrange _)

theorem handlePrefixMessage_ok_iff (hrange : pos + 12 + len ≤ d.bytes.length) (env : Env) :
    (∃ r, handlePrefixMessage d pos len env = .ok r) ↔
      AttributesSafe d (prefixAttribute (d.field 1 pos)) (pos + 12) len := by
  unfold handlePrefixMessage
  rw [d.get_ok (by omega), d.get_ok (by omega), d.get_ok (by omega), d.get_ok (by omega)]
  exact bind_ok_iff.trans (handleAttributes_ok_iff _ hrange _)

theorem handleRtMessage_ok_iff (hrange : pos + 12 + len ≤ d.bytes.length) (env : Env) :
    (∃ r, handleRtMessage d pos len env = .ok r) ↔ (d.field 4 (pos + 8) &&& rtmFCloned = 0 →
      AttributesSafe d (rtAttribute (d.field 1 pos)) (pos + 12) len) := by
  unfold handleRtMessage
  rw [d.get_ok (by omega)]
  -- `message_len` has been computed before, also for a cloned route
  by_cases hcloned : d.field 4 (pos + 8) &&& rtmFCloned = 0
  · rw [forall_prop_of_true hcloned]
    simp only [bind, Except.bind, if_neg (not_not_intro hcloned)]
    rw [d.get_ok (by omega), d.get_ok (by omega), d.get_ok (by omega), d.get_ok (by omega), d.get_ok (by omega),
      d.get_ok (by omega), d.get_ok (by omega), d.get_ok (by omega)]
    exact bind_ok_iff.trans (handleAttributes_ok_iff _ hrange _)
  · simp only [bind, Except.bind, if_pos hcloned]
    exact iff_of_true ⟨_, rfl⟩ fun hcloned' => absurd hcloned' hcloned

theorem reqGroup_ok_iff {i : ℕ} : (∃ group, reqGroup i = .ok group) ↔ i < reqMgrpAssoc.length := by
  unfold reqGroup
  by_cases hlt : i < reqMgrpAssoc.length
  · rw [List.getElem?_eq_getElem hlt]
    exact iff_of_true ⟨_, rfl⟩ hlt
  · rw [List.getElem?_eq_none (Nat.le_of_not_lt hlt)]
    exact iff_of_false (fun ⟨group, hgroup⟩ => nomatch hgroup) hlt

theorem handleAck_ok_iff {seq : ℕ} (hseq : seq < 256 ^ 4) :
    (∃ actions, handleAck seq = .ok actions) ↔ seq ≠ 0 := by
  have hlength : reqMgrpAssoc.length = 6 := rfl
  unfold handleAck
  by_cases hrequest : seq ≤ reqMgrpAssoc.length
  · -- in 32 bits, the number before zero is the largest one
    rw [if_pos hrequest]
    refine bind_ok_iff.trans (reqGroup_ok_iff.trans ?_)
    omega
  · rw [if_neg hrequest]
    exact iff_of_true ⟨[], rfl⟩ (by omega)

theorem nlmsgPayload_bind_ok_iff {size : ℕ} {event : CString} {f : ℕ → Except Fault (Bool × Env)} {P : Prop}
    (hf : roundUp (size + 16) ≤ nlh.length → ((∃ r, f (nlh.length - roundUp (size + 16)) = .ok r) ↔ P)) :
    (∃ actions, (nlmsgPayload nlh size >>= fun payload =>
      f payload >>= fun handled => .ok (deliver event handled)) = .ok actions) ↔
      roundUp (size + 16) ≤ nlh.length ∧ P := by
  unfold nlmsgPayload
  by_cases hroom : roundUp (size + 16) ≤ nlh.length
  · rw [if_pos hroom, and_iff_right hroom, ← hf hroom]
    exact bind_ok_iff
  · rw [if_neg hroom]
    exact iff_of_false (fun ⟨actions, hactions⟩ => nomatch hactions) fun h => hroom h.1

theorem Datagram.field_lt (d : Datagram) (n pos : ℕ) : d.field n pos < 256 ^ n := by
  have hbytes : ∀ b ∈ ((d.bytes.drop pos).take n).map UInt8.toNat, b < 256 := by
    intro b hb
    obtain ⟨byte, -, rfl⟩ := List.mem_map.mp hb
    exact byte.toNat_lt
  have hlt := Nat.ofDigits_lt_base_pow_length (by decide) hbytes
  rw [List.length_map] at hlt
  exact Nat.lt_of_lt_of_le hlt (Nat.pow_le_pow_right (by decide) (List.length_take_le _ _))

theorem processMessage_ok_iff (hlength : 16 ≤ nlh.length) (hfits : nlh.pos + nlh.length ≤ d.bytes.length) :
    (∃ actions, processMessage d nlh = .ok actions) ↔ MessageSafe d nlh := by
  have htype : d.get 2 (nlh.pos + 4) = .ok (d.messageType nlh) := d.get_ok (by omega)
  have hseq : d.get 4 (nlh.pos + 8) = .ok (d.field 4 (nlh.pos + 8)) := d.get_ok (by omega)
  unfold processMessage MessageSafe
  rw [htype]
  simp only [Except.bind, bind]
  -- a handler is only called when the size of the payload has not wrapped around, so its header is there
  cases messageKind (d.messageType nlh) with
  | link event =>
      refine nlmsgPayload_bind_ok_iff fun hroom => ?_
      exact handleIfinfoMessage_ok_iff (by unfold roundUp at *; omega) []
  | addr event =>
      refine nlmsgPayload_bind_ok_iff fun hroom => ?_
      exact handleIfaddrMessage_ok_iff (by unfold roundUp at *; omega) []
  | route event =>
      refine nlmsgPayload_bind_ok_iff fun hroom => ?_
      exact handleRtMessage_ok_iff (by unfold roundUp at *; omega) []
  | prefixes event =>
      refine nlmsgPayload_bind_ok_iff fun hroom => ?_
      exact handlePrefixMessage_ok_iff (by unfold roundUp at *; omega) []
  | ack =>
      dsimp only
      rw [hseq]
      exact handleAck_ok_iff (d.field_lt 4 _)
  | unknown => exact iff_of_true ⟨_, rfl⟩ trivial

/-! ## The datagrams that are safe -/

theorem messageLoop_ok_iff (d : Datagram) :
    (∃ actions, recordLoop 16 (d.get 4) .wraps (fun nlh actions => do
      let more ← processMessage d nlh
      .ok (actions ++ more)) 0 d.bytes.length [] = .ok actions) ↔ d.Safe := by
  refine recordLoop_ok_iff (fun _ hp => d.get_ok (by omega)) (fun nlh hnlh actions => ?_) []
  obtain ⟨-, hend, hheader, hlength⟩ := mem_records (by decide) hnlh
  exact bind_ok_iff.trans (processMessage_ok_iff hheader (by omega))

/-- A datagram is taken apart without a fault just if all messages and attributes are padded up to the next
one, every message has room for its header, no text is empty, and every answer is one to a request. -/
theorem readAndProcessMessages_iff (d : Datagram) :
    (∃ r, readAndProcessMessages (some d) = .ok r) ↔ d.Safe :=
  bind_ok_iff.trans (messageLoop_ok_iff d)

/-- A message about a link with an empty name. -/
def emptyName : Datagram where
  bytes := [36, 0, 0, 0, 16, 0] ++ List.replicate 26 0 ++ [4, 0, 3, 0]
  length_le := by decide

/-- A message that is not padded. -/
def notPadded : Datagram where
  bytes := 17 :: List.replicate 16 0
  length_le := by decide

/-- An answer to a request with the number zero. -/
def noRequest : Datagram where
  bytes := [16, 0, 0, 0, 2, 0] ++ List.replicate 10 0
  length_le := by decide

/-- Three datagrams that are not safe. -/
theorem readAndProcessMessages_fails :
    (¬ ∃ r, readAndProcessMessages (some emptyName) = .ok r) ∧
      (¬ ∃ r, readAndProcessMessages (some notPadded) = .ok r) ∧
      ¬ ∃ r, readAndProcessMessages (some noRequest) = .ok r := by
  refine ⟨fun h => ?_, fun h => ?_, fun h => ?_⟩
  · have hsafe := (messageLoop_ok_iff emptyName).mp (bind_ok_iff.mp h)
    have hmessage : MessageSafe emptyName ⟨0, 36, 36⟩ := (hsafe _ (by decide)).1
    have hattribute : 0 < rtaPayload ⟨32, 4, 4⟩ := (hmessage.2 ⟨32, 4, 4⟩ (by decide)).1
    exact absurd hattribute (by decide)
  · have hsafe := (messageLoop_ok_iff notPadded).mp (bind_ok_iff.mp h)
    exact absurd (hsafe ⟨0, 17, 17⟩ (by decide)).2 (by decide)
  · have hsafe := (messageLoop_ok_iff noRequest).mp (bind_ok_iff.mp h)
    have hmessage : noRequest.field 4 8 ≠ 0 := (hsafe ⟨0, 16, 16⟩ (by decide)).1
    exact hmessage (by decide)

end Netlink
end Mkfli4l
