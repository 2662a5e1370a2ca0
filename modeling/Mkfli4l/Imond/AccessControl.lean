import Mkfli4l.Imond.Commands

/-!
# Access control of `imond`

`main` keeps the authorisation of a client in the slot of the client, and slots are used again.  Beside
each slot, a run records what has been said on the connection that the slot belongs to.  The invariant is
that a slot has no more rights than the passwords that have been sent on its connection give.
-/

namespace Mkfli4l
namespace Imond

open Lib

/-! ## The daemon -/

abbrev maxClients : ℕ := 64

/-- A request and its answer. -/
structure Exchange where
  request : Request
  answer : Option String

/-- A connection: the address it comes from, and what has been said, the latest first. -/
structure Connection where
  address : String
  history : List Exchange

/-- The slots of the daemon, and the connection each one belongs to or has last belonged to. -/
structure Daemon where
  clients : Fin maxClients → Client
  connections : Fin maxClients → Connection

/-- The daemon when it starts. -/
def Daemon.init : Daemon := ⟨fun _ => Client.unused, fun _ => ⟨"", []⟩⟩

/-- What happens to the daemon: a client connects, sends a line (`written` says whether all that is
written to the client is accepted), or there is no line to read from it. -/
inductive Event
  | accept (address : String)
  | request (i : Fin maxClients) (world : World) (line : CString) (written : Bool)
  | readError (i : Fin maxClients)

/-- The first slot that is free. -/
def Daemon.freeSlot (d : Daemon) : Option (Fin maxClients) :=
  (List.finRange maxClients).find? fun i => !(d.clients i).connected

/-- A new client gets the first slot that is free.  Without one it is turned away. -/
def Daemon.accept (env : Environment) (d : Daemon) (address : String) : Daemon :=
  match d.freeSlot with
  | none => d
  | some i =>
      { clients := Function.update d.clients i (acceptClient env address)
        connections := Function.update d.connections i ⟨address, []⟩ }

/-- A slot whose connection is closed and whose rights are taken. -/
def Client.closed (client : Client) : Client :=
  { client with connected := false, normal := false, admin := false }

/-- A slot after a reply.  If the reply could not be written, the rights stay. -/
def Reply.after (reply : Reply) (written : Bool) : Client :=
  match reply.answer with
  | none => reply.client.closed
  | some _ => { reply.client with connected := written }

/-- A line from a client. -/
def Daemon.request (hexmd5 : String → String) (env : Environment) (d : Daemon) (i : Fin maxClients)
    (world : World) (line : CString) (written : Bool) : Daemon :=
  if (d.clients i).connected then
    let reply := printStatus hexmd5 env world (d.clients i) line
    let connection := d.connections i
    { clients := Function.update d.clients i (reply.after written)
      connections := Function.update d.connections i
        { connection with history := ⟨parseRequest line, reply.answer⟩ :: connection.history } }
  else
    d

/-- One round of `main` for one file descriptor. -/
def Daemon.step (hexmd5 : String → String) (env : Environment) (d : Daemon) : Event → Daemon
  | .accept address => d.accept env address
  | .request i world line written => d.request hexmd5 env i world line written
  | .readError i => { d with clients := Function.update d.clients i (d.clients i).closed }

/-- The daemon after some events. -/
def Daemon.run (hexmd5 : String → String) (env : Environment) (events : List Event) : Daemon :=
  events.foldl (Daemon.step hexmd5 env) Daemon.init

/-! ## What clients have sent -/

/-- The salt has been given to the client. -/
def Issued (salt : String) (history : List Exchange) : Prop :=
  ∃ e ∈ history, e.request.command = "salt" ∧ e.request.arg = none ∧
    e.answer = some ("OK " ++ salt ++ "\r\n")

/-- The client has sent the password, in clear or as the MD5 of the password and a salt that has been
given to it before. -/
inductive HasSent (hexmd5 : String → String) (pass : String) : List Exchange → Prop
  | pass {e : Exchange} {history : List Exchange} (hcommand : e.request.command = "pass")
      (harg : e.request.arg = some pass) : HasSent hexmd5 pass (e :: history)
  | md5pass {e : Exchange} {history : List Exchange} {salt : String}
      (hcommand : e.request.command = "md5pass")
      (harg : e.request.arg = some (hexmd5 (pass ++ salt))) (hsalt : Issued salt history) :
      HasSent hexmd5 pass (e :: history)
  | before {e : Exchange} {history : List Exchange} (h : HasSent hexmd5 pass history) :
      HasSent hexmd5 pass (e :: history)

/-- The commands that need no password. -/
def freeCommands : List String := ["help", "pass", "md5pass", "version", "quit", "salt"]

/-- The commands behind the last check. -/
def administrative : List String :=
  ["sync", "reset-telmond-log-file", "reset-imond-log-file", "support", "receive", "send", "delete",
    "set-status", "hup-timeout", "addlink", "removelink", "adjust-time"]

/-- The answer tells of an error or a refusal. -/
def Refused (answer : Option String) : Prop := ∃ text, answer = some ("ERR" ++ text)

/-- The variable of the environment that allows an action to everybody. -/
def Action.switch : Action → Option String
  | .setDialmode _ => some "IMOND_ENABLE"
  | .dial => some "IMOND_DIAL"
  | .hangup _ => some "IMOND_DIAL"
  | .shutdown _ => some "IMOND_REBOOT"
  | .route _ => some "IMOND_ROUTE"
  | _ => none

/-- The environment allows the action to everybody. -/
def Action.Allowed (env : Environment) (action : Action) : Prop :=
  ∃ switch, action.switch = some switch ∧ env switch = some "yes"

/-! ## Rights of a slot -/

section Proofs

variable {hexmd5 : String → String} {env : Environment} {world : World} {client : Client}
variable {history : List Exchange} {r : Request}

/-- The password that makes an administrator. -/
def adminPassword (env : Environment) : Option String := (imondAdminPass env).or (imondPass env)

/-- A slot has only rights for which its client has sent a password. -/
structure Authorised (hexmd5 : String → String) (env : Environment) (client : Client)
    (history : List Exchange) : Prop where
  normal : passRequired env → client.normal →
    ∃ pass, (imondPass env = some pass ∨ imondAdminPass env = some pass) ∧ HasSent hexmd5 pass history
  admin : ∀ pass, adminPassword env = some pass → client.admin → HasSent hexmd5 pass history
  salt : client.salt = "" ∨ Issued client.salt history

theorem Issued.before {salt : String} (h : Issued salt history) (e : Exchange) :
    Issued salt (e :: history) := by
  obtain ⟨e', he', hissued⟩ := h
  exact ⟨e', List.mem_cons_of_mem e he', hissued⟩

theorem Authorised.before (h : Authorised hexmd5 env client history) {client' : Client} (e : Exchange)
    (hnormal : client'.normal = client.normal) (hadmin : client'.admin = client.admin)
    (hsalt : client'.salt = client.salt) : Authorised hexmd5 env client' (e :: history) where
  normal := by
    intro hrequired hright
    obtain ⟨pass, hpass, hsent⟩ := h.normal hrequired (hnormal ▸ hright)
    exact ⟨pass, hpass, hsent.before⟩
  admin := by
    intro pass hpass hright
    exact (h.admin pass hpass (hadmin ▸ hright)).before
  salt := by
    rw [hsalt]
    exact h.salt.imp_right (fun hissued => hissued.before e)

theorem acceptClient_authorised {address : String} (hremote : address ≠ localAddress) :
    Authorised hexmd5 env (acceptClient env address) [] where
  normal := by
    intro hrequired hright
    simp [acceptClient, hremote, hrequired] at hright
  admin := by
    intro pass hpass hright
    simp only [acceptClient, if_neg hremote, passRequired, adminPassRequired, Bool.and_eq_true,
      Bool.not_eq_true', Option.isSome_eq_false_iff, Option.isNone_iff_eq_none] at hright
    simp [adminPassword, hright] at hpass
  salt := by
    left
    rw [acceptClient, if_neg hremote]

theorem Authorised.tryPasswords (h : Authorised hexmd5 env client history) {sent : String → Bool}
    (e : Exchange) (hsent : ∀ pass, sent pass = true → HasSent hexmd5 pass (e :: history)) :
    Authorised hexmd5 env (tryPasswords env client sent).client (e :: history) := by
  have hclient : (Imond.tryPasswords env client sent).client =
      { client with
        normal := client.normal || (imondAdminPass env).any sent || (imondPass env).any sent
        admin := client.admin || (imondAdminPass env).any sent ||
          ((imondPass env).any sent && (imondAdminPass env).isNone) } := by
    simp only [Imond.tryPasswords, apply_ite Reply.client, Client.reply, Client.replyErr, ite_self]
  rw [hclient]
  constructor
  · intro hrequired hright
    simp only [Bool.or_eq_true, Option.any_eq_true_iff_get] at hright
    rcases hright with (hright | ⟨hsome, hmatch⟩) | ⟨hsome, hmatch⟩
    · obtain ⟨pass, hpass, hbefore⟩ := h.normal hrequired hright
      exact ⟨pass, hpass, hbefore.before⟩
    · exact ⟨_, Or.inr (Option.some_get hsome).symm, hsent _ hmatch⟩
    · exact ⟨_, Or.inl (Option.some_get hsome).symm, hsent _ hmatch⟩
  · intro pass hpass hright
    simp only [Bool.or_eq_true, Bool.and_eq_true, Option.any_eq_true_iff_get] at hright
    rcases hright with (hright | ⟨hsome, hmatch⟩) | ⟨⟨hsome, hmatch⟩, hnone⟩
    · exact (h.admin pass hpass hright).before
    · rw [adminPassword, ← Option.some_get hsome] at hpass
      cases hpass
      exact hsent _ hmatch
    · rw [adminPassword, Option.isNone_iff_eq_none.mp hnone, ← Option.some_get hsome] at hpass
      cases hpass
      exact hsent _ hmatch
  · exact h.salt.imp_right (fun hissued => hissued.before e)

@[simp] theorem reply_client (answer : String) : (client.reply answer).client = client := rfl

@[simp] theorem replyErr_client : client.replyErr.client = client := rfl

@[simp] theorem cmdHelp_client {arg : Option String} :
    (cmdHelp env world client arg).client = client := rfl

@[simp] theorem carryOut_client {action : Action} :
    (carryOut world client action).client = client := rfl

@[simp] theorem inquiry_client : (inquiry world client r).client = client := by
  unfold inquiry
  split <;> rfl

@[simp] theorem doIfAllowed_client {switch : String} {action : Action} :
    (doIfAllowed env world client switch action).client = client := by
  unfold doIfAllowed
  split <;> rfl

@[simp] theorem cmdDialmode_client {arg : String} :
    (cmdDialmode env world client arg).client = client := by
  simp only [cmdDialmode, apply_ite Reply.client, doIfAllowed_client, replyErr_client, ite_self]

@[simp] theorem cmdRoute_client {circuitIdx : ℤ} :
    (cmdRoute env world client circuitIdx).client = client := by
  unfold cmdRoute
  split <;> rfl

@[simp] theorem transfer_client {pw : CString} {action : Action} :
    (transfer world client pw action).client = client := by
  unfold transfer
  split <;> rfl

@[simp] theorem adminCommands_client : (adminCommands client r).client = client := by
  simp only [adminCommands, apply_ite Reply.client, replyErr_client, ite_self]

@[simp] theorem adminCommandsWithArg_client {arg : String} :
    (adminCommandsWithArg world client r arg).client = client := by
  unfold adminCommandsWithArg
  split_ifs
  · cases world.passwordValid arg with
    | none => rfl
    | some valid => cases valid <;> rfl
  · cases scanReceive arg.toList with
    | none => rfl
    | some scanned => exact transfer_client
  · cases scanFile arg.toList with
    | none => rfl
    | some scanned => exact transfer_client
  · cases scanFile arg.toList with
    | none => rfl
    | some scanned => exact transfer_client
  all_goals rfl

theorem commands_client : (commands env world client r).client = client := by
  simp only [commands, apply_ite Reply.client, reply_client, inquiry_client, doIfAllowed_client,
    cmdHelp_client, adminCommands_client, ite_self]

theorem commandsWithArg_client (env : Environment) (world : World) (client : Client) (r : Request)
    (arg : String) :
    ∃ ip, (commandsWithArg env world client r arg).client = { client with ip := ip } := by
  unfold commandsWithArg
  split_ifs
  · exact ⟨client.ip, rfl⟩
  · exact ⟨client.ip, inquiry_client⟩
  · exact ⟨client.ip, doIfAllowed_client⟩
  · exact ⟨String.ofList (arg.toList.take 15), rfl⟩
  · exact ⟨client.ip, rfl⟩
  · exact ⟨client.ip, rfl⟩
  · exact ⟨client.ip, rfl⟩
  · exact ⟨client.ip, cmdDialmode_client⟩
  · exact ⟨client.ip, cmdRoute_client⟩
  · exact ⟨client.ip, rfl⟩
  · exact ⟨client.ip, adminCommandsWithArg_client⟩

/-- Where a reply comes from. -/
inductive AnsweredBy (hexmd5 : String → String) (env : Environment) (world : World) (client : Client)
    (r : Request) : Reply → Prop
  | help (hcommand : r.command = "help") :
      AnsweredBy hexmd5 env world client r (cmdHelp env world client r.arg)
  | pass (hcommand : r.command = "pass") :
      AnsweredBy hexmd5 env world client r (cmdPass env client r.arg)
  | md5pass (hcommand : r.command = "md5pass") :
      AnsweredBy hexmd5 env world client r (cmdMd5pass hexmd5 env client r.arg)
  | version (hcommand : r.command = "version") :
      AnsweredBy hexmd5 env world client r (client.reply "OK 11 2.2.0\r\n")
  | quit (hcommand : r.command = "quit") : AnsweredBy hexmd5 env world client r ⟨client, none, none⟩
  | salt (hcommand : r.command = "salt") (harg : r.arg = none) :
      AnsweredBy hexmd5 env world client r (cmdSalt world client)
  | plain : AnsweredBy hexmd5 env world client r (commands env world client r)
  | withArg (arg : String) :
      AnsweredBy hexmd5 env world client r (commandsWithArg env world client r arg)

theorem printRequest_answeredBy (hexmd5 : String → String) (env : Environment) (world : World)
    (client : Client) (r : Request) :
    AnsweredBy hexmd5 env world client r (printRequest hexmd5 env world client r) := by
  unfold printRequest
  split
  · next h => exact .help h.1
  · split
    · next hcommand => exact .pass hcommand
    · split
      · next hcommand => exact .md5pass hcommand
      · cases harg : r.arg with
        | none =>
            simp only
            split_ifs with hversion hquit hsalt
            · exact .version hversion
            · exact .quit hquit
            · exact .salt hsalt harg
            · exact .plain
        | some arg => exact .withArg arg

theorem Authorised.reply (h : Authorised hexmd5 env client history) {reply : Reply}
    (hreply : AnsweredBy hexmd5 env world client r reply) :
    Authorised hexmd5 env reply.client (⟨r, reply.answer⟩ :: history) := by
  cases hreply with
  | help hcommand => exact h.before _ rfl rfl rfl
  | pass hcommand =>
      cases harg : r.arg with
      | none => exact h.before _ rfl rfl rfl
      | some arg =>
          refine h.tryPasswords _ fun pass hsent => ?_
          have heq : arg = pass := of_decide_eq_true hsent
          exact .pass hcommand (heq ▸ harg)
  | md5pass hcommand =>
      cases harg : r.arg with
      | none => exact h.before _ rfl rfl rfl
      | some arg =>
          simp only [cmdMd5pass]
          split
          · exact h.before _ rfl rfl rfl
          · next hsalt =>
              refine h.tryPasswords _ fun pass hsent => ?_
              have heq : arg = hexmd5 (pass ++ client.salt) := of_decide_eq_true hsent
              exact .md5pass hcommand (heq ▸ harg) (h.salt.resolve_left hsalt)
  | version hcommand => exact h.before _ rfl rfl rfl
  | quit hcommand => exact h.before _ rfl rfl rfl
  | salt hcommand harg =>
      -- the new salt is the one that has just been sent
      have hkept : Authorised hexmd5 env client (⟨r, (cmdSalt world client).answer⟩ :: history) :=
        h.before _ rfl rfl rfl
      exact ⟨hkept.normal, hkept.admin, Or.inr ⟨_, List.mem_cons_self, hcommand, harg, rfl⟩⟩
  | plain =>
      rw [commands_client]
      exact h.before _ rfl rfl rfl
  | withArg arg =>
      obtain ⟨ip, hclient⟩ := commandsWithArg_client env world client r arg
      rw [hclient]
      exact h.before _ rfl rfl rfl

/-! ### Runs -/

/-- Every slot with a client from elsewhere has only the rights its connection has earned. -/
def Daemon.Guarded (hexmd5 : String → String) (env : Environment) (d : Daemon) : Prop :=
  ∀ i, (d.clients i).connected → (d.connections i).address ≠ localAddress →
    Authorised hexmd5 env (d.clients i) (d.connections i).history

variable {d : Daemon}

theorem Daemon.Guarded.update (h : d.Guarded hexmd5 env) {i : Fin maxClients} {connection : Connection}
    (hi : client.connected → connection.address ≠ localAddress →
      Authorised hexmd5 env client connection.history) :
    Daemon.Guarded hexmd5 env
      ⟨Function.update d.clients i client, Function.update d.connections i connection⟩ := by
  intro j hconnected hremote
  by_cases hj : j = i
  · subst hj
    simp only [Function.update_self] at hconnected hremote ⊢
    exact hi hconnected hremote
  · simp only [Function.update_of_ne hj] at hconnected hremote ⊢
    exact h j hconnected hremote

theorem Daemon.Guarded.accept (h : d.Guarded hexmd5 env) (address : String) :
    (d.accept env address).Guarded hexmd5 env := by
  unfold Daemon.accept
  cases d.freeSlot with
  | none => exact h
  | some i => exact h.update fun _ hremote => acceptClient_authorised hremote

theorem Daemon.Guarded.request (h : d.Guarded hexmd5 env) (i : Fin maxClients) (world : World)
    (line : CString) (written : Bool) :
    (d.request hexmd5 env i world line written).Guarded hexmd5 env := by
  unfold Daemon.request
  split
  · next hconnected =>
      refine h.update fun hstays hremote => ?_
      have hbefore := h i hconnected hremote
      have hreply := hbefore.reply
        (printRequest_answeredBy hexmd5 env world (d.clients i) (parseRequest line))
      unfold Reply.after at hstays ⊢
      cases hanswer : (printStatus hexmd5 env world (d.clients i) line).answer with
      | none =>
          rw [hanswer] at hstays
          exact absurd hstays Bool.false_ne_true
      | some answer =>
          rw [printStatus] at hanswer
          rw [hanswer] at hreply
          exact ⟨hreply.normal, hreply.admin, hreply.salt⟩
  · exact h

theorem Daemon.Guarded.step (h : d.Guarded hexmd5 env) (event : Event) :
    (d.step hexmd5 env event).Guarded hexmd5 env := by
  cases event with
  | accept address => exact h.accept address
  | request i world line written => exact h.request i world line written
  | readError i =>
      have hclosed : Daemon.Guarded hexmd5 env
          ⟨Function.update d.clients i (d.clients i).closed,
            Function.update d.connections i (d.connections i)⟩ :=
        h.update fun hstays => absurd hstays Bool.false_ne_true
      rw [Function.update_eq_self] at hclosed
      exact hclosed

theorem Daemon.run_guarded (hexmd5 : String → String) (env : Environment) (events : List Event) :
    (Daemon.run hexmd5 env events).Guarded hexmd5 env := by
  have hinit : Daemon.init.Guarded hexmd5 env :=
    fun i hconnected => absurd hconnected Bool.false_ne_true
  unfold Daemon.run
  generalize Daemon.init = d at hinit
  induction events generalizing d with
  | nil => exact hinit
  | cons event events ih => exact ih _ (hinit.step event)

/-! ### Requests -/

/-- The environment allows the action, or the client is an administrator, or none is needed. -/
def Permitted (env : Environment) (client : Client) (action : Action) : Prop :=
  action.Allowed env ∨ client.admin ∨ needsAdminPass env client = false

theorem doIfAllowed_permitted {switch : String} {action done : Action}
    (hswitch : action.switch = some switch)
    (h : (doIfAllowed env world client switch action).action = some done) :
    Permitted env client done := by
  unfold doIfAllowed at h
  split at h
  · next hmay =>
      cases h
      rcases Bool.or_eq_true_iff.mp hmay with hadmin | hyes
      · exact Or.inr (Or.inl hadmin)
      · exact Or.inl ⟨switch, hswitch, eq_of_beq hyes⟩
  · cases h

theorem cmdDialmode_permitted {arg : String} {done : Action}
    (h : (cmdDialmode env world client arg).action = some done) : Permitted env client done := by
  unfold cmdDialmode at h
  split_ifs at h
  · exact doIfAllowed_permitted rfl h
  · exact doIfAllowed_permitted rfl h
  · exact doIfAllowed_permitted rfl h
  · cases h

theorem cmdRoute_permitted {circuitIdx : ℤ} {done : Action}
    (h : (cmdRoute env world client circuitIdx).action = some done) : Permitted env client done := by
  unfold cmdRoute at h
  split at h
  · next hmay =>
      cases h
      rcases Bool.or_eq_true_iff.mp hmay.1 with hadmin | hyes
      · exact Or.inr (Or.inl hadmin)
      · exact Or.inl ⟨"IMOND_ROUTE", rfl, eq_of_beq hyes⟩
  · cases h

theorem inquiry_action : (inquiry world client r).action = none := by
  unfold inquiry
  split <;> rfl

theorem commands_permitted {done : Action} (h : (commands env world client r).action = some done) :
    needsPass env client = false ∧ Permitted env client done := by
  unfold commands at h
  split_ifs at h with hpass
  · cases h
  · cases inquiry_action.symm.trans h
  · cases h
  · exact ⟨Bool.eq_false_iff.mpr hpass, doIfAllowed_permitted rfl h⟩
  · exact ⟨Bool.eq_false_iff.mpr hpass, doIfAllowed_permitted rfl h⟩
  · exact ⟨Bool.eq_false_iff.mpr hpass, doIfAllowed_permitted rfl h⟩
  · exact ⟨Bool.eq_false_iff.mpr hpass, doIfAllowed_permitted rfl h⟩
  · exact ⟨Bool.eq_false_iff.mpr hpass, doIfAllowed_permitted rfl h⟩
  · cases h
  · cases h
  · next hadmin =>
      exact ⟨Bool.eq_false_iff.mpr hpass, Or.inr (Or.inr (Bool.eq_false_iff.mpr hadmin))⟩

theorem commandsWithArg_permitted {arg : String} {done : Action}
    (h : (commandsWithArg env world client r arg).action = some done) :
    needsPass env client = false ∧ Permitted env client done := by
  unfold commandsWithArg at h
  split_ifs at h with hpass
  · cases h
  · cases inquiry_action.symm.trans h
  · exact ⟨Bool.eq_false_iff.mpr hpass, doIfAllowed_permitted rfl h⟩
  · cases h
  · cases h
  · cases h
  · cases h
  · exact ⟨Bool.eq_false_iff.mpr hpass, cmdDialmode_permitted h⟩
  · exact ⟨Bool.eq_false_iff.mpr hpass, cmdRoute_permitted h⟩
  · cases h
  · next hadmin =>
      exact ⟨Bool.eq_false_iff.mpr hpass, Or.inr (Or.inr (Bool.eq_false_iff.mpr hadmin))⟩

theorem tryPasswords_action {sent : String → Bool} :
    (tryPasswords env client sent).action = none := by
  unfold tryPasswords
  simp only [apply_ite Reply.action, Client.reply, Client.replyErr, ite_self]

theorem AnsweredBy.permitted {reply : Reply} (hreply : AnsweredBy hexmd5 env world client r reply)
    {done : Action} (h : reply.action = some done) :
    needsPass env client = false ∧ Permitted env client done := by
  cases hreply with
  | help hcommand => cases h
  | pass hcommand =>
      cases harg : r.arg with
      | none =>
          rw [harg] at h
          cases h
      | some arg =>
          rw [harg] at h
          cases tryPasswords_action.symm.trans h
  | md5pass hcommand =>
      cases harg : r.arg with
      | none =>
          rw [harg] at h
          cases h
      | some arg =>
          simp only [harg, cmdMd5pass] at h
          split at h
          · cases h
          · cases tryPasswords_action.symm.trans h
  | version hcommand => cases h
  | quit hcommand => cases h
  | salt hcommand harg => cases h
  | plain => exact commands_permitted h
  | withArg arg => exact commandsWithArg_permitted h

theorem AnsweredBy.checked {reply : Reply} (hreply : AnsweredBy hexmd5 env world client r reply)
    (hcommand : r.command ∉ freeCommands) :
    reply = commands env world client r ∨ ∃ arg, reply = commandsWithArg env world client r arg := by
  have hfree : ∀ command ∈ freeCommands, r.command ≠ command :=
    fun command hmem heq => hcommand (heq ▸ hmem)
  cases hreply with
  | help h => exact absurd h (hfree "help" (by decide))
  | pass h => exact absurd h (hfree "pass" (by decide))
  | md5pass h => exact absurd h (hfree "md5pass" (by decide))
  | version h => exact absurd h (hfree "version" (by decide))
  | quit h => exact absurd h (hfree "quit" (by decide))
  | salt h => exact absurd h (hfree "salt" (by decide))
  | plain => exact Or.inl rfl
  | withArg arg => exact Or.inr ⟨arg, rfl⟩

theorem AnsweredBy.normal {reply : Reply} (hreply : AnsweredBy hexmd5 env world client r reply)
    (hcommand : r.command ∉ freeCommands) (hserved : ¬ Refused reply.answer) :
    needsPass env client = false := by
  by_contra hneeds
  apply hserved
  refine ⟨" password required\r\n", ?_⟩
  rcases hreply.checked hcommand with rfl | ⟨arg, rfl⟩
  · rw [commands, if_pos (Bool.not_eq_false _ ▸ hneeds)]
    rfl
  · rw [commandsWithArg, if_pos (Bool.not_eq_false _ ▸ hneeds)]
    rfl

/-- The commands in front of the last check. -/
def userCommands : List String :=
  ["client-ip", "enable", "disable", "reboot", "halt", "poweroff", "dial", "hangup", "help",
    "is-allowed", "dialmode", "route"]

theorem administrative_other {command : String} (h : command ∈ administrative) :
    command ∉ freeCommands ∧ command ∉ inquiries ∧ command ∉ inquiriesWithArg ∧
      command ∉ userCommands := by
  revert command
  decide

theorem AnsweredBy.administrator {reply : Reply} (hreply : AnsweredBy hexmd5 env world client r reply)
    (hcommand : r.command ∈ administrative) (hserved : ¬ Refused reply.answer) :
    needsPass env client = false ∧ needsAdminPass env client = false := by
  obtain ⟨hfree, hinquiry, hinquiryArg, huser⟩ := administrative_other hcommand
  simp only [userCommands, List.mem_cons, List.not_mem_nil, or_false, not_or] at huser
  have hpass := hreply.normal hfree hserved
  refine ⟨hpass, ?_⟩
  by_contra hneeds
  rw [Bool.not_eq_false] at hneeds
  apply hserved
  refine ⟨" administrator password required\r\n", ?_⟩
  rcases hreply.checked hfree with rfl | ⟨arg, rfl⟩
  · simp only [commands, hpass, hinquiry, huser, hneeds, List.mem_cons, List.not_mem_nil, or_self,
      if_true, if_false, Bool.false_eq_true]
    rfl
  · simp only [commandsWithArg, hpass, hinquiryArg, huser, hneeds, if_true, if_false,
      Bool.false_eq_true]
    rfl

/-! ### Passwords behind rights -/

theorem Authorised.sent_normal (h : Authorised hexmd5 env client history)
    (hpass : needsPass env client = false) {pass : String} (hset : imondPass env = some pass) :
    HasSent hexmd5 pass history ∨
      ∃ adminPass, imondAdminPass env = some adminPass ∧ HasSent hexmd5 adminPass history := by
  have hrequired : passRequired env = true := by rw [passRequired, hset, Option.isSome_some]
  have hright : client.normal = true := by simpa [needsPass, hrequired] using hpass
  obtain ⟨sent, hnormal | hadmin, hsent⟩ := h.normal hrequired hright
  · rw [hset] at hnormal
    cases hnormal
    exact Or.inl hsent
  · exact Or.inr ⟨sent, hadmin, hsent⟩

theorem adminPassSet_cases {pass : String} (hset : adminPassSet env = some pass) :
    imondAdminPass env = some pass ∨ imondAdminPass env = none ∧ imondPass env = some pass := by
  unfold imondAdminPass
  by_cases hsame : imondPass env = some pass
  · right
    simp [hset, hsame]
  · left
    simp [hset, hsame]

theorem Authorised.sent_admin (h : Authorised hexmd5 env client history) {pass : String}
    (hset : adminPassSet env = some pass) (hpass : needsPass env client = false)
    (hright : client.admin ∨ needsAdminPass env client = false) : HasSent hexmd5 pass history := by
  rcases adminPassSet_cases hset with hadmin | ⟨hnone, hnormal⟩
  · have hrequired : adminPassRequired env = true := by
      rw [adminPassRequired, hadmin, Option.isSome_some]
    have hclient : client.admin = true := by
      rcases hright with hright | hright
      · exact hright
      · simpa [needsAdminPass, hrequired] using hright
    exact h.admin pass (by rw [adminPassword, hadmin, Option.some_or]) hclient
  · rcases h.sent_normal hpass hnormal with hsent | ⟨adminPass, hadmin, -⟩
    · exact hsent
    · rw [hnone] at hadmin
      cases hadmin

end Proofs

/-- Clients from elsewhere get answers and actions only for the passwords they have sent on their
connection.  If there is a normal password, other requests than the free ones are answered only to clients
that have sent this password or the one of the administrator.  If there is a password of the
administrator, administrative requests, and actions that the environment does not allow to everybody, need
this one. -/
theorem accessControl (hexmd5 : String → String) (env : Environment) (events : List Event)
    (i : Fin maxClients) (world : World) (line : CString)
    (hconnected : ((Daemon.run hexmd5 env events).clients i).connected)
    (hremote : ((Daemon.run hexmd5 env events).connections i).address ≠ localAddress) :
    let client := (Daemon.run hexmd5 env events).clients i
    let history := ((Daemon.run hexmd5 env events).connections i).history
    let reply := printStatus hexmd5 env world client line
    let command := (parseRequest line).command
    (∀ pass, imondPass env = some pass → command ∉ freeCommands → ¬ Refused reply.answer →
      HasSent hexmd5 pass history ∨
        ∃ adminPass, imondAdminPass env = some adminPass ∧ HasSent hexmd5 adminPass history) ∧
    (∀ adminPass, adminPassSet env = some adminPass →
      (command ∈ administrative ∧ ¬ Refused reply.answer) ∨
        (∃ action, reply.action = some action ∧ ¬ action.Allowed env) →
      HasSent hexmd5 adminPass history) := by
  have hauthorised := Daemon.run_guarded hexmd5 env events i hconnected hremote
  have hreply := printRequest_answeredBy hexmd5 env world
    ((Daemon.run hexmd5 env events).clients i) (parseRequest line)
  constructor
  · intro pass hset hcommand hserved
    exact hauthorised.sent_normal (hreply.normal hcommand hserved) hset
  · rintro adminPass hset (⟨hcommand, hserved⟩ | ⟨action, hdone, hnotAllowed⟩)
    · obtain ⟨hpass, hadmin⟩ := hreply.administrator hcommand hserved
      exact hauthorised.sent_admin hset hpass (Or.inr hadmin)
    · obtain ⟨hpass, hpermitted⟩ := hreply.permitted hdone
      exact hauthorised.sent_admin hset hpass (hpermitted.resolve_left hnotAllowed)

/-- With both passwords set, a client from elsewhere sends the one of the administrator and then `sync`,
which is answered. -/
theorem accessControl_sample :
    let env : Environment := fun name =>
      if name = "IMOND_PASS" then some "user" else if name = "IMOND_ADMIN_PASS" then some "root" else none
    let world : World :=
      ⟨fun _ _ => none, fun _ => false, fun _ => 0, fun _ => none, 0, fun _ _ => "", "0", fun _ => none⟩
    let events := [Event.accept "192.168.6.2", .request 0 world "pass root\r\n".toList true]
    HasSent id "root" ((Daemon.run id env events).connections 0).history := by
  intro env world events
  have hanswer : (printStatus id env world ((Daemon.run id env events).clients 0) "sync\r\n".toList).answer =
      some "OK\r\n" := by decide
  refine (accessControl id env events 0 world "sync\r\n".toList (by decide) (by decide)).2 "root"
    (by decide) (Or.inl ⟨by decide, ?_⟩)
  rw [hanswer]
  rintro ⟨text, htext⟩
  have hchars := congrArg String.toList (Option.some.inj htext)
  simp at hchars

end Imond
end Mkfli4l
