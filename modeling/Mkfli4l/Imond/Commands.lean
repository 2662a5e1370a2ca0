import Mathlib.Data.List.DropRight
import Mkfli4l.Lib.CNumber

/-!
# The commands of `imond`

Clients connect to `imond` and send commands, one a line.  `print_status` takes a line apart and goes
through the commands in four blocks: commands that need no password, commands that need the normal
password, commands that need the permission of the environment or the administrator password, and
commands that need the administrator password.

Where a command only reads or changes the state of the router, what it finds or what comes of it is
taken from the `World` at that moment.  What the commands do to the authorisation of a client is
modelled in full.
-/

namespace Mkfli4l
namespace Imond

open Lib

/-! ## Passwords -/

/-- The environment of the daemon, `getenv`. -/
abbrev Environment := String → Option String

/-- The normal password.  An empty one counts as none. -/
def imondPass (env : Environment) : Option String :=
  (env "IMOND_PASS").filter (· ≠ "")

/-- The password of the administrator in the environment. -/
def adminPassSet (env : Environment) : Option String :=
  (env "IMOND_ADMIN_PASS").filter (· ≠ "")

/-- The password of the administrator, if it differs from the normal one. -/
def imondAdminPass (env : Environment) : Option String :=
  (adminPassSet env).filter (fun pass => imondPass env ≠ some pass)

/-- The flag `PASS_REQUIRED` of `password_mode`. -/
def passRequired (env : Environment) : Bool := (imondPass env).isSome

/-- The flag `ADMIN_PASS_REQUIRED` of `password_mode`. -/
def adminPassRequired (env : Environment) : Bool := (imondAdminPass env).isSome

/-- `password_mode` as it is told to the client. -/
def passwordMode (env : Environment) (adminMode : Bool) : ℤ :=
  (if passRequired env then 1 else 0) + (if adminPassRequired env then 2 else 0) +
    (if adminMode then 4 else 0)

/-! ## Clients -/

/-- A slot for a client: whether it has a file descriptor, and `client_ip`, the flags of
`password_state` and `client_salt`. -/
structure Client where
  connected : Bool
  ip : String
  normal : Bool
  admin : Bool
  salt : String

/-- A slot no client has used yet. -/
def Client.unused : Client := ⟨false, "", false, false, ""⟩

/-- `127.0.0.1`. -/
def localAddress : String := "127.0.0.1"

/-- A slot after `accept`. -/
def acceptClient (env : Environment) (address : String) : Client :=
  if address = localAddress then
    ⟨true, address, true, true, ""⟩
  else
    ⟨true, address, !passRequired env, !passRequired env && !adminPassRequired env, ""⟩

/-! ## Requests and replies -/

/-- A line from a client.  The numbers are -1 where the line has none. -/
structure Request where
  command : String
  arg : Option String
  idx : ℤ
  value : ℤ

/-- The line up to its end, without the blanks at its end. -/
def trimLine (buf : CString) : CString :=
  ((buf.takeWhile (· ≠ '\r')).takeWhile (· ≠ '\n')).rdropWhile (· = ' ')

/-- Takes a line apart into the command and its arguments. -/
def parseRequest (buf : CString) : Request :=
  let line := trimLine buf
  let command := String.ofList (line.takeWhile (· ≠ ' '))
  match line.dropWhile (· ≠ ' ') with
  | [] => ⟨command, none, -1, -1⟩
  | rest =>
      let arg := rest.dropWhile (· = ' ')
      let value :=
        match arg.dropWhile (· ≠ ' ') with
        | [] => -1
        | next => atoi (next.dropWhile (· = ' '))
      ⟨command, some (String.ofList arg), atoi arg, value⟩

inductive Dialmode
  | off
  | auto
  | manual
deriving DecidableEq

/-- What a command makes the router do.  `shutdown` stands for `reboot`, `halt` and `poweroff`, which
switch the dial mode off and hang up first. -/
inductive Action
  | setDialmode (mode : Dialmode)
  | dial
  | hangup (channel : Option String)
  | shutdown (command : String)
  | route (circuitIdx : ℤ)
  | sync
  | resetTelmondLog
  | resetImondLog
  | support
  | receiveFile (filename : CString) (nbytes : ℤ)
  | sendFile (filename : CString)
  | deleteFile (filename : CString)
  | setStatus (arg : String)
  | hupTimeout (circuitIdx value : ℤ)
  | addlink (circuitIdx : ℤ)
  | removelink (circuitIdx : ℤ)
  | adjustTime (seconds value : ℤ)

/-- The router at the time of a request: the answers to the commands that ask for its state (none where
there is nothing to answer), whether a log is kept, the results of actions, the number of circuits, the
texts of the help, random bytes as a salt, and `password_valid`, which may find no entry for root. -/
structure World where
  inquire : String → Option String → Option String
  logKept : String → Bool
  result : Action → ℤ
  answerTo : Action → Option String
  nCircuits : ℤ
  helpText : Option String → Bool → String
  salt : String
  passwordValid : String → Option Bool

/-- What `print_status` leaves behind: the slot, the answer (none to end the connection), and what has
been done. -/
structure Reply where
  client : Client
  answer : Option String
  action : Option Action

/-- `OK` with a number. -/
def okAnswer (n : ℤ) : String := "OK " ++ String.ofList (formatInt n) ++ "\r\n"

/-- The slot is left as it is, and nothing is done. -/
def Client.reply (client : Client) (answer : String) : Reply := ⟨client, some answer, none⟩

/-- The answer that stands for an error. -/
def Client.replyErr (client : Client) : Reply := client.reply "ERR\r\n"

/-! ## Passwords from clients -/

/-- `cmd_pass` and `cmd_md5pass` compare what the client has sent with both passwords. -/
def tryPasswords (env : Environment) (client : Client) (sent : String → Bool) : Reply :=
  let isAdmin := (imondAdminPass env).any sent
  let isNormal := (imondPass env).any sent
  let client :=
    { client with
      normal := client.normal || isAdmin || isNormal
      admin := client.admin || isAdmin || (isNormal && (imondAdminPass env).isNone) }
  if isAdmin || isNormal then
    client.reply (okAnswer (passwordMode env client.admin))
  else
    client.replyErr

/-- Without an argument, the client asks for the mode. -/
def askMode (env : Environment) (client : Client) : Reply :=
  client.reply (okAnswer (passwordMode env client.admin))

def cmdPass (env : Environment) (client : Client) (arg : Option String) : Reply :=
  match arg with
  | none => askMode env client
  | some arg => tryPasswords env client (fun pass => arg = pass)

def cmdSalt (world : World) (client : Client) : Reply :=
  { client with salt := world.salt }.reply ("OK " ++ world.salt ++ "\r\n")

def cmdMd5pass (hexmd5 : String → String) (env : Environment) (client : Client)
    (arg : Option String) : Reply :=
  match arg with
  | none => askMode env client
  | some arg =>
      if client.salt = "" then
        client.reply "ERR there was no salt!\r\n"
      else
        tryPasswords env client (fun pass => arg = hexmd5 (pass ++ client.salt))

def cmdHelp (env : Environment) (world : World) (client : Client) (arg : Option String) : Reply :=
  client.reply (world.helpText arg (!adminPassRequired env || client.admin) ++ "\r\nOK 0\r\n")

/-! ## Permissions -/

/-- The administrator may do everything, others what the environment allows. -/
def mayDo (env : Environment) (client : Client) (switch : String) : Bool :=
  client.admin || env switch == some "yes"

/-- `enable`, `disable`, `reboot`, `halt`, `poweroff`, `dial`, `hangup` and `dialmode`. -/
def doIfAllowed (env : Environment) (world : World) (client : Client) (switch : String)
    (action : Action) : Reply :=
  if mayDo env client switch then
    ⟨client, some (okAnswer (world.result action)), some action⟩
  else
    client.replyErr

/-- The answer to a command that asks for the state of the router. -/
def inquiry (world : World) (client : Client) (r : Request) : Reply :=
  match world.inquire r.command r.arg with
  | some answer => client.reply answer
  | none => client.replyErr

/-- Is `is-allowed` answered with 1? -/
def isAllowed (env : Environment) (world : World) (client : Client) (arg : String) : Bool :=
  if arg ∈ ["imond-log", "telmond-log", "mgetty-log"] then world.logKept arg
  else if arg ∈ ["dial", "hangup"] then mayDo env client "IMOND_DIAL"
  else if arg = "dialmode" then mayDo env client "IMOND_ENABLE"
  else if arg = "route" then mayDo env client "IMOND_ROUTE"
  else if arg ∈ ["reboot", "halt", "poweroff"] then mayDo env client "IMOND_REBOOT"
  else false

/-- `dialmode` with an argument. -/
def cmdDialmode (env : Environment) (world : World) (client : Client) (arg : String) : Reply :=
  if arg = "off" then doIfAllowed env world client "IMOND_ENABLE" (.setDialmode .off)
  else if arg = "auto" then doIfAllowed env world client "IMOND_ENABLE" (.setDialmode .auto)
  else if arg = "manual" then doIfAllowed env world client "IMOND_ENABLE" (.setDialmode .manual)
  else client.replyErr

/-- `route` with an argument.  The circuit -1 stands for automatic routing. -/
def cmdRoute (env : Environment) (world : World) (client : Client) (circuitIdx : ℤ) : Reply :=
  if mayDo env client "IMOND_ROUTE" ∧ -1 ≤ circuitIdx ∧ circuitIdx < world.nCircuits then
    ⟨client, some "OK\r\n", some (.route circuitIdx)⟩
  else
    client.replyErr

/-! ## Commands of the administrator -/

/-- `sscanf` with `%s`. -/
def scanWord (s : CString) : Option (CString × CString) :=
  let s := s.dropWhile isSpaceC
  if s = [] then none else some (s.takeWhile (!isSpaceC ·), s.dropWhile (!isSpaceC ·))

/-- `sscanf` with `%ld`. -/
def scanLong (s : CString) : Option (ℤ × CString) :=
  let r := strtol 10 s
  if r.rest = s then none else some (r.value, r.rest)

/-- The arguments of `receive`. -/
def scanReceive (arg : CString) : Option (CString × ℤ × CString) := do
  let (filename, rest) ← scanWord arg
  let (nbytes, rest) ← scanLong rest
  let (pw, _) ← scanWord rest
  return (filename, nbytes, pw)

/-- The arguments of `send` and `delete`. -/
def scanFile (arg : CString) : Option (CString × CString) := do
  let (filename, rest) ← scanWord arg
  let (pw, _) ← scanWord rest
  return (filename, pw)

/-- `receive`, `send` and `delete` need the password of root. -/
def transfer (world : World) (client : Client) (pw : CString) (action : Action) : Reply :=
  match world.passwordValid (String.ofList pw) with
  | some true => ⟨client, some (if world.result action = 0 then "OK\r\n" else "ERR\r\n"), some action⟩
  | none => client.reply "ERR cannot get passwd entry for root\r\n"
  | some false => client.reply "ERR password invalid\r\n"

/-- An action with an answer of its own. -/
def carryOut (world : World) (client : Client) (action : Action) : Reply :=
  ⟨client, some ((world.answerTo action).getD "ERR\r\n"), some action⟩

/-- The block for the administrator, without an argument. -/
def adminCommands (client : Client) (r : Request) : Reply :=
  if r.command = "sync" then ⟨client, some "OK\r\n", some .sync⟩
  else if r.command = "reset-telmond-log-file" then ⟨client, some "OK 0\r\n", some .resetTelmondLog⟩
  else if r.command = "reset-imond-log-file" then ⟨client, some "OK 0\r\n", some .resetImondLog⟩
  else client.replyErr

/-- The block for the administrator, with an argument. -/
def adminCommandsWithArg (world : World) (client : Client) (r : Request) (arg : String) : Reply :=
  if r.command = "support" then
    match world.passwordValid arg with
    | some true => carryOut world client .support
    | none => client.reply "OK cannot get passwd entry for root\r\n"
    | some false => client.reply "ERR password incorrect\r\n"
  else if r.command = "receive" then
    match scanReceive arg.toList with
    | some (filename, nbytes, pw) => transfer world client pw (.receiveFile filename nbytes)
    | none => client.replyErr
  else if r.command = "send" then
    match scanFile arg.toList with
    | some (filename, pw) => transfer world client pw (.sendFile filename)
    | none => client.replyErr
  else if r.command = "delete" then
    match scanFile arg.toList with
    | some (filename, pw) => transfer world client pw (.deleteFile filename)
    | none => client.replyErr
  else if r.command = "set-status" then carryOut world client (.setStatus arg)
  else if r.command = "hup-timeout" then carryOut world client (.hupTimeout (r.idx - 1) r.value)
  else if r.command = "addlink" then carryOut world client (.addlink (r.idx - 1))
  else if r.command = "removelink" then carryOut world client (.removelink (r.idx - 1))
  else if r.command = "adjust-time" then carryOut world client (.adjustTime r.idx r.value)
  else client.replyErr

/-! ## `print_status` -/

/-- Is the normal password missing? -/
def needsPass (env : Environment) (client : Client) : Bool :=
  passRequired env && !client.normal

/-- Is the password of the administrator missing? -/
def needsAdminPass (env : Environment) (client : Client) : Bool :=
  adminPassRequired env && !client.admin

/-- The commands without an argument that ask for the state of the router. -/
def inquiries : List String :=
  ["is-enabled", "fli4l-id", "highscore", "hostname", "dialmode", "channels", "timetable", "circuits",
    "date", "route", "pppoe", "uptime", "cpu", "telmond-log-file", "imond-log-file", "mgetty-log-file"]

/-- The commands with an argument that ask for the state of the router. -/
def inquiriesWithArg : List String :=
  ["driverid", "status", "phone", "online-time", "time", "chargetime", "charge", "usage", "inout", "ip",
    "quantity", "rate", "circuit", "device", "links", "timetable", "log-dir"]

/-- The commands without an argument, from the check of the normal password on. -/
def commands (env : Environment) (world : World) (client : Client) (r : Request) : Reply :=
  if needsPass env client then client.reply "ERR password required\r\n"
  else if r.command ∈ inquiries then inquiry world client r
  else if r.command = "client-ip" then client.reply ("OK " ++ client.ip ++ "\r\n")
  else if r.command = "enable" then
    doIfAllowed env world client "IMOND_ENABLE" (.setDialmode .auto)
  else if r.command = "disable" then
    doIfAllowed env world client "IMOND_ENABLE" (.setDialmode .off)
  else if r.command ∈ ["reboot", "halt", "poweroff"] then
    doIfAllowed env world client "IMOND_REBOOT" (.shutdown r.command)
  else if r.command = "dial" then doIfAllowed env world client "IMOND_DIAL" .dial
  else if r.command = "hangup" then doIfAllowed env world client "IMOND_DIAL" (.hangup none)
  else if r.command = "help" then cmdHelp env world client none
  else if needsAdminPass env client then client.reply "ERR administrator password required\r\n"
  else adminCommands client r

/-- The commands with an argument, from the check of the normal password on. -/
def commandsWithArg (env : Environment) (world : World) (client : Client) (r : Request)
    (arg : String) : Reply :=
  if needsPass env client then client.reply "ERR password required\r\n"
  else if r.command ∈ inquiriesWithArg then inquiry world client r
  else if r.command = "hangup" then doIfAllowed env world client "IMOND_DIAL" (.hangup (some arg))
  else if r.command = "client-ip" then
    if client.ip = localAddress then
      let ip := String.ofList (arg.toList.take 15)
      { client with ip := ip }.reply ("OK " ++ ip ++ "\r\n")
    else
      client.replyErr
  else if r.command = "is-allowed" then
    client.reply (okAnswer (if isAllowed env world client arg then 1 else 0))
  else if r.command = "dialmode" then cmdDialmode env world client arg
  else if r.command = "route" then cmdRoute env world client (r.idx - 1)
  else if needsAdminPass env client then client.reply "ERR administrator password required\r\n"
  else adminCommandsWithArg world client r arg

/-- The commands that need no password are tried first. -/
def printRequest (hexmd5 : String → String) (env : Environment) (world : World) (client : Client)
    (r : Request) : Reply :=
  if r.command = "help" ∧ r.arg.isSome then cmdHelp env world client r.arg
  else if r.command = "pass" then cmdPass env client r.arg
  else if r.command = "md5pass" then cmdMd5pass hexmd5 env client r.arg
  else
    match r.arg with
    | none =>
        if r.command = "version" then client.reply "OK 11 2.2.0\r\n"
        else if r.command = "quit" then ⟨client, none, none⟩
        else if r.command = "salt" then cmdSalt world client
        else commands env world client r
    | some arg => commandsWithArg env world client r arg

def printStatus (hexmd5 : String → String) (env : Environment) (world : World) (client : Client)
    (buf : CString) : Reply :=
  printRequest hexmd5 env world client (parseRequest buf)

end Imond
end Mkfli4l
