import NetworkFileSystem.Naming.State
import NetworkFileSystem.Base.Prog

/-!
# The naming server's programs

`naming_server.c:56–221,365–1233`, `tries.c:170–223`. Each function is a program over
the operations that other parties answer: pings, sends and receives on the connection
of a storage server, sends to the client. The tables are passed explicitly. Console
output and the log file are left out; a received line is given as the C string it
starts with. A send to the client is always attempted; where a failed one ends the
client's thread, the next receive would have ended it as well.
-/

namespace NetworkFileSystem.Naming

open Base Protocol Trie

/-- What the naming server asks of its environment. -/
inductive NsOp where
  /-- Connect to the client port of server `i` and exchange a ping. -/
  | ping (i : Nat)
  /-- Send a command to server `i` whose answer is read next. -/
  | forward (i : Nat) (msg : Text)
  /-- Send a command to server `i` and go on. -/
  | replicate (i : Nat) (msg : Text)
  /-- `send(dest_sock, "reindex", …)`. -/
  | reindex (i : Nat)
  /-- One `recv_good` of up to `BUFFER_SIZE` bytes from server `i`. -/
  | recvServer (i : Nat)
  /-- The `recv_good` results that `indexHelper` consumes on the connection of server `i`. -/
  | recvIndex (i : Nat)
  /-- Send bytes to the client. -/
  | sendClient (msg : Text)
  /-- Open a connection to a client's acknowledgement port and send bytes. -/
  | sendAck (ip port : Text) (msg : Text)
  deriving DecidableEq

/-- Their outcomes. A send reports whether it succeeded, a receive the bytes it got. -/
@[reducible] def NsOp.Res : NsOp → Type
  | .ping _ => PingResult
  | .forward _ _ => Bool
  | .replicate _ _ => Bool
  | .reindex _ => Bool
  | .recvServer _ => Option Text
  | .recvIndex _ => List Text
  | .sendClient _ => Bool
  | .sendAck _ _ _ => Bool

/-- Programs of the naming server. -/
abbrev NsProg (α : Type) : Type := Prog NsOp NsOp.Res α

/-- An operation with its outcome. -/
abbrev NsEvent : Type := Event NsOp NsOp.Res

/-- The answer of a ping. -/
def ping (i : Nat) : NsProg PingResult := Prog.call (NsOp.ping i)

/-- Whether a send to server `i` succeeded. -/
def forward (i : Nat) (msg : Text) : NsProg Bool := Prog.call (NsOp.forward i msg)

/-- What a receive from server `i` returned; `none` is a result of at most zero. -/
def recvServer (i : Nat) : NsProg (Option Text) := Prog.call (NsOp.recvServer i)

/-- The segments in which an index arrives. -/
def recvIndex (i : Nat) : NsProg (List Text) := Prog.call (NsOp.recvIndex i)

/-- Whether a send to the client succeeded. -/
def sendClient (msg : Text) : NsProg Bool := Prog.call (NsOp.sendClient msg)

/-- A send to the client whose failure is only reported. -/
def reply (msg : Text) : NsProg Unit := do
  let _ ← sendClient msg

/-- A send to server `i` whose failure is only reported. -/
def replicate (i : Nat) (msg : Text) : NsProg Unit := do
  let _ ← (Prog.call (NsOp.replicate i msg) : NsProg Bool)

/-- `send(dest_sock, "reindex", strlen("reindex"), 0)`. -/
def reindex (i : Nat) : NsProg Unit := do
  let _ ← (Prog.call (NsOp.reindex i) : NsProg Bool)

/-- `naming_server.c:365–420`. -/
def isSsUp (st : NsState) (i : Nat) : NsProg (Bool × NsState) := do
  let r ← ping i
  pure (decide (r = .up), st.afterPing i r)

/-- `naming_server.c:435–456`. -/
def redundantSs (st : NsState) (index : Nat) : NsProg (Option Nat × NsState) := do
  let (up, st) ← isSsUp st index
  if up then return (some index, st)
  let (up, st) ← tryBackup st (st.backupServer1 index)
  if up then return (st.backupServer1 index, st)
  let (up, st) ← tryBackup st (st.backupServer2 index)
  if up then return (st.backupServer2 index, st)
  return (none, st)
where
  /-- `indexOfBS != -1 && isSSUp(indexOfBS)`. -/
  tryBackup (st : NsState) : Option Nat → NsProg (Bool × NsState)
    | none => pure (false, st)
    | some b => isSsUp st b

/-- `naming_server.c:486–519`. -/
def searchStorageServer (st : NsState) (buffer : Text) : NsProg (Option Nat × NsState) :=
  match searchCache st.cache buffer with
  | some index => do
    let k := st.cache[index]?.map CacheEntry.index
    let cache := moveToBack st.cache index
    -- The entry at `index` is read again after the move, so it may be another one.
    let indexToSend := (cache[index]?.map CacheEntry.index).getD 0
    let (_, st) ← isSsUp { st with cache := cache } indexToSend
    pure (k, st)
  | none =>
    match searchInTries st.roots buffer with
    | none => .abort
    | some none =>
      -- Past a full table the loop would run into what lies behind the array.
      if st.storageServerIndex ≤ st.storageServers.length then pure (none, st) else .abort
    | some (some found) => do
      let (_, st) ← isSsUp { st with cache := addToCache st.cache buffer found } found
      pure (some found, st)

/-! ### Forwarding and replication -/

/-- `naming_server.c:852–876`, again at `943–1002`: forward a command, read the answer and
send it to the client. The result is the answer, if there was one. -/
def exchange (i : Nat) (line : Text) : NsProg (Option Text) := do
  if ← forward i line then
    match ← recvServer i with
    | none =>
      reply notResponding
      pure none
    | some bytes =>
      -- `response[bytes] = '\0'` needs room behind the bytes.
      if bytes.length < bufferSize then
        reply (cstr bytes)
        pure (some (cstr bytes))
      else .abort
  else pure none

/-- Send `msg b` to server `receiver b` if backup `b` is assigned and up. -/
def replicateTo (st : NsState) (receiver : Nat → Nat) (msg : Nat → Option Text) :
    Option Nat → NsProg NsState
  | none => pure st
  | some b => do
    let (up, st) ← isSsUp st b
    if up then
      let m ← Prog.ofOption (msg b)
      replicate (receiver b) m
      pure st
    else pure st

/-- `naming_server.c:880–901`, again at `1009–1035`: repeat a command with the verb's
backup form on both backups of server `i`. -/
def replicateCommand (st : NsState) (i : Nat) (command path : Text) : NsProg NsState := do
  let msg := clip bufferSize (command ++ lit "b " ++ path)
  let bs2 := st.backupServer2 i
  let st ← replicateTo st id (fun _ ↦ some msg) (st.backupServer1 i)
  replicateTo st id (fun _ ↦ some msg) bs2

end NetworkFileSystem.Naming
