import NetworkFileSystem.Protocol.Message

/-!
# Requests of the client

`client.c:17–70,90–182,432–601`. The client sends every command to the naming server and acts
on the answer: a read is sent again to the server whose address came back, a write goes out
with the data that is typed in. `line` is the command, `reply` the answer as the C string
that was received.
-/

namespace NetworkFileSystem.Client

open Base Protocol

/-- The delimiter byte `','`. -/
def comma : UInt8 := 44

/-! ### Reads -/

/-- The details of a server that are handed on, `client.c:564–601`: of a backup, its address
without the name of its root. -/
def handedOn (reply : Text) : Option Text :=
  if startsWith (lit "Backup") reply then
    match tokens comma (reply.drop 7) with
    | [] => none
    | [ip] => some ip
    | ip :: port :: _ => some (ip ++ lit "," ++ port)
  else some reply

/-- The address to which a read is sent, and what is sent there: `client.c:551–601`, with the
first lines of `sendAndRecieveFromSS` and `streamMusicFromSS`. Without a port the code reads
through a `NULL` pointer. -/
def readRequest (line reply : Text) : Option (Text × Text × Text) :=
  if containsText (lit "not found") reply then none
  else do
    let details ← handedOn reply
    match tokens comma details with
    | ip :: port :: _ => some (ip, port, line)
    | _ => none

/-! ### Writes -/

/-- The size of `input_str`, `client.c:449`. -/
def maxWrite : Nat := 4096

/-- The part of a write in front of the data, `client.c:451–476`; another answer leaves
`input_str` unset. -/
def writeHeader (reply path ip port : Text) : Option Text :=
  if startsWith (lit "PATH_OK_SYNC") reply then some (lit "WRITE_SYNC|" ++ path ++ lit "|")
  else if startsWith (lit "PATH_OK_ASYNC") reply then
    some (lit "WRITE_ASYNC|" ++ path ++ lit "|" ++ ip ++ lit "|" ++ port ++ lit "|")
  else none

/-- What is sent for a write of `data`, the bytes typed in up to the newline, `client.c:448–534`.
Behind the array the code would write past its end. -/
def writeMessage (reply path ip port data : Text) : Option Text :=
  if startsWith (lit "PATH_OK") reply then do
    let header ← writeHeader reply path ip port
    if (header ++ data).length < maxWrite then some (cstr (header ++ data)) else none
  else none

end NetworkFileSystem.Client
