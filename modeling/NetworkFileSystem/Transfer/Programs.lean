import NetworkFileSystem.Base.Prog
import NetworkFileSystem.Storage.Commands
import NetworkFileSystem.Storage.Path

/-!
# Copies between storage servers

`helper.c:760–1198`. The sending server walks through a file or folder and announces every
entry by a line; the receiving server acknowledges every line and every block of contents.
Both are programs over the calls they make. A call that returns nothing useful (`recv` or
`read` of at most zero, a missing entry) is answered by an empty text or `none`. The loops
that only the other side ends run on fuel.
-/

namespace NetworkFileSystem.Transfer

open Base Protocol Storage

/-- What is put on the connection: a line of the protocol, or bytes of a file. -/
inductive Packet where
  | line (text : Text)
  | content (bytes : Text)
  deriving DecidableEq

/-- `helper.c:761`. -/
def ackText : Text := lit "Message received"

/-- Do something for every element of a list, in order. -/
def forEach {Op : Type} {Res : Op → Type} {α : Type} (body : α → Prog Op Res Unit) :
    List α → Prog Op Res Unit
  | [] => pure ()
  | a :: rest => do
    body a
    forEach body rest

/-! ### The sending server -/

/-- `S_ISDIR`, `S_ISREG`, or neither. -/
inductive Kind where
  | folder
  | file
  | other
  deriving DecidableEq

/-- What the sender asks for; there is at most one open file. -/
inductive SendOp where
  | stat (path : Text)
  /-- `opendir` with all results of `readdir`. -/
  | opendir (path : Text)
  /-- `open(path, O_RDONLY)`. -/
  | openFile (path : Text)
  /-- The size of the open file. -/
  | fstat
  /-- `read` of up to `BUFFER_SIZE` bytes, `offset` of them being read already. -/
  | read (offset : Nat)
  | send (packet : Packet)
  | recv
  deriving DecidableEq

/-- The answers to the sender. -/
@[reducible] def SendOp.Res : SendOp → Type
  | .stat _ => Option Kind
  | .opendir _ => Option (List Text)
  | .openFile _ => Bool
  | .fstat => Option Nat
  | .read _ => Text
  | .send _ => Bool
  | .recv => Text

/-- Programs of the sender. -/
abbrev SendProg (α : Type) : Type := Prog SendOp SendOp.Res α

/-- A call of the sender. -/
def sendCall (o : SendOp) : SendProg o.Res := Prog.call o

/-- `helper.c:765–772`. -/
def receiveAck : SendProg Bool := do
  let ack ← sendCall .recv
  pure (cstr ack == ackText)

/-- `send(…) < 0 || receive_ack(…) < 0`, negated. -/
def converse (packet : Packet) : SendProg Bool := do
  if ← sendCall (.send packet) then receiveAck else pure false

/-- The loop at `helper.c:874–879`. -/
def sendChunks : Nat → Nat → SendProg Unit
  | 0, _ => .abort
  | fuel + 1, offset => do
    let bytes ← sendCall (.read offset)
    if bytes = [] then pure ()
    else if ← converse (.content bytes) then sendChunks fuel (offset + bytes.length)
    else pure ()

/-- The line that announces a file, `helper.c:852`. -/
def fileLine (name : Text) : Text := clip (maxPathSize + 50) (lit "FILE " ++ name ++ lit "\n")

/-- The line that announces a folder, `helper.c:897–898`. -/
def dirLine (name : Text) : Text := clip maxPathSize (lit "DIR " ++ name ++ lit "\n")

/-- The line with the size of a file, `helper.c:863`. -/
def sizeLine (size : Nat) : Text := clip (maxPathSize + 50) (decimal size ++ lit "\n")

/-- `helper.c:835–882`. -/
def sendFileOverNetwork (fuel : Nat) (src : Text) (lengthToSkip : Nat) : SendProg Unit := do
  if ← sendCall (.openFile src) then
    match ← sendCall .fstat with
    | none => pure ()
    | some size =>
      if ← converse (.line (fileLine (src.drop lengthToSkip))) then
        if ← converse (.line (sizeLine size)) then sendChunks fuel 0

/-- `.` and `..`, which every folder lists. -/
def isDots (name : Text) : Bool := name == lit "." || name == lit ".."

/-- The body of the loop at `helper.c:907–929`; `sendDirectory` is the recursive call. -/
def sendEntry (fuel : Nat) (sendDirectory : Text → SendProg Unit) (src : Text)
    (lengthToSkip : Nat) (name : Text) : SendProg Unit :=
  if isDots name then pure ()
  else do
    let path := clip maxPathSize (src ++ lit "/" ++ name)
    match ← sendCall (.stat path) with
    | some .folder => sendDirectory path
    | some .file => sendFileOverNetwork fuel path lengthToSkip
    | _ => pure ()

/-- `helper.c:885–932`. -/
def sendDirectoryOverNetwork : Nat → Text → Nat → SendProg Unit
  | 0, _, _ => .abort
  | fuel + 1, src, lengthToSkip => do
    match ← sendCall (.opendir src) with
    | none => pure ()
    | some names =>
      if ← converse (.line (dirLine (src.drop lengthToSkip))) then
        forEach (sendEntry fuel (fun path ↦ sendDirectoryOverNetwork fuel path lengthToSkip) src
          lengthToSkip) names

/-- Whether `%d` finds a number in a word. -/
def scansNumber (word : Text) : Bool :=
  let digits := if word.head? = some 43 ∨ word.head? = some 45 then word.drop 1 else word
  digits.head?.any (fun b ↦ 48 ≤ b && b ≤ 57)

/-- Source, destination and address of a copy, from the words behind the verb,
`helper.c:781`, again at `1149`. -/
def scanCopy : List Text → Option (Text × Text × Text)
  | src :: dest :: ip :: port :: _ => if scansNumber port then some (src, dest, ip) else none
  | _ => none

/-- `strlen(src) - strlen(strrchr(src, '/') + 1)`; without a slash the code reads through a
`NULL` pointer. -/
def lengthBeforeName (src : Text) : Option Nat :=
  if slash ∈ src then some (src.length - (afterLast slash src).length) else none

/-- What `copy_different_src` and `copy_different_src_b` share: `scanned` are the arguments,
`verbs` is named in the message about missing ones, and `lengthToSkip` is the part of the
source path that is not sent. -/
def copySource (fuel : Nat) (scanned : Option (Text × Text × Text)) (verbs : Text)
    (lengthToSkip : Text → Text → Kind → Option Nat) : SendProg Text := do
  match scanned with
  | none =>
    pure (lit "Invalid input format. Expected: " ++ verbs ++
      lit " <srcpath> <destpath> <ip> <port>\n")
  | some (src, dest, ip) =>
    -- `char ip[16]` would be overrun.
    if 16 ≤ ip.length then .abort else
    match ← sendCall (.stat src) with
    | none => pure (clip bufferSize (lit "Source path " ++ src ++ lit " does not exist\n"))
    | some kind =>
      if ← receiveAck then
        let destInfo := clip (maxPathSize + 10) (lit "DEST " ++ dest ++ lit "\n")
        if ← sendCall (.send (.line destInfo)) then
          if ← receiveAck then
            let skip ← Prog.ofOption (lengthToSkip src dest kind)
            match kind with
            | .folder =>
              sendDirectoryOverNetwork fuel src skip
              finish
            | .file =>
              sendFileOverNetwork fuel src skip
              finish
            | .other => pure (lit "Unsupported file type\n")
          else pure noAck
        else pure (lit "Failed to send destination info\n")
      else pure noAck
where
  /-- The message if an acknowledgement is missing. -/
  noAck : Text := lit "Failed to receive acknowledgment for destination info\n"
  /-- `helper.c:828–831`. -/
  finish : SendProg Text := do
    let _ ← sendCall (.send (.line (lit "END\n")))
    pure (lit "Finished Copying\n")

/-- `helper.c:811–821`: an entry of the working directory that goes to the backups is sent with
its whole path, and so is a written file. -/
def lengthToSkip (lcopy : Bool) (src dest : Text) (kind : Kind) : Option Nat := do
  let skip ← lengthBeforeName src
  let skip := if skip = 2 ∧ startsWith backupFolder dest then 0 else skip
  pure (if kind = .file ∧ lcopy then 0 else skip)

/-- `helper.c:774–832`. -/
def copyDifferentSrc (fuel : Nat) (buffer : Text) (lcopy : Bool) : SendProg Text :=
  copySource fuel (scanCopy ((fields buffer).drop 1)) (lit "copydifferent/lcopy")
    (lengthToSkip lcopy)

/-- `helper.c:1179–1182`. -/
def lengthToSkipB (src _dest : Text) (_kind : Kind) : Option Nat := do
  let skip ← lengthBeforeName src
  pure (if skip = 2 then 0 else skip)

/-- `helper.c:1143–1198`; the verb is matched as a literal. -/
def copyDifferentSrcB (fuel : Nat) (buffer : Text) : SendProg Text :=
  copySource fuel
    (if startsWith (lit "copydifferentb") buffer then scanCopy (fields (buffer.drop 14)) else none)
    (lit "copydifferent") lengthToSkipB

/-! ### The receiving server -/

/-- What the receiver asks for. -/
inductive RecvOp where
  | mkdir (path : Text)
  /-- `fopen(path, "wb")` for a file of the announced size. -/
  | fopen (path : Text) (announced : Int)
  /-- `fwrite` and `fflush` to the open file. -/
  | write (path bytes : Text)
  | sendAck
  /-- `recv` of up to `size` bytes. -/
  | recv (size : Nat)
  /-- The `recv` at the head of the main loop, `helper.c:1039`, again at `1110`. -/
  | recvCommand
  deriving DecidableEq

/-- The answers to the receiver. -/
@[reducible] def RecvOp.Res : RecvOp → Type
  | .mkdir _ => Bool
  | .fopen _ _ => Bool
  | .write _ _ => Bool
  | .sendAck => Unit
  | .recv _ => Text
  | .recvCommand => Text

/-- Programs of the receiver. -/
abbrev RecvProg (α : Type) : Type := Prog RecvOp RecvOp.Res α

/-- A call of the receiver. -/
def recvCall (o : RecvOp) : RecvProg o.Res := Prog.call o

/-- The inner loop at `helper.c:975–985`: `remaining` bytes of the block are missing, and every
round but the last brings one. The answer `none` is the jump to `cleanup`. -/
def receiveChunk : Nat → Nat → Text → RecvProg (Option Text)
  | 0, _, chunk => pure (some chunk)
  | fuel + 1, remaining, chunk =>
    if remaining = 0 then pure (some chunk)
    else do
      let bytes ← recvCall (.recv remaining)
      if bytes = [] then pure none
      else receiveChunk fuel (remaining - bytes.length) (chunk ++ bytes)

/-- The outer loop at `helper.c:968–1001`, with `remaining` bytes of the file missing. -/
def receiveContents (dest : Text) : Nat → Nat → RecvProg Unit
  | 0, _ => pure ()
  | fuel + 1, remaining =>
    if remaining = 0 then pure ()
    else do
      let toReceive := min remaining bufferSize
      match ← receiveChunk toReceive toReceive [] with
      | none => pure ()
      | some chunk =>
        if ← recvCall (.write dest chunk) then
          recvCall .sendAck
          receiveContents dest fuel (remaining - chunk.length)

/-- `atol`: white space, a sign, digits; too large values are cut to those of a `long`. -/
def atol (s : Text) : Int :=
  let s := s.dropWhile isSpace
  let negative := s.head? = some 45
  let s := if s.head? = some 43 ∨ s.head? = some 45 then s.drop 1 else s
  let value := digitsValue (s.takeWhile (fun b ↦ 48 ≤ b && b ≤ 57))
  if negative then -(min value (2 ^ 63) : Nat) else (min value (2 ^ 63 - 1) : Nat)

/-- `helper.c:943–1010`. -/
def receiveAndSaveFile (dest : Text) : RecvProg Unit := do
  let buffer ← recvCall (.recv (bufferSize - 1))
  if buffer = [] then pure ()
  else
    let fileSize := atol (cstr buffer)
    recvCall .sendAck
    if ← recvCall (.fopen dest fileSize) then
      receiveContents dest fileSize.toNat fileSize.toNat

/-- `helper.c:934–941`. -/
def receiveAndSaveDirectory (dest : Text) : RecvProg Unit := do
  let _ ← recvCall (.mkdir dest)

/-- Where an announced entry goes, `helper.c:1056–1060`, again at `1067–1071`; the form for
backups, `helper.c:1126` and `1135`, does not strip a leading `./`. -/
def fullPath (strips : Bool) (base name : Text) : Text :=
  clip maxPathSize
    (base ++ lit "/" ++ (if strips ∧ startsWith (lit "./") name then name.drop 2 else name))

/-- The main loop at `helper.c:1038–1075`, again at `1109–1139`. -/
def receiveEntries (strips : Bool) (base : Text) : Nat → RecvProg Unit
  | 0 => .abort
  | fuel + 1 => do
    let bytes ← recvCall .recvCommand
    let buffer := cstr bytes
    if bytes = [] then pure ()
    else if startsWith (lit "END\n") buffer then pure ()
    else if startsWith (lit "FILE ") buffer then
      -- Without a word the code goes on with what the buffer for it held before.
      let name ← Prog.ofOption (fields (buffer.drop 5)).head?
      recvCall .sendAck
      receiveAndSaveFile (fullPath strips base name)
      receiveEntries strips base fuel
    else if startsWith (lit "DIR ") buffer then
      let name ← Prog.ofOption (fields (buffer.drop 4)).head?
      recvCall .sendAck
      receiveAndSaveDirectory (fullPath strips base name)
      receiveEntries strips base fuel
    else receiveEntries strips base fuel

/-- The common body of the two receivers. -/
def copyDest (strips : Bool) (fuel : Nat) : RecvProg Unit := do
  recvCall .sendAck
  let buffer := cstr (← recvCall (.recv (bufferSize - 1)))
  if startsWith (lit "DEST ") buffer then
    let base ← Prog.ofOption (fields (buffer.drop 5)).head?
    recvCall .sendAck
    let _ ← recvCall (.mkdir base)
    receiveEntries strips base fuel

/-- `helper.c:1012–1076`. -/
def copyDifferentDest (fuel : Nat) : RecvProg Unit := copyDest true fuel

/-- `helper.c:1079–1141`. -/
def copyDifferentDestB (fuel : Nat) : RecvProg Unit := copyDest false fuel

/-! ### Both servers -/

/-- The programs that a command of the naming server starts at the server with the source,
`storage_server.c:417–457` and `500–590`, and at the one that this server connects to and sends
`sscopyb` or `sscopy`, `storage_server.c:312–319`. -/
def copyPrograms (buffer : Text) (fuel g : Nat) : Option (SendProg Text × RecvProg Unit) :=
  match branch buffer with
  | some .copydifferentb => some (copyDifferentSrcB fuel buffer, copyDifferentDestB g)
  | some .lcopy => some (copyDifferentSrc fuel buffer true, copyDifferentDest g)
  | some .copydifferent => some (copyDifferentSrc fuel buffer false, copyDifferentDest g)
  | _ => none

end NetworkFileSystem.Transfer
