import NetworkFileSystem.Base.Prog
import NetworkFileSystem.Lock.FileLock
import NetworkFileSystem.Protocol.Message

/-!
# Requests that take a lock

`storage_server.c:21–336,465–480`, `helper.c:276–346`. A storage server
keeps a lock for every path that was written, read with `cat` or removed with `rm`. The
handlers are programs over the table of locks, the calls of the C library, and what
they send. A path is compared as the text it was when its lock was made. Closing
sockets and the `sleep` calls are left out.
-/

namespace NetworkFileSystem.Storage

open Base Protocol Lock

/-- What a handler does. `fopen` opens for appending; `openRead` is `open` with the blocks that
`read` delivers until it stops; `stack` reads the uninitialised array of an asynchronous
write; `notify` connects to the naming server and sends. -/
inductive SsOp where
  | lookup (path : Text)
  | create (path : Text)
  | acquire (m : Mode) (i : Nat)
  | release (m : Mode) (i : Nat)
  | fopen (path : Text)
  | stack
  | fprintf (text : Text)
  | fclose
  | openRead (path : Text)
  | remove (path : Text)
  | send (text : Text)
  | notify (text : Text)
  deriving DecidableEq

/-- The outcomes of an operation. -/
@[reducible] def SsOp.Res : SsOp → Type
  | .lookup _ => Option Nat
  | .create _ => Nat
  | .acquire _ _ | .release _ _ | .fprintf _ | .fclose => Unit
  | .fopen _ | .remove _ | .send _ | .notify _ => Bool
  | .stack => Text
  | .openRead _ => Option (List Text)

/-- Programs of a storage server. -/
abbrev SsProg (α : Type) : Type := Prog SsOp SsOp.Res α

/-- An operation with its outcome. -/
abbrev SsEvent : Type := Event SsOp SsOp.Res

/-- Perform one operation. -/
def perform (o : SsOp) : SsProg o.Res := Prog.call o

/-- The lock of a path, made if there is none; `storage_server.c:46–52`, and again at `101–107`,
`326–332` and `469–475`. -/
def lockIndex (path : Text) : SsProg Nat := do
  match ← perform (.lookup path) with
  | some i => pure i
  | none => perform (.create path)

/-! ### Writes -/

/-- `storage_server.c:38–74`. A missing field is read through a `NULL` pointer. -/
def writeFile (command : Text) : SsProg Text := do
  let fields := tokens bar command
  let path ← Prog.ofOption fields[1]?
  let i ← lockIndex path
  let _ ← perform (.acquire .write i)
  if ← perform (.fopen path) then
    let data ← Prog.ofOption fields[2]?
    let _ ← perform (.fprintf (data ++ lit "\n"))
    let _ ← perform (.release .write i)
    let _ ← perform .fclose
    pure (lit "Data written successfully\n")
  else pure (clip bufferSize (lit "Could not open file @ " ++ path ++ lit " \n"))

/-- `helper.h:10`. -/
def asyncBuffLen : Nat := 32

/-- `"%s"` of an array: the bytes before its first NUL; without one the read goes past its end. -/
def arrayText (array : Text) : Option Text := if 0 ∈ array then some (cstr array) else none

/-- The loop at `storage_server.c:125–132` and the print behind it: `array` is `buffer`,
`offset` is `buffer_offset`, and the result is what each `fprintf` writes. -/
def asyncBlocks (array : Text) (offset : Nat) : Text → Option (List Text)
  | [] => do pure [(← arrayText array) ++ lit "\n"]
  | b :: data =>
    let array := array.set offset b
    if offset + 1 = asyncBuffLen then do
      let block ← arrayText array
      let blocks ← asyncBlocks (List.replicate (asyncBuffLen + 1) 0) 0 data
      pure (block :: blocks)
    else asyncBlocks array (offset + 1) data

/-- Every block is printed on its own. -/
def printBlocks : List Text → SsProg Unit
  | [] => pure ()
  | block :: blocks => do
    let _ ← perform (.fprintf block)
    printBlocks blocks

/-- `storage_server.c:204–249`: the server exits if the naming server cannot be
told. -/
def sendAckToNm (command : Text) : SsProg Unit := do
  if ← perform (.notify command) then pure () else .abort

/-- `"writeasync %s %s %s\n"`, `storage_server.c:190`. -/
def asyncNotice (path ip port : Text) : Text :=
  clip bufferSize (lit "writeasync " ++ path ++ lit " " ++ ip ++ lit " " ++ port ++ lit "\n")

/-- `storage_server.c:76–202`. -/
def writeFileAsync (command : Text) : SsProg Unit := do
  let _ ← perform (.send (lit "Write Request Recieved"))
  let fields := tokens bar command
  let path ← Prog.ofOption fields[1]?
  let i ← lockIndex path
  let _ ← perform (.acquire .write i)
  if ← perform (.fopen path) then
    let ip ← Prog.ofOption fields[2]?
    let port ← Prog.ofOption fields[3]?
    let data ← Prog.ofOption fields[4]?
    let array ← perform .stack
    let blocks ← Prog.ofOption (asyncBlocks array 0 data)
    printBlocks blocks
    let _ ← perform (.release .write i)
    sendAckToNm (asyncNotice path ip port)
    let _ ← perform .fclose
    pure ()
  else
    let _ ← perform (.send (lit "Failed to open file\n"))
    pure ()

/-! ### Reads and removals -/

/-- The loop at `helper.c:327–334`. -/
def sendBlocks : List Text → SsProg Unit
  | [] => pure ()
  | block :: blocks => do
    if ← perform (.send block) then sendBlocks blocks else pure ()

/-- `helper.c:296–347`. -/
def readFile (path : Text) : SsProg Unit := do
  match ← perform (.openRead path) with
  | some blocks => sendBlocks blocks
  | none =>
    let _ ← perform (.send (clip bufferSize (lit "Could not open file: " ++ path ++ lit "\n")))
    pure ()

/-- `helper.h:14`. -/
def bufferSizeForMusic : Nat := 8192

/-- `helper.c:350–405`. -/
def readMp3File (path : Text) : SsProg Unit := do
  match ← perform (.openRead path) with
  | some blocks => sendBlocks blocks
  | none =>
    let _ ← perform (.send
      (clip bufferSizeForMusic (lit "Could not open file: " ++ path ++ lit "\n")))
    pure ()

/-- What `remove_file` leaves in `buffer2`, `helper.c:284–292`. -/
def removalText (path : Text) (removed : Bool) : Text :=
  clip bufferSize ((if removed then lit "Removed file" else lit "Could not remove file") ++
    lit " @ " ++ path ++ lit "\n")

/-- The requests that take a lock, with the received buffer or the path argument. -/
inductive Request where
  | writeSync (buffer : Text)
  | writeAsync (buffer : Text)
  | cat (path : Text)
  | rm (path : Text)
  deriving DecidableEq

/-- The handler of a request: `storage_server.c:265–281`, `285–297`, `322–336`, `465–480`. -/
def Request.program : Request → SsProg Unit
  | .writeSync buffer => do
    let buffer2 ← writeFile buffer
    let _ ← perform (.send buffer2)
    sendAckToNm buffer
  | .writeAsync buffer => writeFileAsync buffer
  | .cat path => do
    let i ← lockIndex path
    let _ ← perform (.acquire .read i)
    readFile path
    let _ ← perform (.release .read i)
    pure ()
  | .rm path => do
    let i ← lockIndex path
    let _ ← perform (.acquire .delete i)
    let removed ← perform (.remove path)
    let _ ← perform (.release .delete i)
    let _ ← perform (.send (removalText path removed))
    pure ()

/-! ### Parts without a lock -/

/-- The operations that neither concern the table nor open a file for writing. -/
def SsOp.isPlain : SsOp → Bool
  | .lookup _ | .create _ | .acquire _ _ | .release _ _ | .fopen _ => false
  | _ => true

private theorem plain_perform {o : SsOp} {α : Type} {f : o.Res → SsProg α}
    (h : o.isPlain = true) (hf : ∀ x, (f x).Only (·.isPlain = true)) :
    (perform o >>= f).Only (·.isPlain = true) := ⟨h, hf⟩

theorem plain_sendAckToNm (command : Text) : (sendAckToNm command).Only (·.isPlain = true) := by
  refine plain_perform rfl (fun x ↦ ?_)
  cases x <;> trivial

theorem plain_printBlocks (blocks : List Text) : (printBlocks blocks).Only (·.isPlain = true) := by
  induction blocks with
  | nil => trivial
  | cons block blocks ih => exact plain_perform rfl (fun _ ↦ ih)

theorem plain_sendBlocks (blocks : List Text) : (sendBlocks blocks).Only (·.isPlain = true) := by
  induction blocks with
  | nil => trivial
  | cons block blocks ih =>
    refine plain_perform rfl (fun x ↦ ?_)
    cases x with
    | false => trivial
    | true => exact ih

theorem plain_readFile (path : Text) : (readFile path).Only (·.isPlain = true) := by
  refine plain_perform rfl (fun x ↦ ?_)
  cases x with
  | none => exact plain_perform rfl (fun _ ↦ trivial)
  | some blocks => exact plain_sendBlocks blocks

end NetworkFileSystem.Storage
