import NetworkFileSystem.Naming.Commands

/-!
# Registration and write notifications

`naming_server.c:105–221,521–584,1176–1268`. A storage server registers with its index;
from the third server on, registrations assign two backups and copy the exported folders
there. Finished writes are repeated on the backups of their server.
-/

namespace NetworkFileSystem.Naming

open Base Protocol Trie

/-- `naming_server.c:531–584`, the part of `handle_copy_request` for backups: `command` is
sent to server `source`, extended by the address of server `dest`. -/
def handleBackupCopy (st : NsState) (command : Text) (source dest : Nat) : NsProg Unit := do
  let verb := if startsWith (lit "lcopy") command then command
    else lit "copydifferent" ++ command.drop 4
  let msg := verb ++ receiverAddress st dest
  if msg.length < bufferSize then
    if ← forward source msg then
      let _ ← recvServer source
      pure ()
  else .abort

/-- `naming_server.c:105–125`. -/
def createBackupHelper (st : NsState) (source dest : Nat) : NsProg Unit := do
  let destName ← Prog.ofOption (st.rootName dest)
  replicate dest (clip bufferSize (lit "mkdirb ./backfolderforss/" ++ destName))
  let sourceName ← Prog.ofOption (st.rootName source)
  handleBackupCopy st
    (clip bufferSize (lit "copy ./" ++ sourceName ++ lit " " ++ backupFolder ++ lit "/" ++ destName))
    source dest

/-- Assign both backups of one server. -/
def NsState.setBackups (st : NsState) (i b₁ b₂ : Nat) : NsState :=
  st.modifyServer i (fun info ↦ { info with backupServer1 := some b₁, backupServer2 := some b₂ })

/-- The backups that the registration of entry `n` assigns, `naming_server.c:189–215`. -/
def assignBackups (st : NsState) (n : Nat) : NsState :=
  if n = 2 then
    ((st.setBackups 0 1 2).setBackups 1 0 2).setBackups 2 0 1
  else if 2 < n then st.setBackups n (n - 1) (n - 2)
  else st

/-- The copies that the registration of entry `n` starts, in order. -/
def backupCopies (n : Nat) : List (Nat × Nat) :=
  if n = 2 then [(0, 1), (0, 2), (1, 2), (1, 0), (1, 2), (2, 0), (2, 1)]
  else if 2 < n then [(n, n - 1), (n, n - 2), (n - 1, n), (n - 2, n)]
  else []

/-- The first registered server whose exported folder has the name `name`,
`naming_server.c:161–173`. The outer `none` is the access through a `NULL` pointer. -/
def findRedundancy (name : Option Text) : List TrieNode → Nat → Option (Option Nat)
  | [], _ => some none
  | root :: rest, i => do
    let name ← name
    let other ← (exportedFolder root).join
    if name = other.data then pure (some i) else findRedundancy name rest (i + 1)

/-- `naming_server.c:127–221` behind the receipt of the server's data: its connection, its
address, the client port it reported, and the segments of its index. -/
def registerStorageServer (st : NsState) (socket : Nat) (ip : Text) (portClient : Nat)
    (segments : List Text) : NsProg NsState := do
  let (root, _) ← Prog.ofOption (indexHelper segments [] (createNode (lit ".")))
  let name := (exportedFolder root).join.map TrieNode.data
  match ← Prog.ofOption (findRedundancy name st.roots 0) with
  | some i =>
    pure (st.modifyServer i (fun info ↦
      { info with isUp := true, socket := socket, ip := ip, portClient := portClient }))
  | none =>
    let n := st.storageServerIndex
    if maxStorageServers ≤ n then
      pure { st with storageServerIndex := n + 1 }
    else
      let info : StorageServerInfo := ⟨socket, ip, portClient, root, none, none, true⟩
      let st := assignBackups { st with storageServers := st.storageServers ++ [info] } n
      performAll ((backupCopies n).map (fun (source, dest) ↦ createBackupHelper st source dest))
      pure { st with storageServerIndex := n + 1 }

/-- `naming_server.c:1195–1220`, again at `1233–1255`: copy a written file to both backups of
its server. -/
def backupWritten (st : NsState) (path : Text) (i : Nat) : NsProg NsState := do
  let bs2 := st.backupServer2 i
  let st ← copyTo st (st.backupServer1 i)
  copyTo st bs2
where
  /-- The part for one backup. -/
  copyTo (st : NsState) : Option Nat → NsProg NsState
    | none => pure st
    | some b => do
      let (up, st) ← isSsUp st b
      if up then
        let name ← Prog.ofOption (st.rootName b)
        handleBackupCopy st
          (clip bufferSize (lit "lcopy " ++ path ++ lit " " ++ backupFolder ++ lit "/" ++ name)) i b
        pure st
      else pure st

/-- `naming_server.c:1176–1268` for one received notification. Unknown paths make the code
read `storage_servers[-1]`. -/
def listenAsync (st : NsState) (line : Text) : NsProg NsState := do
  if startsWith (lit "WRITE_SYNC") line then
    let path ← Prog.ofOption (tokens bar line)[1]?
    match ← searchStorageServer st path with
    | (none, _) => .abort
    | (some i, st) => backupWritten st path i
  else if startsWith (lit "writeasync") line then
    let path ← Prog.ofOption (words line)[1]?
    match ← searchStorageServer st path with
    | (none, _) => .abort
    | (some i, st) =>
      let st ← backupWritten st path i
      let clientIp ← Prog.ofOption (words line)[2]?
      let clientPort ← Prog.ofOption (words line)[3]?
      let ack := clip bufferSize (lit "ACK: Backup completed for " ++ path)
      let _ ← (Prog.call (NsOp.sendAck clientIp clientPort ack) : NsProg Bool)
      pure st
  else pure st

end NetworkFileSystem.Naming
