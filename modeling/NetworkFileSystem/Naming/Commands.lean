import NetworkFileSystem.Naming.Listing
import NetworkFileSystem.Naming.Index

/-!
# Client commands

`naming_server.c:521–1136`. One round of the loop in `process_client`: a received line
is dispatched to the handler of its verb. `processClient` returns the tables with which
the thread waits for the next line.
-/

namespace NetworkFileSystem.Naming

open Base Protocol Trie

/-! ### Entries -/

/-- Names that the checks at `naming_server.c:836` and `919` refuse. -/
def isTopPath (path : Text) : Bool :=
  path == lit "./" || path == lit "." || path == lit "/" || path == [] || path == lit " "

/-- Paths that the checks at `naming_server.c:606` and `763` refuse. -/
def isTopWord (path : Text) : Bool := path == lit "/" || path == lit "./"

/-- What the `mkdir`/`touch` and the `rmdir`/`rm` handlers differ in: the path they check and
look up, and what they do to the cache and, on success, to the trie. -/
structure EntryChange where
  lookup : Text
  cacheOp : List CacheEntry → Nat → List CacheEntry
  trieOp : TrieNode → Option TrieNode

/-- `naming_server.c:878`, again at `1004`: the server answered, and did not report a failure. -/
def confirms : Option Text → Bool
  | none => false
  | some response => !couldNot response

/-- The common body of `naming_server.c:829–914` and `917–1056`. -/
def changeEntry (c : EntryChange) (st : NsState) (line command path : Text) :
    NsProg NsState := do
  if isTopPath c.lookup then
    reply invalidPath
    return st
  match ← searchStorageServer st c.lookup with
  | (none, st) =>
    reply notFound
    pure st
  | (some i, st) =>
    let st := { st with cache := c.cacheOp st.cache i }
    if st.isUp i then
      let answer ← exchange i line
      if confirms answer then
        let st ← replicateCommand st i command path
        Prog.ofOption (st.updateRoot i c.trieOp)
      else pure st
    else
      reply notFound
      pure st

/-- `mkdir` and `touch`: the folder that is to hold `path` is looked up. -/
def makeChange (path : Text) : EntryChange where
  lookup := beforeLast slash path
  cacheOp := fun cache i ↦ addToCache cache path i
  trieOp := addPathToTrie path

/-- `rmdir` and `rm`. -/
def removeChange (path : Text) : EntryChange where
  lookup := path
  cacheOp := fun cache _ ↦ deleteFromCache cache path
  trieOp := deletePath path

/-- `naming_server.c:829–914`. -/
def makeEntry (st : NsState) (line command path : Text) : NsProg NsState :=
  changeEntry (makeChange path) st line command path

/-- `naming_server.c:917–1056`. -/
def removeEntry (st : NsState) (line command path : Text) : NsProg NsState :=
  changeEntry (removeChange path) st line command path

/-! ### Reads -/

/-- `"%s,%d "`, the address of server `i`. -/
def serverAddress (st : NsState) (i : Nat) : Text :=
  clip bufferSize (st.ip i ++ lit "," ++ decimal (st.portClient i) ++ lit " ")

/-- `"Backup %s,%d,%s"`, the address and root name of server `i`. -/
def backupAddress (st : NsState) (i : Nat) (name : Text) : Text :=
  clip bufferSize
    (lit "Backup " ++ st.ip i ++ lit "," ++ decimal (st.portClient i) ++ lit "," ++ name)

/-- All other commands, `naming_server.c:1059–1130`. The reads of `storage_servers[-1]`
before the test of `ssindex` go unused and are left out. -/
def locate (st : NsState) (path : Text) : NsProg NsState := do
  match ← searchStorageServer st path with
  | (none, st) =>
    reply notFound
    pure st
  | (some i, st) =>
    if st.isUp i then
      reply (serverAddress st i)
      pure st
    else
      match ← redundantSs st i with
      -- `storage_servers[-1].root` is followed.
      | (none, _) => .abort
      | (some b, st) =>
        if b = i then
          reply (serverAddress st i)
          pure st
        else
          let name ← Prog.ofOption (st.rootName b)
          reply (backupAddress st b name)
          pure st

/-! ### Writes -/

/-- `"PATH_OK_SYNC|%s|%d"` or `"PATH_OK_ASYNC|%s|%d"` with its NUL; another flag leaves the
first part out. -/
def pathOk (st : NsState) (flag : Text) (i : Nat) : Text :=
  (if flag = lit "-s" then lit "PATH_OK_SYNC"
    else if flag = lit "-a" then lit "PATH_OK_ASYNC" else []) ++
    clip bufferSize (lit "|" ++ st.ip i ++ lit "|" ++ decimal (st.portClient i)) ++ [0]

/-- `naming_server.c:776–826`: `flag` and `path` are the second and third words. -/
def writeRequest (st : NsState) (flag : Text) (path : Option Text) : NsProg NsState := do
  -- Without a third word the lookup reads through a `NULL` pointer.
  let path ← Prog.ofOption path
  match ← searchStorageServer st path with
  | (some i, st) =>
    if st.isUp i then
      reply (pathOk st flag i)
      pure st
    else
      reply notFound
      pure st
  | (none, st) =>
    reply notFound
    pure st

/-! ### Copies -/

/-- `" %s %d"`, how a copy command names the server that receives. -/
def receiverAddress (st : NsState) (i : Nat) : Text :=
  clip bufferSize (lit " " ++ st.ip i ++ lit " " ++ decimal (st.portClient i))

/-- The command that replaces the client's line, `naming_server.c:635–650`: the verb grows
in place, and the result must fit the buffer. -/
def copyCommand (st : NsState) (line : Text) (src dest : Nat) : Option Text :=
  let msg :=
    if src = dest then lit "copysame" ++ line.drop 4
    else lit "copydifferent" ++ line.drop 4 ++ receiverAddress st dest
  if msg.length < bufferSize then some msg else none

/-- The bytes behind the first word of `s`. -/
def afterWord (s : Text) : Text := (s.dropWhile (· = blank)).dropWhile (· ≠ blank)

/-- The string at `dest + 2`, `dest` being the third word of `line`. Behind a one-byte word
this is what follows the word's blank, and nothing of the line if the word ends it. -/
def skipTwo (line dest : Text) : Option Text :=
  if 2 ≤ dest.length then some (dest.drop 2)
  else match afterWord (afterWord (afterWord line)) with
    | [] => none
    | _ :: rest => some rest

/-- `"copydifferentb %s/%s ./backupfolderforss/%s/%s %s %d"`, `naming_server.c:682–690`. -/
def backupCopyCommand (st : NsState) (line src dest : Text) (b : Nat) : Option Text := do
  let name ← st.rootName b
  let below ← skipTwo line dest
  pure (clip bufferSize (lit "copydifferentb " ++ dest ++ lit "/" ++ afterLast slash src ++
    lit " " ++ backupFolder ++ lit "/" ++ name ++ lit "/" ++ below ++ receiverAddress st b))

/-- The part of `handle_copy_request` behind the lookups, `naming_server.c:632–708`. -/
def performCopy (st : NsState) (line src dest : Text) (srcIndex destIndex : Nat) :
    NsProg NsState := do
  let msg ← Prog.ofOption (copyCommand st line srcIndex destIndex)
  if ← forward srcIndex msg then
    match ← recvServer srcIndex with
    | none => pure st
    | some bytes =>
      -- `strlen(response)` needs a NUL behind the bytes.
      if bufferSize ≤ bytes.length then .abort
      else if ← sendClient (cstr bytes) then
        reindex destIndex
        let segments ← recvIndex destIndex
        let (root, _) ← Prog.ofOption (indexHelper segments [] (createNode (lit ".")))
        let st := st.modifyServer destIndex (fun info ↦ { info with root := root })
        let bs2 := st.backupServer2 destIndex
        let copyTo := backupCopyCommand st line src dest
        let st ← replicateTo st (fun _ ↦ destIndex) copyTo (st.backupServer1 destIndex)
        replicateTo st (fun _ ↦ destIndex) copyTo bs2
      else pure st
  else pure st

/-- `naming_server.c:521–713` for a client's command. -/
def handleCopyRequest (st : NsState) (line : Text) : NsProg NsState :=
  match words line with
  | _ :: src :: dest :: _ =>
    if isTopWord src || isTopWord dest then do
      reply (lit "Invalid source or destination path.")
      pure st
    else do
      let (srcIndex, st) ← searchStorageServer st src
      let (destIndex, st) ← searchStorageServer st dest
      match srcIndex, destIndex with
      | some i, some j =>
        if st.isUp i && st.isUp j then performCopy st line src dest i j
        else
          reply (notFound ++ [0])
          pure st
      | _, _ =>
        reply (notFound ++ [0])
        pure st
  | _ => do
    reply (lit "Invalid request. Source or destination path missing.")
    pure st

/-! ### The loop body -/

/-- `naming_server.c:739–754`. -/
def listAll (st : NsState) : NsProg NsState := do
  if st.storageServerIndex ≤ st.storageServers.length then
    performAll (st.roots.map (fun root ↦ do
      let folder ← Prog.ofOption (exportedFolder root)
      displayTrieNetwork folder))
    reply listingOver
    pure st
  else .abort

/-- `naming_server.c:716–1136` for one received line. -/
def processClient (st : NsState) (line : Text) : NsProg NsState :=
  if line = lit "ls ~" ∨ line = lit "ls ." then listAll st
  else if startsWith (lit "copy") line then handleCopyRequest st line
  else match words line with
    | command :: path :: rest =>
      if isTopWord path then do
        reply notFound
        pure st
      else do
        -- The write handler has no `continue`; the line goes on to the tests below it.
        let st ← if startsWith (lit "write") line then writeRequest st path rest.head? else pure st
        if command = lit "mkdir" ∨ command = lit "touch" then makeEntry st line command path
        else if command = lit "rmdir" ∨ command = lit "rm" then removeEntry st line command path
        else locate st path
    | _ => do
      reply notFound
      pure st

end NetworkFileSystem.Naming
