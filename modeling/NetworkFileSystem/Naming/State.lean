import NetworkFileSystem.Protocol.Message
import NetworkFileSystem.Trie.Node

/-!
# The tables of the naming server

`naming_server.c:26–42,286–332,458–483`, `helper.h:10–32`. The registered servers
with their tries, and the lookup cache: a queue of at most three keys, the least
recently used one first.
-/

namespace NetworkFileSystem.Naming

open Base Protocol Trie

/-- `helper.h:10`. -/
def maxStorageServers : Nat := 10

/-- `helper.h:16`. -/
def cacheCapacity : Nat := 3

/-- `helper.h:23–32`. One connection serves both `socket` and `clientInfo.socket`; an
unassigned backup, `-1` in the code, is `none`. -/
structure StorageServerInfo where
  socket : Nat
  ip : Text
  portClient : Nat
  root : TrieNode
  backupServer1 : Option Nat
  backupServer2 : Option Nat
  isUp : Bool

/-- `naming_server.c:26–29`. -/
structure CacheEntry where
  key : Text
  index : Nat
  deriving DecidableEq

/-- The globals at `naming_server.c:38–41`: `storageServers` are the filled entries of the
table, in order. -/
structure NsState where
  storageServers : List StorageServerInfo
  storageServerIndex : Nat
  cache : List CacheEntry

/-! ### Cache -/

/-- `naming_server.c:295–302`. -/
def searchCache (cache : List CacheEntry) (key : Text) : Option Nat :=
  cache.findIdx? (fun e ↦ e.key == key)

/-- `naming_server.c:305–313`. -/
def evictLru (cache : List CacheEntry) : List CacheEntry := cache.tail

/-- `naming_server.c:316–323`. -/
def addToCache (cache : List CacheEntry) (key : Text) (index : Nat) : List CacheEntry :=
  (if cache.length = cacheCapacity then evictLru cache else cache) ++ [⟨key, index⟩]

/-- `naming_server.c:326–332`. -/
def moveToBack (cache : List CacheEntry) (index : Nat) : List CacheEntry :=
  cache.eraseIdx index ++ cache[index]?.toList

/-- `naming_server.c:458–483`. -/
def deleteFromCache (cache : List CacheEntry) (key : Text) : List CacheEntry :=
  match searchCache cache key with
  | none => cache
  | some index => cache.eraseIdx index

/-! ### Servers -/

/-- The slot that the first insertion under a node fills. -/
def firstSlot : Fin maxFolders := ⟨0, by decide⟩

/-- `root->childeren[0]->childeren[0]`, the folder that the server exports. The outer
`none` is the access through a `NULL` pointer. -/
def exportedFolder (root : TrieNode) : Option (Option TrieNode) :=
  (root.childeren firstSlot).map (fun top ↦ top.childeren firstSlot)

/-- The outcomes of a connection attempt to a server, `naming_server.c:365–420`: without a
socket nothing is learned. -/
inductive PingResult where
  | noSocket
  | down
  | up
  deriving DecidableEq

namespace NsState

/-- The tries of the registered servers. -/
def roots (st : NsState) : List TrieNode := st.storageServers.map StorageServerInfo.root

/-- `storage_servers[i].isUp`. -/
def isUp (st : NsState) (i : Nat) : Bool := st.storageServers[i]?.any StorageServerInfo.isUp

/-- `storage_servers[i].backupServer1`. -/
def backupServer1 (st : NsState) (i : Nat) : Option Nat :=
  st.storageServers[i]?.bind StorageServerInfo.backupServer1

/-- `storage_servers[i].backupServer2`. -/
def backupServer2 (st : NsState) (i : Nat) : Option Nat :=
  st.storageServers[i]?.bind StorageServerInfo.backupServer2

/-- `storage_servers[i].clientInfo.socket`. -/
def socket (st : NsState) (i : Nat) : Nat :=
  (st.storageServers[i]?.map StorageServerInfo.socket).getD 0

/-- `inet_ntoa(storage_servers[i].clientInfo.addr.sin_addr)`. -/
def ip (st : NsState) (i : Nat) : Text := (st.storageServers[i]?.map StorageServerInfo.ip).getD []

/-- `storage_servers[i].portClient`. -/
def portClient (st : NsState) (i : Nat) : Nat :=
  (st.storageServers[i]?.map StorageServerInfo.portClient).getD 0

/-- `storage_servers[i].root->childeren[0]->childeren[0]->data`. -/
def rootName (st : NsState) (i : Nat) : Option Text := do
  let info ← st.storageServers[i]?
  let folder ← exportedFolder info.root
  folder.map TrieNode.data

/-- Change the entry of one server. -/
def modifyServer (st : NsState) (i : Nat) (f : StorageServerInfo → StorageServerInfo) : NsState :=
  { st with storageServers := st.storageServers.modify i f }

/-- The assignments to `isUp` in `naming_server.c:386–418`. -/
def afterPing (st : NsState) (i : Nat) : PingResult → NsState
  | .noSocket => st
  | .down => st.modifyServer i (fun info ↦ { info with isUp := false })
  | .up => st.modifyServer i (fun info ↦ { info with isUp := true })

/-- Replace the trie of one server; `none` is a trie operation that is undefined. -/
def updateRoot (st : NsState) (i : Nat) (f : TrieNode → Option TrieNode) : Option NsState := do
  let info ← st.storageServers[i]?
  let root ← f info.root
  pure (st.modifyServer i (fun info ↦ { info with root := root }))

end NsState
end NetworkFileSystem.Naming
