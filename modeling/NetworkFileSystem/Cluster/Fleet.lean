import NetworkFileSystem.Client.Writes
import NetworkFileSystem.Cluster.Mirror
import NetworkFileSystem.Cluster.Replicas
import NetworkFileSystem.Naming.Topology

/-!
# Storage servers that go down and come back

`naming_server.c:127–221,365–456,829–1056,1176–1268`, `storage_server.c:355–596`. The naming
server handles one command at a time, the storage servers carry out what they are sent at
once, on disks without faults. A server may stop at any moment, also in the middle of a
command or of a copy, and keeps its files; it is part of the service again when it has
registered again. Copies that clients ask for are left out.
-/

namespace NetworkFileSystem.Cluster

open Base Base.Prog Protocol Trie Naming Storage Transfer

/-! ### One server -/

/-- Calls on a disk without faults: one fails only if it cannot succeed. -/
def faultless (cwd : List Text) : Environment FsOp (fun _ ↦ Bool) FileSystem where
  respond := fun o ok fs fs' ↦ (fileSystem cwd).respond o ok fs fs' ∧
    (ok = false → ∀ fs'', ¬ o.call.Effect (resolveFrom cwd o.path) fs fs'')
  silent := fun _ _ ↦ False

/-- The server takes a command about one entry and sends `out`; its disk has no faults. -/
def Obeys (buffer : Text) (out : List Text) (s s' : SsState) : Prop :=
  ∃ round tr locks disk, entryRound s.rootPath s.locks buffer = some round ∧
    Exec round tr (some (out, locks)) ∧ (faultless s.cwd).Accepts s.disk tr disk ∧
    s' = { s with disk := disk, locks := locks }

/-- A client's write has left `t` in the file `ws`, whatever was there before. -/
structure Saves (ws : List Text) (t : Text) (s s' : SsState) : Prop where
  cwd : s'.cwd = s.cwd
  rootPath : s'.rootPath = s.rootPath
  file : ∃ u, s.disk.entry (s.cwd ++ ws) = some (.file u)
  entry : s'.disk.entry = Function.update s.disk.entry (s.cwd ++ ws) (some (.file t))

/-- What the sender of a copy finds on its disk. -/
def Reads (s : SsState) (source : Text → Option Node) : Prop :=
  ∀ path, match source path with
    | none => s.disk.entry (resolveFrom s.cwd path) = none
    | some (.file t) => s.disk.entry (resolveFrom s.cwd path) = some (.file t)
    | some (.folder l) => s.disk.Holds (resolveFrom s.cwd path) l

/-- The address in a copy command, `storage_server.c:424–449`: `atoi` of the fifth word, of which
`htons` takes the lower half. -/
def copyAddress (buffer : Text) : Option (Text × Nat) := do
  let ip ← (words buffer)[3]?
  let port ← (words buffer)[4]?
  pure (ip, (atol port).toNat % 2 ^ 16)

/-- The copy that `command` starts may bring the receiver's disk from `d` to `d'`; the copy is
over there if it is `complete`. -/
def Transfers (S : Setting FileSystem) (command : Text) (complete : Bool) (d d' : FileSystem) :
    Prop :=
  ∃ N, ∀ fuel ≥ N, ∀ g ≥ N, ∃ p q t, copyPrograms command fuel g = some (p, q) ∧
    Relation.ReflTransGen S.duet.Step ⟨p, q, World.start d⟩ t ∧ t.world.disk = d' ∧
      (complete = true → ∀ u, ¬ S.duet.Step t u)

/-! ### The servers -/

/-- The storage servers: which of them run, where they accept connections, and what they have
sent to the naming server. -/
structure Fleet where
  servers : Nat → SsState
  up : Nat → Bool
  address : Nat → Text × Nat
  answers : Nat → List Text

namespace Fleet

/-- Server `j` stops, and its connections are gone. -/
def lose (f : Fleet) (j : Nat) : Fleet :=
  { f with up := Function.update f.up j false, answers := Function.update f.answers j [] }

/-- Server `j` runs again, with its files and without its locks. -/
def join (f : Fleet) (j : Nat) (address : Text × Nat) : Fleet where
  servers := Function.update f.servers j { f.servers j with locks := [] }
  up := Function.update f.up j true
  address := Function.update f.address j address
  answers := Function.update f.answers j []

/-- Server `j` has changed to `s`. -/
def store (f : Fleet) (j : Nat) (s : SsState) : Fleet :=
  { f with servers := Function.update f.servers j s }

/-- Server `j` sends to the naming server. -/
def send (f : Fleet) (j : Nat) (out : List Text) : Fleet :=
  { f with answers := Function.update f.answers j (f.answers j ++ out) }

/-- Server `i` starts a copy to the server that accepts connections at the address in `msg`. -/
inductive Copies (i : Nat) (msg : Text) (f : Fleet) : Fleet → Prop where
  | unreachable {reply : Text} : (∀ b, f.up b = true → copyAddress msg ≠ some (f.address b)) →
      Copies i msg f (f.send i [reply])
  | finished {b : Nat} {source : Text → Option Node} {d : FileSystem} {reply : Text} :
      f.up b = true → copyAddress msg = some (f.address b) → Reads (f.servers i) source →
      Transfers (onDisk source (f.servers b).cwd) msg true (f.servers b).disk d →
      Copies i msg f ((f.store b { f.servers b with disk := d }).send i [reply])
  | interrupted {b j : Nat} {source : Text → Option Node} {d : FileSystem} {reply : Text} :
      f.up b = true → copyAddress msg = some (f.address b) → Reads (f.servers i) source →
      Transfers (onDisk source (f.servers b).cwd) msg false (f.servers b).disk d →
      j = i ∨ j = b →
      Copies i msg f (((f.store b { f.servers b with disk := d }).send i [reply]).lose j)

/-- Server `i` carries a command out. -/
inductive Carries (i : Nat) (msg : Text) (f : Fleet) : Fleet → Prop where
  | entry {out : List Text} {s : SsState} : Obeys msg out (f.servers i) s →
      Carries i msg f ((f.store i s).send i out)
  | copy {f' : Fleet} : (copyPrograms msg 0 0).isSome = true → Copies i msg f f' →
      Carries i msg f f'

/-- A command is sent to server `i`. The loss of the server need not be noticed. -/
def Delivers (i : Nat) (msg : Text) (ok : Bool) (f f' : Fleet) : Prop :=
  (f.up i = true ∧ ok = true ∧ Carries i msg f f') ∨ (f.up i = false ∧ f' = f)

/-- How the operations of the naming server are answered. Only copies of clients have the index
of a server sent again. -/
def respond : (o : NsOp) → o.Res → Fleet → Fleet → Prop
  | .ping i, r, f, f' => f' = f ∧ (r = PingResult.up ↔ f.up i = true)
  | .forward i msg, ok, f, f' => Delivers i msg ok f f'
  | .replicate i msg, ok, f, f' => Delivers i msg ok f f'
  | .recvServer i, r, f, f' =>
      (∃ a rest, f.answers i = a :: rest ∧ r = some a ∧
        f' = { f with answers := Function.update f.answers i rest }) ∨
      (f.up i = false ∧ f.answers i = [] ∧ r = none ∧ f' = f)
  | .sendClient _, _, f, f' => f' = f
  | .sendAck _ _ _, _, f, f' => f' = f
  | .reindex _, _, _, _ => False
  | .recvIndex _, _, _, _ => False

end Fleet

/-- The storage servers as the environment of the naming server. Between two operations, servers
may stop. -/
def outages : Environment NsOp NsOp.Res Fleet where
  respond := Fleet.respond
  silent := fun f f' ↦ ∃ j, f' = f.lose j

/-! ### The service -/

/-- The naming server, the storage servers, and what the last acknowledged write or `touch` has
left in each file. -/
structure Service where
  naming : NsState
  fleet : Fleet
  saved : List Text → Option Text

/-- Server `b` is a backup of server `i`. -/
def IsBackup (st : NsState) (i b : Nat) : Prop :=
  st.backupServer1 i = some b ∨ st.backupServer2 i = some b

/-- Where server `s` keeps the replica of the path `ws`. -/
def replicaPlace (s : SsState) (ws : List Text) : List Text :=
  s.cwd ++ lit "backupfolderforss" :: rootName s :: ws

/-- What server `s` keeps there. -/
def replica (s : SsState) (ws : List Text) : Option Entry := s.disk.entry (replicaPlace s ws)

/-- What `inet_ntoa` and `ntohs` give. -/
structure IsAddress (address : Text × Nat) : Prop where
  word : IsWord address.1
  ne_nil : address.1 ≠ []
  short : address.1.length < 16
  port : address.2 < 2 ^ 16

/-- At least three servers have registered and their folders are copied to the backups: every
replica has the entries of the folder it is a replica of. -/
structure Service.Start (c : Service) : Prop where
  registered : ∃ ss, Registered Clear c.naming ss ∧ 3 ≤ ss.length ∧
    ∀ (i : Nat) (s : SsState), ss[i]? = some s → KeepsExport s (c.fleet.servers i)
  up : ∀ i, i < c.naming.roots.length → c.fleet.up i = true ∧ IsAddress (c.fleet.address i) ∧
    c.fleet.address i = (c.naming.ip i, c.naming.portClient i)
  apart : ∀ i j, c.fleet.up i = true → c.fleet.up j = true →
    c.fleet.address i = c.fleet.address j → i = j
  quiet : ∀ i, c.fleet.answers i = []
  replicas : ∀ i b, IsBackup c.naming i b → ∀ ws, [rootName (c.fleet.servers i)] <+: ws →
    replica (c.fleet.servers b) ws =
      (c.fleet.servers i).disk.entry ((c.fleet.servers i).cwd ++ ws)
  saved : ∀ i, i < c.naming.roots.length → ∀ ws, [rootName (c.fleet.servers i)] <+: ws → ∀ t,
    c.saved ws = some t ↔
      (c.fleet.servers i).disk.entry ((c.fleet.servers i).cwd ++ ws) = some (.file t)

/-- The updates of a run: a command on an entry, and a write. -/
inductive Update where
  | entry (i : Nat) (v : Verb) (ws : List Text)
  | write (i : Nat) (ws : List Text) (t : Text)

/-- `write -s path` and `write -a path`. -/
def writeLine (flag : Text) (ws : List Text) : Text := lit "write " ++ flag ++ lit " " ++ pathText ws

/-- The steps: a command on an entry that server `i` has confirmed; a write to a file of server
`i`, from the client's request to the notification of the naming server; the loss of a server;
the return of one, whose index names its root. Updates meet the condition `calm`. -/
inductive Service.Step (calm : Update → Service → Service → Prop) : Service → Service → Prop where
  | entry {c c' : Service} {v : Verb} {ws : List Text} {i : Nat} {bytes : Text}
      {tr : List NsEvent} : IsEntry v → Canonical ws →
      Exec (processClient c.naming (commandLine v.name ws)) tr (some c'.naming) →
      outages.Accepts c.fleet tr c'.fleet →
      (⟨.recvServer i, some bytes⟩ : NsEvent) ∈ tr → couldNot (cstr bytes) = false →
      c'.saved = Function.update c.saved ws (if v = .touch then some [] else none) →
      calm (.entry i v ws) c c' → Step calm c c'
  | write {c c' : Service} {ws : List Text} {flag line t : Text} {i : Nat} {s : SsState}
      {ok : Bool} {st : NsState} {f : Fleet} {tr₁ tr₂ : List NsEvent} : Canonical ws →
      (flag = lit "-s" ∨ flag = lit "-a") →
      Exec (processClient c.naming (writeLine flag ws)) tr₁ (some st) →
      outages.Accepts c.fleet tr₁ f →
      c.naming.resolve (pathText ws) = some i →
      (⟨.sendClient (pathOk c.naming flag i), ok⟩ : NsEvent) ∈ tr₁ →
      f.up i = true → Saves ws t (f.servers i) s →
      Client.notifiedPath line = some (pathText ws) →
      Exec (listenAsync st line) tr₂ (some c'.naming) →
      outages.Accepts (f.store i s) tr₂ c'.fleet →
      c'.saved = Function.update c.saved ws (some t) →
      calm (.write i ws t) c c' → Step calm c c'
  | loss {c : Service} {j : Nat} : Step calm c ⟨c.naming, c.fleet.lose j, c.saved⟩
  | register {c : Service} {j socket : Nat} {address : Text × Nat} {segments : List Text}
      {tr : List NsEvent} {st : NsState} {f : Fleet} : j < c.naming.roots.length →
      c.fleet.up j = false →
      Registration.name ⟨socket, address.1, address.2, segments⟩ =
        some (rootName (c.fleet.servers j)) →
      IsAddress address → (∀ k, c.fleet.up k = true → c.fleet.address k ≠ address) →
      Exec (registerStorageServer c.naming socket address.1 address.2 segments) tr (some st) →
      outages.Accepts c.fleet tr f → Step calm c ⟨st, f.join j address, c.saved⟩

/-- The replica of server `i` on server `b` has exactly the paths that are found in the trie of
server `i`, and its files are those that were created or written, with what they were left with. -/
structure Current (c : Service) (i b : Nat) : Prop where
  paths : ∀ n, c.naming.roots[i]? = some n → ∀ ws, [rootName (c.fleet.servers i)] <+: ws →
    (replica (c.fleet.servers b) ws ≠ none ↔ searchPathHelper (lit "." :: ws) n = true)
  contents : ∀ ws, [rootName (c.fleet.servers i)] <+: ws → ∀ t,
    replica (c.fleet.servers b) ws = some (.file t) ↔ c.saved ws = some t

/-- Whenever `redundantSS` answers with another server than the one asked for, the replica there
is current. -/
def FailoverIsCurrent (c : Service) : Prop :=
  ∀ i b tr st f, Exec (redundantSs c.naming i) tr (some (some b, st)) →
    outages.Accepts c.fleet tr f → b ≠ i → Current c i b

/-- The condition under which updates reach the replicas. -/
def Undisturbed : Update → Service → Service → Prop
  -- The backups do not stop before or during the command, which fits the buffers, and the folder
  -- is not larger than a node of the trie.
  | .entry i v ws, c, c' =>
    (v.name ++ lit "b " ++ pathText ws).length < bufferSize ∧ Roomy (c'.fleet.servers i) ∧
      ∀ b, IsBackup c.naming i b → c'.fleet.up b = true ∧
        (replicaPath (rootName (c.fleet.servers b)) (pathText ws)).length < maxPathSize
  -- Nor does the server itself stop, the names have no white space, and the file can be sent.
  | .write i ws t, c, c' =>
    IsWord (pathText ws) ∧ Sent 0 (pathText ws) [] (.file t) ∧ c'.fleet.up i = true ∧
      ∀ b, IsBackup c.naming i b → c'.fleet.up b = true ∧ IsWord (rootName (c.fleet.servers b)) ∧
        (commandTo c.naming b (lit "lcopy") (pathText ws)
          (replicaFolder (rootName (c.fleet.servers b)))).length < bufferSize

end NetworkFileSystem.Cluster
