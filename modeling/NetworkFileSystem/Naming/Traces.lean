import NetworkFileSystem.Naming.Commands

/-!
# What the shared steps of the handlers can do

`naming_server.c:365–519,852–906`. For every piece that the command handlers are built
from: the traces it may leave and the tables it returns. Lookups, pings and replication
touch nothing but the cache and the `isUp` flags; `frozen` is the rest of the tables.
-/

namespace NetworkFileSystem.Naming

open Base Protocol Trie Prog

/-! ### Tables -/

/-- Everything but the cache and the `isUp` flags. -/
def NsState.frozen (st : NsState) : List StorageServerInfo × Nat :=
  (st.storageServers.map (fun info ↦ { info with isUp := true }), st.storageServerIndex)

section Frozen

variable {st st' : NsState}

private theorem getElem?_frozen (st : NsState) (i : Nat) :
    st.frozen.1[i]? = st.storageServers[i]?.map (fun info ↦ { info with isUp := true }) := by
  simp [NsState.frozen]

theorem roots_of_frozen (h : st'.frozen = st.frozen) : st'.roots = st.roots := by
  have hroots : ∀ s : NsState, s.roots = s.frozen.1.map StorageServerInfo.root := by
    intro s
    simp [NsState.roots, NsState.frozen, Function.comp_def]
  rw [hroots, hroots, h]

theorem storageServerIndex_of_frozen (h : st'.frozen = st.frozen) :
    st'.storageServerIndex = st.storageServerIndex :=
  congrArg Prod.snd h

theorem length_of_frozen (h : st'.frozen = st.frozen) :
    st'.storageServers.length = st.storageServers.length := by
  simpa [NsState.frozen] using congrArg (fun p ↦ p.1.length) h

theorem backupServer1_of_frozen (h : st'.frozen = st.frozen) (i : Nat) :
    st'.backupServer1 i = st.backupServer1 i := by
  have hb : ∀ s : NsState, s.backupServer1 i =
      s.frozen.1[i]?.bind StorageServerInfo.backupServer1 := by
    intro s
    rw [getElem?_frozen, NsState.backupServer1]
    cases s.storageServers[i]? <;> rfl
  rw [hb, hb, h]

theorem backupServer2_of_frozen (h : st'.frozen = st.frozen) (i : Nat) :
    st'.backupServer2 i = st.backupServer2 i := by
  have hb : ∀ s : NsState, s.backupServer2 i =
      s.frozen.1[i]?.bind StorageServerInfo.backupServer2 := by
    intro s
    rw [getElem?_frozen, NsState.backupServer2]
    cases s.storageServers[i]? <;> rfl
  rw [hb, hb, h]

theorem rootName_of_frozen (h : st'.frozen = st.frozen) (i : Nat) :
    st'.rootName i = st.rootName i := by
  have hb : ∀ s : NsState, s.rootName i =
      s.frozen.1[i]?.bind (fun info ↦ (exportedFolder info.root).bind (·.map TrieNode.data)) := by
    intro s
    rw [getElem?_frozen, NsState.rootName]
    cases s.storageServers[i]? <;> rfl
  rw [hb, hb, h]

theorem receiverAddress_of_frozen (h : st'.frozen = st.frozen) (i : Nat) :
    receiverAddress st' i = receiverAddress st i := by
  have hb : ∀ s : NsState, receiverAddress s i = clip bufferSize (lit " " ++
      (s.frozen.1[i]?.map StorageServerInfo.ip).getD [] ++ lit " " ++
      decimal ((s.frozen.1[i]?.map StorageServerInfo.portClient).getD 0)) := by
    intro s
    rw [getElem?_frozen, receiverAddress, NsState.ip, NsState.portClient]
    cases s.storageServers[i]? <;> rfl
  rw [hb, hb, h]

end Frozen

@[simp] theorem frozen_cache (st : NsState) (cache : List CacheEntry) :
    { st with cache := cache }.frozen = st.frozen := rfl

private theorem frozen_setUp (st : NsState) (i : Nat) (b : Bool) :
    (st.modifyServer i (fun info ↦ { info with isUp := b })).frozen = st.frozen := by
  have hmap : ∀ l : List StorageServerInfo,
      (l.modify i (fun info ↦ { info with isUp := b })).map
        (fun info ↦ { info with isUp := true }) = l.map (fun info ↦ { info with isUp := true }) := by
    intro l
    apply List.ext_getElem?
    intro j
    simp only [List.getElem?_map, List.getElem?_modify]
    cases l[j]? with
    | none => rfl
    | some info => by_cases hij : i = j <;> simp [hij]
  simp [NsState.frozen, NsState.modifyServer, hmap]

@[simp] theorem frozen_afterPing (st : NsState) (i : Nat) (r : PingResult) :
    (st.afterPing i r).frozen = st.frozen := by
  cases r with
  | noSocket => rfl
  | down => exact frozen_setUp st i false
  | up => exact frozen_setUp st i true

@[simp] theorem cache_afterPing (st : NsState) (i : Nat) (r : PingResult) :
    (st.afterPing i r).cache = st.cache := by
  cases r <;> rfl

/-! ### Operations -/

/-- The operations that neither the client nor a storage server's command loop sees. -/
def NsOp.isPing : NsOp → Bool
  | .ping _ => true
  | _ => false

/-- A trace of pings only. -/
def Pings (tr : List NsEvent) : Prop := ∀ e ∈ tr, e.1.isPing = true

theorem Pings.append {tr₁ tr₂ : List NsEvent} (h₁ : Pings tr₁) (h₂ : Pings tr₂) :
    Pings (tr₁ ++ tr₂) :=
  fun e he ↦ (List.mem_append.mp he).elim (h₁ e) (h₂ e)

/-- The operations that do not use the connection of a storage server. -/
def NsOp.isOffLink : NsOp → Bool
  | .ping _ | .sendClient _ | .sendAck _ _ _ => true
  | _ => false

/-- A trace that uses no connection of a storage server. -/
def OffLink (tr : List NsEvent) : Prop := ∀ e ∈ tr, e.1.isOffLink = true

theorem OffLink.append {tr₁ tr₂ : List NsEvent} (h₁ : OffLink tr₁) (h₂ : OffLink tr₂) :
    OffLink (tr₁ ++ tr₂) :=
  fun e he ↦ (List.mem_append.mp he).elim (h₁ e) (h₂ e)

theorem offLink_nil : OffLink [] := by
  simp [OffLink]

theorem offLink_sendClient (msg : Text) (ok : Bool) : OffLink [⟨.sendClient msg, ok⟩] := by
  simp [OffLink, NsOp.isOffLink]

theorem Pings.offLink {tr : List NsEvent} (h : Pings tr) : OffLink tr := by
  intro e he
  obtain ⟨o, r⟩ := e
  have ho := h _ he
  cases o with
  | ping i => rfl
  | _ => cases ho

section Exec

variable {α : Type} {tr : List NsEvent} {out : Option α}

theorem exec_reply {msg : Text} {f : Unit → NsProg α} :
    Exec (reply msg >>= f) tr out ↔
      ∃ ok rest, tr = ⟨.sendClient msg, ok⟩ :: rest ∧ Exec (f ()) rest out := Iff.rfl

theorem exec_sendClient {msg : Text} {f : Bool → NsProg α} :
    Exec (sendClient msg >>= f) tr out ↔
      ∃ ok rest, tr = ⟨.sendClient msg, ok⟩ :: rest ∧ Exec (f ok) rest out := Iff.rfl

theorem exec_forward {i : Nat} {msg : Text} {f : Bool → NsProg α} :
    Exec (forward i msg >>= f) tr out ↔
      ∃ ok rest, tr = ⟨.forward i msg, ok⟩ :: rest ∧ Exec (f ok) rest out := Iff.rfl

theorem exec_recvServer {i : Nat} {f : Option Text → NsProg α} :
    Exec (recvServer i >>= f) tr out ↔
      ∃ r rest, tr = ⟨.recvServer i, r⟩ :: rest ∧ Exec (f r) rest out := Iff.rfl

theorem exec_recvIndex {i : Nat} {f : List Text → NsProg α} :
    Exec (recvIndex i >>= f) tr out ↔
      ∃ r rest, tr = ⟨.recvIndex i, r⟩ :: rest ∧ Exec (f r) rest out := Iff.rfl

theorem exec_reindex {i : Nat} {f : Unit → NsProg α} :
    Exec (reindex i >>= f) tr out ↔
      ∃ ok rest, tr = ⟨.reindex i, ok⟩ :: rest ∧ Exec (f ()) rest out := Iff.rfl

theorem exec_replicate {i : Nat} {msg : Text} {f : Unit → NsProg α} :
    Exec (replicate i msg >>= f) tr out ↔
      ∃ ok rest, tr = ⟨.replicate i msg, ok⟩ :: rest ∧ Exec (f ()) rest out := Iff.rfl

theorem exec_isSsUp {st : NsState} {i : Nat} {f : Bool × NsState → NsProg α} :
    Exec (isSsUp st i >>= f) tr out ↔
      ∃ r rest, tr = ⟨.ping i, r⟩ :: rest ∧
        Exec (f (decide (r = PingResult.up), st.afterPing i r)) rest out := Iff.rfl

end Exec

/-! ### Lookups -/

/-- The answer of a lookup: a cached index, else the index found in the tries. -/
def NsState.resolve (st : NsState) (path : Text) : Option Nat :=
  match searchCache st.cache path with
  | some index => st.cache[index]?.map CacheEntry.index
  | none => (searchInTries st.roots path).join

/-- The cache behind a lookup. -/
def NsState.cacheAfter (st : NsState) (path : Text) : List CacheEntry :=
  match searchCache st.cache path with
  | some index => moveToBack st.cache index
  | none =>
    match searchInTries st.roots path with
    | some (some found) => addToCache st.cache path found
    | _ => st.cache

/-- A lookup that is answered neither by the cache nor within the tables: the path has too
many components, or the loop runs past a full table. -/
def NsState.LookupOverruns (st : NsState) (path : Text) : Prop :=
  searchCache st.cache path = none ∧
    (searchInTries st.roots path = none ∨
      searchInTries st.roots path = some none ∧ st.storageServers.length < st.storageServerIndex)

/-- The server that a lookup pings. -/
def NsState.pingTarget (st : NsState) (path : Text) : Option Nat :=
  match searchCache st.cache path with
  | some index => some (((st.cacheAfter path)[index]?.map CacheEntry.index).getD 0)
  | none => (searchInTries st.roots path).join

/-- A lookup pings at most one server, and either overruns or answers. -/
theorem exec_searchStorageServer {st : NsState} {path : Text} {tr : List NsEvent}
    {out : Option (Option Nat × NsState)} (h : Exec (searchStorageServer st path) tr out) :
    (st.LookupOverruns path ∧ tr = [] ∧ out = none) ∨
      (¬ st.LookupOverruns path ∧ st.pingTarget path = none ∧ st.resolve path = none ∧ tr = [] ∧
        out = some (none, st)) ∨
      ∃ j r, ¬ st.LookupOverruns path ∧ st.pingTarget path = some j ∧ tr = [⟨.ping j, r⟩] ∧
        out = some (st.resolve path, { st with cache := st.cacheAfter path }.afterPing j r) := by
  unfold searchStorageServer at h
  unfold NsState.LookupOverruns NsState.pingTarget NsState.cacheAfter NsState.resolve
  cases hc : searchCache st.cache path with
  | some index =>
    simp only [hc] at h
    obtain ⟨r, rest, rfl, rfl, rfl⟩ := exec_isSsUp.mp h
    exact .inr (.inr ⟨_, r, by simp, rfl, rfl, rfl⟩)
  | none =>
    simp only [hc] at h
    cases ht : searchInTries st.roots path with
    | none =>
      simp only [ht] at h
      exact .inl ⟨⟨rfl, .inl rfl⟩, h⟩
    | some found =>
      cases found with
      | none =>
        simp only [ht] at h
        split at h
        · next hle =>
          obtain ⟨rfl, rfl⟩ := h
          refine .inr (.inl ⟨?_, rfl, rfl, rfl, rfl⟩)
          simp [hle]
        · next hgt =>
          exact .inl ⟨⟨rfl, .inr ⟨rfl, Nat.lt_of_not_le hgt⟩⟩, h⟩
      | some k =>
        simp only [ht] at h
        obtain ⟨r, rest, rfl, rfl, rfl⟩ := exec_isSsUp.mp h
        exact .inr (.inr ⟨k, r, by simp, rfl, rfl, rfl⟩)

/-- A lookup that comes back has pinged at most one server and changed the cache and the
`isUp` flags only. -/
theorem exec_lookup {st st' : NsState} {path : Text} {tr : List NsEvent} {k : Option Nat}
    (h : Exec (searchStorageServer st path) tr (some (k, st'))) :
    Pings tr ∧ k = st.resolve path ∧ st'.frozen = st.frozen ∧ st'.cache = st.cacheAfter path := by
  obtain ⟨-, -, hout⟩ | ⟨-, hp, hr, rfl, hout⟩ | ⟨j, r, -, -, rfl, hout⟩ :=
    exec_searchStorageServer h
  · cases hout
  · cases hout
    refine ⟨by simp [Pings], hr.symm, rfl, ?_⟩
    unfold NsState.pingTarget at hp
    unfold NsState.cacheAfter
    split at hp
    · cases hp
    · next hc =>
      split
      · next ht => simp [ht] at hp
      · rfl
  · cases hout
    exact ⟨by simp [Pings, NsOp.isPing], rfl, by simp, by simp⟩

/-! ### Forwarding and replication -/

/-- The four ways in which a forwarded command goes. -/
theorem exec_exchange {i : Nat} {line : Text} {tr : List NsEvent} {out : Option (Option Text)}
    (h : Exec (exchange i line) tr out) :
    (tr = [⟨.forward i line, false⟩] ∧ out = some none) ∨
    (∃ ok, tr = [⟨.forward i line, true⟩, ⟨.recvServer i, none⟩,
        ⟨.sendClient notResponding, ok⟩] ∧ out = some none) ∨
    (∃ bytes, bufferSize ≤ bytes.length ∧
      tr = [⟨.forward i line, true⟩, ⟨.recvServer i, some bytes⟩] ∧ out = none) ∨
    ∃ bytes ok, bytes.length < bufferSize ∧
      tr = [⟨.forward i line, true⟩, ⟨.recvServer i, some bytes⟩,
        ⟨.sendClient (cstr bytes), ok⟩] ∧ out = some (some (cstr bytes)) := by
  obtain ⟨sent, rest, rfl, hsent⟩ := exec_forward.mp h
  cases sent with
  | false =>
    obtain ⟨rfl, rfl⟩ := hsent
    exact .inl ⟨rfl, rfl⟩
  | true =>
    obtain ⟨r, rest, rfl, hrecv⟩ := exec_recvServer.mp hsent
    cases r with
    | none =>
      obtain ⟨ok, rest, rfl, rfl, rfl⟩ := exec_reply.mp hrecv
      exact .inr (.inl ⟨ok, rfl, rfl⟩)
    | some bytes =>
      simp only at hrecv
      split at hrecv
      · next hlt =>
        obtain ⟨ok, rest, rfl, rfl, rfl⟩ := exec_reply.mp hrecv
        exact .inr (.inr (.inr ⟨bytes, ok, hlt, rfl, rfl⟩))
      · next hge =>
        obtain ⟨rfl, rfl⟩ := hrecv
        exact .inr (.inr (.inl ⟨bytes, Nat.le_of_not_lt hge, rfl, rfl⟩))

/-- A trace of pings and of sends to `receiver b` of the message for `b`. -/
def Replicates (receiver : Nat → Nat) (msg : Nat → Option Text) (tr : List NsEvent) : Prop :=
  ∀ e ∈ tr, e.1.isPing = true ∨ ∃ b m, msg b = some m ∧ e.1 = .replicate (receiver b) m

/-- Replication to one backup keeps the tables; it aborts only for want of a message. -/
theorem exec_replicateTo {st : NsState} {receiver : Nat → Nat} {msg : Nat → Option Text}
    {backup : Option Nat} {tr : List NsEvent} {out : Option NsState}
    (h : Exec (replicateTo st receiver msg backup) tr out) :
    Replicates receiver msg tr ∧
      ((∃ b, backup = some b ∧ tr = [⟨.ping b, PingResult.up⟩] ∧ msg b = none ∧ out = none) ∨
        ∃ st', out = some st' ∧ st'.frozen = st.frozen ∧ st'.cache = st.cache ∧
          (∀ b, backup = some b → (⟨.ping b, PingResult.up⟩ : NsEvent) ∈ tr →
            (msg b).isSome)) := by
  cases backup with
  | none =>
    obtain ⟨rfl, rfl⟩ := h
    exact ⟨by simp [Replicates], .inr ⟨st, rfl, rfl, rfl, by simp⟩⟩
  | some b =>
    obtain ⟨r, rest, rfl, hping⟩ := exec_isSsUp.mp h
    by_cases hr : r = PingResult.up
    · subst hr
      simp only [decide_true, if_true] at hping
      cases hm : msg b with
      | none =>
        rw [hm] at hping
        obtain ⟨rfl, rfl⟩ := hping
        exact ⟨by simp [Replicates, NsOp.isPing], .inl ⟨b, rfl, rfl, hm, rfl⟩⟩
      | some m =>
        rw [hm] at hping
        obtain ⟨ok, rest, rfl, rfl, rfl⟩ := exec_replicate.mp hping
        refine ⟨?_, .inr ⟨_, rfl, by simp, by simp, by simp [hm]⟩⟩
        simp only [Replicates, List.mem_cons, List.not_mem_nil, or_false, forall_eq_or_imp,
          forall_eq]
        exact ⟨.inl rfl, .inr ⟨b, m, hm, rfl⟩⟩
    · simp only [hr, decide_false, Bool.false_eq_true, if_false] at hping
      obtain ⟨rfl, rfl⟩ := hping
      exact ⟨by simp [Replicates, NsOp.isPing], .inr ⟨_, rfl, by simp, by simp, by simp [Ne.symm hr]⟩⟩

theorem Replicates.append {receiver : Nat → Nat} {msg : Nat → Option Text}
    {tr₁ tr₂ : List NsEvent} (h₁ : Replicates receiver msg tr₁) (h₂ : Replicates receiver msg tr₂) :
    Replicates receiver msg (tr₁ ++ tr₂) := by
  intro e he
  exact (List.mem_append.mp he).elim (h₁ e) (h₂ e)

/-- What goes to one backup: a ping, and the command if the ping is answered. -/
def SendsTo (msg : Text) (backup : Option Nat) (tr : List NsEvent) : Prop :=
  match backup with
  | none => tr = []
  | some b => (∃ ok, tr = [⟨.ping b, PingResult.up⟩, ⟨.replicate b msg, ok⟩]) ∨
      ∃ r, r ≠ PingResult.up ∧ tr = [⟨.ping b, r⟩]

theorem sendsTo_of_exec {st : NsState} {msg : Text} {backup : Option Nat} {tr : List NsEvent}
    {out : Option NsState} (h : Exec (replicateTo st id (fun _ ↦ some msg) backup) tr out) :
    SendsTo msg backup tr := by
  cases backup with
  | none => exact h.1
  | some b =>
    obtain ⟨r, rest, rfl, hping⟩ := exec_isSsUp.mp h
    by_cases hr : r = PingResult.up
    · subst hr
      obtain ⟨ok, rest, rfl, rfl, -⟩ := exec_replicate.mp hping
      exact .inl ⟨ok, rfl⟩
    · simp only [hr, decide_false, Bool.false_eq_true, if_false] at hping
      obtain ⟨rfl, -⟩ := hping
      exact .inr ⟨r, hr, rfl⟩

/-- The text that repeats a command on a backup. -/
def backupCommand (command path : Text) : Text := clip bufferSize (command ++ lit "b " ++ path)

/-- Repeating a command on both backups always comes back, with the tables unchanged. -/
theorem exec_replicateCommand {st : NsState} {i : Nat} {command path : Text}
    {tr : List NsEvent} {out : Option NsState}
    (h : Exec (replicateCommand st i command path) tr out) :
    Replicates id (fun _ ↦ some (backupCommand command path)) tr ∧
      ∃ st', out = some st' ∧ st'.frozen = st.frozen ∧ st'.cache = st.cache := by
  obtain ⟨h₁, rfl⟩ | ⟨st₁, tr₁, tr₂, rfl, h₁, h₂⟩ := exec_bind.mp h
  · obtain ⟨-, ⟨_, -, -, hm, -⟩ | ⟨_, hout, -⟩⟩ := exec_replicateTo h₁
    · cases hm
    · cases hout
  · obtain ⟨hr₁, ⟨_, -, -, hm, -⟩ | ⟨_, hout, hf₁, hc₁, -⟩⟩ := exec_replicateTo h₁
    · cases hm
    cases hout
    obtain ⟨hr₂, ⟨_, -, -, hm, -⟩ | ⟨st₂, rfl, hf₂, hc₂, -⟩⟩ := exec_replicateTo h₂
    · cases hm
    exact ⟨hr₁.append hr₂, st₂, rfl, hf₂.trans hf₁, hc₂.trans hc₁⟩

theorem sendsTo_of_replicateCommand {st st' : NsState} {i : Nat} {command path : Text}
    {tr : List NsEvent} (h : Exec (replicateCommand st i command path) tr (some st')) :
    ∃ tr₁ tr₂, tr = tr₁ ++ tr₂ ∧ SendsTo (backupCommand command path) (st.backupServer1 i) tr₁ ∧
      SendsTo (backupCommand command path) (st.backupServer2 i) tr₂ := by
  obtain ⟨st₁, tr₁, tr₂, rfl, h₁, h₂⟩ := exec_bind_some h
  exact ⟨tr₁, tr₂, rfl, sendsTo_of_exec h₁, sendsTo_of_exec h₂⟩

/-! ### Entry commands -/

/-- The runs of `changeEntry`, one constructor for each way through the handler. Below, `t`
is the trace of the lookup and `st₁` the tables it leaves. -/
inductive EntryRun (c : EntryChange) (st : NsState) (line command path : Text) :
    List NsEvent → Option NsState → Prop where
  | invalid {ok : Bool} :
      isTopPath c.lookup = true → EntryRun c st line command path
        [⟨.sendClient invalidPath, ok⟩] (some st)
  | overruns :
      isTopPath c.lookup = false → st.LookupOverruns c.lookup →
      EntryRun c st line command path [] none
  | unknown {t : List NsEvent} {st₁ : NsState} {ok : Bool} :
      isTopPath c.lookup = false →
      Exec (searchStorageServer st c.lookup) t (some (none, st₁)) →
      EntryRun c st line command path (t ++ [⟨.sendClient notFound, ok⟩]) (some st₁)
  | down {t : List NsEvent} {i : Nat} {st₁ : NsState} {ok : Bool} :
      isTopPath c.lookup = false →
      Exec (searchStorageServer st c.lookup) t (some (some i, st₁)) → st₁.isUp i = false →
      EntryRun c st line command path (t ++ [⟨.sendClient notFound, ok⟩])
        (some { st₁ with cache := c.cacheOp st₁.cache i })
  | unsent {t : List NsEvent} {i : Nat} {st₁ : NsState} :
      isTopPath c.lookup = false →
      Exec (searchStorageServer st c.lookup) t (some (some i, st₁)) →
      EntryRun c st line command path (t ++ [⟨.forward i line, false⟩])
        (some { st₁ with cache := c.cacheOp st₁.cache i })
  | unanswered {t : List NsEvent} {i : Nat} {st₁ : NsState} {ok : Bool} :
      isTopPath c.lookup = false →
      Exec (searchStorageServer st c.lookup) t (some (some i, st₁)) →
      EntryRun c st line command path (t ++ [⟨.forward i line, true⟩, ⟨.recvServer i, none⟩,
        ⟨.sendClient notResponding, ok⟩]) (some { st₁ with cache := c.cacheOp st₁.cache i })
  | overlong {t : List NsEvent} {i : Nat} {st₁ : NsState} {bytes : Text} :
      isTopPath c.lookup = false →
      Exec (searchStorageServer st c.lookup) t (some (some i, st₁)) →
      bufferSize ≤ bytes.length →
      EntryRun c st line command path
        (t ++ [⟨.forward i line, true⟩, ⟨.recvServer i, some bytes⟩]) none
  | refused {t : List NsEvent} {i : Nat} {st₁ : NsState} {bytes : Text} {ok : Bool} :
      isTopPath c.lookup = false →
      Exec (searchStorageServer st c.lookup) t (some (some i, st₁)) →
      bytes.length < bufferSize → couldNot (cstr bytes) = true →
      EntryRun c st line command path (t ++ [⟨.forward i line, true⟩,
        ⟨.recvServer i, some bytes⟩, ⟨.sendClient (cstr bytes), ok⟩])
        (some { st₁ with cache := c.cacheOp st₁.cache i })
  | carriedOut {t t₂ : List NsEvent} {i : Nat} {st₁ st₂ : NsState} {bytes : Text} {ok : Bool} :
      isTopPath c.lookup = false →
      Exec (searchStorageServer st c.lookup) t (some (some i, st₁)) →
      bytes.length < bufferSize → couldNot (cstr bytes) = false →
      Exec (replicateCommand { st₁ with cache := c.cacheOp st₁.cache i } i command path) t₂
        (some st₂) →
      EntryRun c st line command path (t ++ [⟨.forward i line, true⟩,
        ⟨.recvServer i, some bytes⟩, ⟨.sendClient (cstr bytes), ok⟩] ++ t₂)
        (st₂.updateRoot i c.trieOp)

private theorem exec_of_lookup_some {c : EntryChange} {st st₁ : NsState}
    {line command path : Text} {t tr : List NsEvent} {out : Option NsState} {i : Nat}
    (htop : isTopPath c.lookup = false)
    (hl : Exec (searchStorageServer st c.lookup) t (some (some i, st₁)))
    (h : Exec (do
      let answer ← exchange i line
      if confirms answer then
        let st ← replicateCommand { st₁ with cache := c.cacheOp st₁.cache i } i command path
        Prog.ofOption (st.updateRoot i c.trieOp)
      else pure { st₁ with cache := c.cacheOp st₁.cache i } : NsProg NsState) tr out) :
    EntryRun c st line command path (t ++ tr) out := by
  obtain ⟨hx, rfl⟩ | ⟨answer, tr₁, tr₂, rfl, hx, hrest⟩ := exec_bind.mp h
  · obtain ⟨-, hout⟩ | ⟨_, -, hout⟩ | ⟨bytes, hlen, rfl, -⟩ | ⟨_, _, -, -, hout⟩ := exec_exchange hx
    · cases hout
    · cases hout
    · exact .overlong htop hl hlen
    · cases hout
  · obtain ⟨rfl, hout⟩ | ⟨ok, rfl, hout⟩ | ⟨_, -, -, hout⟩ | ⟨bytes, ok, hlen, rfl, hout⟩ :=
      exec_exchange hx
    · cases hout
      obtain ⟨rfl, rfl⟩ := hrest
      simpa using EntryRun.unsent htop hl
    · cases hout
      obtain ⟨rfl, rfl⟩ := hrest
      simpa using EntryRun.unanswered htop hl
    · cases hout
    · cases hout
      split at hrest
      · next hyes =>
        obtain ⟨hr, rfl⟩ | ⟨st₂, t₂, t₃, rfl, hr, hupd⟩ := exec_bind.mp hrest
        · obtain ⟨-, st', hout, -⟩ := exec_replicateCommand hr
          cases hout
        · obtain ⟨rfl, rfl⟩ := exec_ofOption.mp hupd
          simpa using EntryRun.carriedOut htop hl hlen (by simpa [confirms] using hyes) hr
      · next hno =>
        obtain ⟨rfl, rfl⟩ := hrest
        simpa using EntryRun.refused htop hl hlen (by simpa [confirms] using hno)

/-- Every execution of an entry handler is one of the listed runs. -/
theorem exec_changeEntry {c : EntryChange} {st : NsState} {line command path : Text}
    {tr : List NsEvent} {out : Option NsState}
    (h : Exec (changeEntry c st line command path) tr out) :
    EntryRun c st line command path tr out := by
  unfold changeEntry at h
  by_cases htop : isTopPath c.lookup = true
  · rw [if_pos htop] at h
    obtain ⟨ok, rest, rfl, rfl, rfl⟩ := exec_reply.mp h
    exact .invalid htop
  · rw [if_neg htop] at h
    have htop' : isTopPath c.lookup = false := by simpa using htop
    obtain ⟨hs, rfl⟩ | ⟨⟨k, st₁⟩, t, tr', rfl, hs, hrest⟩ := exec_bind.mp h
    · obtain ⟨ho, rfl, -⟩ | ⟨-, -, -, -, hout⟩ | ⟨_, _, -, -, -, hout⟩ :=
        exec_searchStorageServer hs
      · exact .overruns htop' ho
      · cases hout
      · cases hout
    · cases k with
      | none =>
        obtain ⟨ok, rest, rfl, rfl, rfl⟩ := exec_reply.mp hrest
        exact .unknown htop' hs
      | some i =>
        simp only at hrest
        split at hrest
        · exact exec_of_lookup_some htop' hs hrest
        · next hup =>
          obtain ⟨ok, rest, rfl, rfl, rfl⟩ := exec_reply.mp hrest
          exact .down htop' hs (Bool.eq_false_iff.mpr hup)

end NetworkFileSystem.Naming
