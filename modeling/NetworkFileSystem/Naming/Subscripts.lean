import NetworkFileSystem.Base.Notes
import NetworkFileSystem.Naming.Refresh

/-!
# The subscripts of the server table

`naming_server.c:356–456,486–519,1059–1130,1187–1233`. The programs of reads and of write
notifications once more, with a note for each entry of `storage_servers` that they access;
the index `-1` is `none`. Without the notes they are the programs of the handlers.
-/

namespace NetworkFileSystem.Naming

open Base Protocol Trie Prog

/-- Programs of the naming server that note each subscript of `storage_servers`. -/
abbrev SubProg (α : Type) : Type :=
  Prog (Noted NsOp (Option Nat)) (Noted.Out NsOp.Res) α

abbrev SubEvent : Type := Event (Noted NsOp (Option Nat)) (Noted.Out NsOp.Res)

/-- `storage_servers[i]`. -/
def subscript (i : Option Nat) : SubProg Unit := Noted.write i

/-- The entries that a loop visits. -/
def subscripts : List Nat → SubProg Unit
  | [] => pure ()
  | i :: is => do
    subscript (some i)
    subscripts is

/-- `isSsUp`: every access is to the entry of `index`. -/
def isSsUpNoted (st : NsState) (i : Nat) : SubProg (Bool × NsState) := do
  subscript (some i)
  Noted.lift (isSsUp st i)

/-- `redundantSs`. -/
def redundantSsNoted (st : NsState) (index : Nat) : SubProg (Option Nat × NsState) := do
  let (up, st) ← isSsUpNoted st index
  if up then return (some index, st)
  subscript (some index)
  let (up, st) ← tryBackup st (st.backupServer1 index)
  if up then return (st.backupServer1 index, st)
  subscript (some index)
  let (up, st) ← tryBackup st (st.backupServer2 index)
  if up then return (st.backupServer2 index, st)
  return (none, st)
where
  /-- `redundantSs.tryBackup`. -/
  tryBackup (st : NsState) : Option Nat → SubProg (Bool × NsState)
    | none => pure (false, st)
    | some b => isSsUpNoted st b

/-- `searchStorageServer`: the loop of `search_in_tries` visits the entries up to the one it
finds. -/
def searchStorageServerNoted (st : NsState) (buffer : Text) : SubProg (Option Nat × NsState) :=
  match searchCache st.cache buffer with
  | some index => do
    let k := st.cache[index]?.map CacheEntry.index
    let cache := moveToBack st.cache index
    let indexToSend := (cache[index]?.map CacheEntry.index).getD 0
    let (_, st) ← isSsUpNoted { st with cache := cache } indexToSend
    pure (k, st)
  | none =>
    match searchInTries st.roots buffer with
    | none => .abort
    | some none => do
      subscripts (List.range st.storageServerIndex)
      if st.storageServerIndex ≤ st.storageServers.length then pure (none, st) else .abort
    | some (some found) => do
      subscripts (List.range (found + 1))
      let (_, st) ← isSsUpNoted { st with cache := addToCache st.cache buffer found } found
      pure (some found, st)

/-- `locate` with the reads before the test of `ssindex`, `naming_server.c:1061–1082`. -/
def locateNoted (st : NsState) (path : Text) : SubProg NsState := do
  let (ssindex, st) ← searchStorageServerNoted st path
  subscript ssindex
  match ssindex with
  | none =>
    Noted.lift (reply notFound)
    pure st
  | some i =>
    subscript (some i)
    if st.isUp i then
      Noted.lift (reply (serverAddress st i))
      pure st
    else
      let (index, st) ← redundantSsNoted st i
      subscript index
      match index with
      | none => .abort
      | some b =>
        if b = i then
          Noted.lift (reply (serverAddress st i))
          pure st
        else
          subscript (some b)
          let name ← Prog.ofOption (st.rootName b)
          Noted.lift (reply (backupAddress st b name))
          pure st

/-- A command on a path that `process_client` does not handle itself. -/
def readNoted (st : NsState) (path : Text) : SubProg NsState :=
  if isTopWord path then do
    Noted.lift (reply notFound)
    pure st
  else locateNoted st path

/-- `backupWritten`. -/
def backupWrittenNoted (st : NsState) (path : Text) (i : Nat) : SubProg NsState := do
  let bs2 := st.backupServer2 i
  let st ← copyTo st (st.backupServer1 i)
  copyTo st bs2
where
  /-- `backupWritten.copyTo`: the root name and the address are those of the backup, the socket
  is that of the server. -/
  copyTo (st : NsState) : Option Nat → SubProg NsState
    | none => pure st
    | some b => do
      let (up, st) ← isSsUpNoted st b
      if up then
        subscript (some b)
        let name ← Prog.ofOption (st.rootName b)
        subscript (some i)
        Noted.lift (handleBackupCopy st
          (clip bufferSize (lit "lcopy " ++ path ++ lit " " ++ backupFolder ++ lit "/" ++ name)) i b)
        pure st
      else pure st

/-- `listenAsync`. -/
def listenAsyncNoted (st : NsState) (line : Text) : SubProg NsState := do
  if startsWith (lit "WRITE_SYNC") line then
    let path ← Prog.ofOption (tokens bar line)[1]?
    let (ssindex, st) ← searchStorageServerNoted st path
    subscript ssindex
    match ssindex with
    | none => .abort
    | some i => backupWrittenNoted st path i
  else if startsWith (lit "writeasync") line then
    let path ← Prog.ofOption (words line)[1]?
    let (ssindex, st) ← searchStorageServerNoted st path
    subscript ssindex
    match ssindex with
    | none => .abort
    | some i =>
      let st ← backupWrittenNoted st path i
      let clientIp ← Prog.ofOption (words line)[2]?
      let clientPort ← Prog.ofOption (words line)[3]?
      let ack := clip bufferSize (lit "ACK: Backup completed for " ++ path)
      let _ ← Noted.lift (Prog.call (NsOp.sendAck clientIp clientPort ack) : NsProg Bool)
      pure st
  else pure st

/-! ### Without the notes -/

@[simp] theorem erase_subscript (i : Option Nat) : Noted.erase (subscript i) = pure () := rfl

@[simp] theorem erase_subscripts (is : List Nat) : Noted.erase (subscripts is) = pure () := by
  induction is with
  | nil => rfl
  | cons i is ih => exact ih

@[simp] theorem erase_isSsUpNoted (st : NsState) (i : Nat) :
    Noted.erase (isSsUpNoted st i) = isSsUp st i := by
  rw [isSsUpNoted, Noted.erase_bind, erase_subscript, pure_bind, Noted.erase_lift]

@[simp] theorem erase_tryBackup (st : NsState) (backup : Option Nat) :
    Noted.erase (redundantSsNoted.tryBackup st backup) = redundantSs.tryBackup st backup := by
  cases backup with
  | none => rfl
  | some b => exact erase_isSsUpNoted st b

@[simp] theorem erase_redundantSsNoted (st : NsState) (index : Nat) :
    Noted.erase (redundantSsNoted st index) = redundantSs st index := by
  unfold redundantSsNoted redundantSs
  rw [Noted.erase_bind, erase_isSsUpNoted]
  refine bind_congr (fun ⟨up, st₁⟩ ↦ ?_)
  cases up with
  | true => rfl
  | false =>
    simp only [Bool.false_eq_true, if_false, Noted.erase_bind, erase_subscript, pure_bind,
      erase_tryBackup]
    refine bind_congr (fun ⟨up, st₂⟩ ↦ ?_)
    cases up with
    | true => rfl
    | false =>
      simp only [Bool.false_eq_true, if_false, Noted.erase_bind, erase_subscript, pure_bind,
        erase_tryBackup]
      refine bind_congr (fun ⟨up, st₃⟩ ↦ ?_)
      cases up <;> rfl

@[simp] theorem erase_searchStorageServerNoted (st : NsState) (buffer : Text) :
    Noted.erase (searchStorageServerNoted st buffer) = searchStorageServer st buffer := by
  unfold searchStorageServerNoted searchStorageServer
  cases searchCache st.cache buffer with
  | some index => rfl
  | none =>
    cases searchInTries st.roots buffer with
    | none => rfl
    | some found =>
      cases found with
      | none =>
        simp only [Noted.erase_bind, erase_subscripts, pure_bind]
        split <;> rfl
      | some k =>
        simp only [Noted.erase_bind, erase_subscripts, pure_bind, erase_isSsUpNoted]
        rfl

theorem erase_locateNoted (st : NsState) (path : Text) :
    Noted.erase (locateNoted st path) = locate st path := by
  unfold locateNoted locate
  rw [Noted.erase_bind, erase_searchStorageServerNoted]
  refine bind_congr (fun ⟨ssindex, st₁⟩ ↦ ?_)
  rw [Noted.erase_bind, erase_subscript, pure_bind]
  cases ssindex with
  | none =>
    simp only [Noted.erase_bind, Noted.erase_lift]
    rfl
  | some i =>
    simp only [Noted.erase_bind, erase_subscript, pure_bind]
    split
    · simp only [Noted.erase_bind, Noted.erase_lift]
      rfl
    · simp only [Noted.erase_bind, erase_redundantSsNoted]
      refine bind_congr (fun ⟨index, st₂⟩ ↦ ?_)
      cases index with
      | none => rfl
      | some b =>
        simp only [erase_subscript, pure_bind]
        split
        · simp only [Noted.erase_bind, Noted.erase_lift]
          rfl
        · simp only [Noted.erase_bind, erase_subscript, pure_bind, Noted.erase_lift,
            Noted.erase_ofOption]
          rfl

/-- Verbs that `process_client` does not handle itself, in a line that is no listing. -/
structure IsRead (line command : Text) : Prop where
  listing : isListing line = false
  copy : startsWith (lit "copy") line = false
  write : startsWith (lit "write") line = false
  make : ¬ (command = lit "mkdir" ∨ command = lit "touch")
  remove : ¬ (command = lit "rmdir" ∨ command = lit "rm")

/-- What `process_client` does with the line of a read. -/
theorem erase_readNoted {line command path : Text} {rest : List Text}
    (hread : IsRead line command) (hw : words line = command :: path :: rest) (st : NsState) :
    Noted.erase (readNoted st path) = processClient st line := by
  have hlisting : ¬ (line = lit "ls ~" ∨ line = lit "ls .") := by
    simpa [isListing] using hread.listing
  have hcopy : ¬ startsWith (lit "copy") line = true := Bool.eq_false_iff.mp hread.copy
  unfold readNoted processClient
  rw [if_neg hlisting, if_neg hcopy, hw]
  simp only [hread.write, Bool.false_eq_true, if_false, hread.make, hread.remove, pure_bind]
  split
  · simp only [Noted.erase_bind, Noted.erase_lift]
    rfl
  · exact erase_locateNoted st path

private theorem erase_copyToNoted (st : NsState) (path : Text) (i : Nat) (backup : Option Nat) :
    Noted.erase (backupWrittenNoted.copyTo path i st backup) =
      backupWritten.copyTo path i st backup := by
  cases backup with
  | none => rfl
  | some b =>
    unfold backupWrittenNoted.copyTo backupWritten.copyTo
    rw [Noted.erase_bind, erase_isSsUpNoted]
    refine bind_congr (fun ⟨up, st₁⟩ ↦ ?_)
    cases up with
    | false => rfl
    | true =>
      simp only [if_true, Noted.erase_bind, erase_subscript, pure_bind, Noted.erase_ofOption,
        Noted.erase_lift]
      rfl

@[simp] theorem erase_backupWrittenNoted (st : NsState) (path : Text) (i : Nat) :
    Noted.erase (backupWrittenNoted st path i) = backupWritten st path i := by
  unfold backupWrittenNoted backupWritten
  simp only [Noted.erase_bind, erase_copyToNoted]

theorem erase_listenAsyncNoted (st : NsState) (line : Text) :
    Noted.erase (listenAsyncNoted st line) = listenAsync st line := by
  unfold listenAsyncNoted listenAsync
  split
  · rw [Noted.erase_bind, Noted.erase_ofOption]
    refine bind_congr (fun path ↦ ?_)
    rw [Noted.erase_bind, erase_searchStorageServerNoted]
    refine bind_congr (fun ⟨ssindex, st₁⟩ ↦ ?_)
    cases ssindex with
    | none => rfl
    | some i => exact erase_backupWrittenNoted st₁ path i
  · split
    · rw [Noted.erase_bind, Noted.erase_ofOption]
      refine bind_congr (fun path ↦ ?_)
      rw [Noted.erase_bind, erase_searchStorageServerNoted]
      refine bind_congr (fun ⟨ssindex, st₁⟩ ↦ ?_)
      cases ssindex with
      | none => rfl
      | some i =>
        simp only [Noted.erase_bind, erase_subscript, pure_bind, erase_backupWrittenNoted,
          Noted.erase_ofOption, Noted.erase_lift]
        rfl
    · rfl

/-! ### The entries that are visited -/

/-- Every subscript is below `n`. -/
def Within (n : Nat) (tr : List SubEvent) : Prop := ∀ x ∈ Noted.notes tr, ∃ i < n, x = some i

theorem within_append {n : Nat} {tr₁ tr₂ : List SubEvent} :
    Within n (tr₁ ++ tr₂) ↔ Within n tr₁ ∧ Within n tr₂ := by
  simp only [Within, Noted.notes_append, List.mem_append]
  exact ⟨fun h ↦ ⟨fun x hm ↦ h x (.inl hm), fun x hm ↦ h x (.inr hm)⟩,
    fun h x hm ↦ hm.elim (h.1 x) (h.2 x)⟩

theorem within_nil {n : Nat} : Within n [] := by
  simp [Within, Noted.notes]

theorem within_cons {n : Nat} {i : Option Nat} {tr : List SubEvent} :
    Within n (⟨.note i, ()⟩ :: tr) ↔ (∃ j < n, i = some j) ∧ Within n tr := by
  simp [Within, Noted.notes]

theorem within_lift {n : Nat} {α : Type} {p : NsProg α} {tr : List SubEvent} {out : Option α}
    (h : Exec (Noted.lift p : SubProg α) tr out) : Within n tr := by
  simp [Within, (Noted.notes_lift h).1]

section Visited

variable {α : Type} {tr : List SubEvent} {out : Option α}

theorem exec_subscript {i : Option Nat} {f : Unit → SubProg α} :
    Exec (subscript i >>= f) tr out ↔ ∃ rest, tr = ⟨.note i, ()⟩ :: rest ∧ Exec (f ()) rest out :=
  Noted.exec_write

theorem exec_subscripts {is : List Nat} {f : Unit → SubProg α}
    (h : Exec (subscripts is >>= f) tr out) :
    ∃ tr₁ tr₂, tr = tr₁ ++ tr₂ ∧ Exec (f ()) tr₂ out ∧
      ∀ n, (∀ i ∈ is, i < n) → Within n tr₁ := by
  induction is generalizing tr with
  | nil => exact ⟨[], tr, rfl, h, fun _ _ ↦ within_nil⟩
  | cons i is ih =>
    obtain ⟨rest, rfl, hrest⟩ := exec_subscript.mp h
    obtain ⟨tr₁, tr₂, rfl, hx, hwithin⟩ := ih hrest
    refine ⟨⟨.note (some i), ()⟩ :: tr₁, tr₂, rfl, hx, fun n hall ↦ ?_⟩
    exact within_cons.mpr ⟨⟨i, hall i (by simp), rfl⟩, hwithin n (fun j hj ↦ hall j (by simp [hj]))⟩

theorem exec_isSsUpNoted {st : NsState} {i : Nat} {f : Bool × NsState → SubProg α} :
    Exec (isSsUpNoted st i >>= f) tr out ↔ ∃ r rest, tr = ⟨.note (some i), ()⟩ ::
      ⟨.op (.ping i), r⟩ :: rest ∧
        Exec (f (decide (r = PingResult.up), st.afterPing i r)) rest out := by
  constructor
  · rintro ⟨_, _, rfl, r, rest, rfl, hx⟩
    exact ⟨r, rest, rfl, hx⟩
  · rintro ⟨r, rest, rfl, hx⟩
    exact ⟨(), _, rfl, r, rest, rfl, hx⟩

end Visited

/-- The tables that the visited entries depend on. -/
structure Sound (st : NsState) : Prop where
  indexed : st.Indexed
  tabled : Tabled st

theorem NsStep.sound {st : NsState} (h : Reachable (fun s ↦ s = .initial) NsStep st) :
    Sound st := by
  refine ⟨(h.invariant (I := fun s ↦ s.DistinctRoots ∧ s.Indexed) ?_ ?_).2, NsStep.tabled h⟩
  · rintro _ rfl
    exact NsState.initial_keeps
  · exact fun _ _ hI hs ↦ hs.keeps hI

namespace Sound

variable {st : NsState} {tr : List SubEvent}

theorem counted (h : Sound st) : st.storageServers.length ≤ st.storageServerIndex := by
  rw [h.tabled.filled]
  omega

theorem resolved (h : Sound st) {path : Text} {k : Nat} (hk : st.resolve path = some k) :
    k < st.storageServers.length := by
  simpa [NsState.roots] using h.indexed.resolve hk

theorem cached (h : Sound st) {path : Text} {e : CacheEntry} (he : e ∈ st.cacheAfter path) :
    e.index < st.storageServerIndex := by
  have hlt : e.index < st.storageServers.length := by
    simpa [NsState.roots] using h.indexed.cacheAfter he
  exact hlt.trans_le h.counted

/-- A lookup visits counted entries only. -/
theorem within_search (h : Sound st) {path : Text} {out : Option (Option Nat × NsState)}
    (hx : Exec (searchStorageServerNoted st path) tr out) : Within st.storageServerIndex tr := by
  unfold searchStorageServerNoted at hx
  cases hc : searchCache st.cache path with
  | some index =>
    simp only [hc] at hx
    obtain ⟨e, he, -⟩ := searchCache_eq_some hc
    have hlt := (List.getElem?_eq_some_iff.mp he).1
    obtain ⟨r, rest, rfl, rfl, -⟩ := exec_isSsUpNoted.mp hx
    have hafter : st.cacheAfter path = moveToBack st.cache index := by
      rw [NsState.cacheAfter, hc]
    have hmoved : index < (moveToBack st.cache index).length := by
      rw [moveToBack, he, Option.toList_some, List.length_append, List.length_singleton,
        List.length_eraseIdx_of_lt hlt]
      omega
    refine within_cons.mpr ⟨⟨_, ?_, rfl⟩, by simp [Within, Noted.notes]⟩
    rw [List.getElem?_eq_getElem hmoved, Option.map_some, Option.getD_some]
    have hmem : (moveToBack st.cache index)[index] ∈ st.cacheAfter path := by
      rw [hafter]
      exact List.getElem_mem hmoved
    exact h.cached hmem
  | none =>
    simp only [hc] at hx
    cases hs : searchInTries st.roots path with
    | none =>
      simp only [hs] at hx
      rw [hx.1]
      exact within_nil
    | some found =>
      cases found with
      | none =>
        simp only [hs] at hx
        obtain ⟨tr₁, tr₂, rfl, hx₂, hwithin⟩ := exec_subscripts hx
        refine within_append.mpr ⟨hwithin _ (fun i hi ↦ List.mem_range.mp hi), ?_⟩
        split at hx₂
        · rw [hx₂.1]
          exact within_nil
        · rw [hx₂.1]
          exact within_nil
      | some k =>
        simp only [hs] at hx
        have hk : k < st.storageServerIndex := by
          have hlt := lt_of_searchInTries hs
          simp only [NsState.roots, List.length_map] at hlt
          exact hlt.trans_le h.counted
        obtain ⟨tr₁, tr₂, rfl, hx₂, hwithin⟩ := exec_subscripts hx
        obtain ⟨r, rest, rfl, rfl, -⟩ := exec_isSsUpNoted.mp hx₂
        refine within_append.mpr ⟨hwithin _ (fun i hi ↦ ?_), within_cons.mpr ⟨⟨k, hk, rfl⟩, ?_⟩⟩
        · have := List.mem_range.mp hi
          omega
        · simp [Within, Noted.notes]

end Sound

/-! ### Replicas -/

/-- The first reachable one of some servers. -/
def firstReachable (answers : Nat → PingResult) (servers : List (Option Nat)) : Option Nat :=
  servers.reduceOption.find? (fun b ↦ decide (answers b = .up))

theorem firstReachable_cons (answers : Nat → PingResult) (o : Option Nat)
    (rest : List (Option Nat)) : firstReachable answers (o :: rest) =
      if o.any (fun b ↦ decide (answers b = .up)) then o else firstReachable answers rest := by
  cases o with
  | none => rfl
  | some b =>
    unfold firstReachable
    rw [List.reduceOption_cons_of_some, List.find?_cons]
    by_cases hb : answers b = .up <;> simp [hb]

section Replicas

variable {answers : Nat → PingResult} {st : NsState} {tr : List SubEvent}

private theorem exec_tryBackupNoted {backup : Option Nat} {out : Option (Bool × NsState)}
    (h : Exec (redundantSsNoted.tryBackup st backup) tr out) (ha : Answered answers (Noted.plain tr)) :
    ∃ st', out = some (backup.any (fun b ↦ decide (answers b = .up)), st') ∧
      st'.frozen = st.frozen ∧ ∀ n, (∀ b, backup = some b → b < n) → Within n tr := by
  cases backup with
  | none =>
    obtain ⟨rfl, rfl⟩ := h
    exact ⟨st, rfl, rfl, fun _ _ ↦ within_nil⟩
  | some b =>
    obtain ⟨_, _, rfl, r, _, rfl, rfl, rfl⟩ := h
    obtain rfl := ha b r List.mem_cons_self
    refine ⟨st.afterPing b (answers b), rfl, frozen_afterPing _ _ _, fun n hn ↦ ?_⟩
    exact within_cons.mpr ⟨⟨b, hn b rfl, rfl⟩, by simp [Within, Noted.notes]⟩

/-- If pings tell who is reachable, the first reachable one of a server and its backups is
picked, and only their entries are visited. -/
theorem exec_redundantSsNoted {i : Nat} {out : Option (Option Nat × NsState)}
    (h : Exec (redundantSsNoted st i) tr out) (ha : Answered answers (Noted.plain tr)) :
    ∃ st', out = some (firstReachable answers [some i, st.backupServer1 i, st.backupServer2 i],
        st') ∧ st'.frozen = st.frozen ∧
      ∀ n, i < n → (∀ b, st.backupServer1 i = some b ∨ st.backupServer2 i = some b → b < n) →
        Within n tr := by
  unfold redundantSsNoted at h
  -- The server itself is asked like a backup that is always assigned.
  change Exec (redundantSsNoted.tryBackup st (some i) >>= _) tr out at h
  rw [firstReachable_cons]
  obtain ⟨h₁, -⟩ | ⟨⟨up, st₁⟩, t₁, u₁, rfl, h₁, h'⟩ := exec_bind.mp h
  · obtain ⟨_, hout, -⟩ := exec_tryBackupNoted h₁ ha
    cases hout
  rw [Noted.plain_append] at ha
  obtain ⟨ha₁, ha'⟩ := Answered.append.mp ha
  obtain ⟨_, hout, hf₁, hw₁⟩ := exec_tryBackupNoted h₁ ha₁
  cases hout
  simp only at h'
  split at h'
  · next hup =>
    obtain ⟨rfl, rfl⟩ := h'
    refine ⟨_, by rw [if_pos hup], hf₁, fun n hi _ ↦ ?_⟩
    exact within_append.mpr ⟨hw₁ n (fun b hb ↦ Option.some.inj hb ▸ hi), within_nil⟩
  next hup =>
  rw [if_neg hup, firstReachable_cons]
  obtain ⟨u₂, rfl, hx₂⟩ := exec_subscript.mp h'
  rw [backupServer1_of_frozen hf₁] at hx₂
  obtain ⟨h₂, -⟩ | ⟨⟨up, st₂⟩, t₂, u₃, rfl, h₂, h'⟩ := exec_bind.mp hx₂
  · obtain ⟨_, hout, -⟩ := exec_tryBackupNoted h₂ ha'
    cases hout
  change Answered answers (Noted.plain (t₂ ++ u₃)) at ha'
  rw [Noted.plain_append] at ha'
  obtain ⟨ha₂, ha'⟩ := Answered.append.mp ha'
  obtain ⟨_, hout, hf₂, hw₂⟩ := exec_tryBackupNoted h₂ ha₂
  cases hout
  simp only at h'
  have hf₂ := hf₂.trans hf₁
  split at h'
  · next hup =>
    obtain ⟨rfl, rfl⟩ := h'
    refine ⟨_, by rw [if_pos hup, backupServer1_of_frozen hf₂], hf₂, fun n hi hb ↦ ?_⟩
    refine within_append.mpr ⟨hw₁ n (fun b hb ↦ Option.some.inj hb ▸ hi),
      within_cons.mpr ⟨⟨i, hi, rfl⟩, within_append.mpr ⟨hw₂ n (fun b h ↦ hb b (.inl h)), ?_⟩⟩⟩
    exact within_nil
  next hup =>
  rw [if_neg hup, firstReachable_cons]
  obtain ⟨u₄, rfl, hx₃⟩ := exec_subscript.mp h'
  rw [backupServer2_of_frozen hf₂] at hx₃
  obtain ⟨h₃, -⟩ | ⟨⟨up, st₃⟩, t₃, u₅, rfl, h₃, h'⟩ := exec_bind.mp hx₃
  · obtain ⟨_, hout, -⟩ := exec_tryBackupNoted h₃ ha'
    cases hout
  change Answered answers (Noted.plain (t₃ ++ u₅)) at ha'
  rw [Noted.plain_append] at ha'
  obtain ⟨_, hout, hf₃, hw₃⟩ := exec_tryBackupNoted h₃ (Answered.append.mp ha').1
  cases hout
  simp only at h'
  have hf₃ := hf₃.trans hf₂
  have hwithin : ∀ n, i < n →
      (∀ b, st.backupServer1 i = some b ∨ st.backupServer2 i = some b → b < n) →
      Within n (t₁ ++ ⟨.note (some i), ()⟩ :: (t₂ ++ ⟨.note (some i), ()⟩ :: (t₃ ++ []))) := by
    intro n hi hb
    refine within_append.mpr ⟨hw₁ n (fun b hb ↦ Option.some.inj hb ▸ hi), within_cons.mpr
      ⟨⟨i, hi, rfl⟩, within_append.mpr ⟨hw₂ n (fun b h ↦ hb b (.inl h)), within_cons.mpr
        ⟨⟨i, hi, rfl⟩, within_append.mpr ⟨hw₃ n (fun b h ↦ hb b (.inr h)), within_nil⟩⟩⟩⟩⟩
  split at h'
  · next hup =>
    obtain ⟨rfl, rfl⟩ := h'
    exact ⟨_, by rw [if_pos hup, backupServer2_of_frozen hf₃], hf₃, hwithin⟩
  · next hup =>
    obtain ⟨rfl, rfl⟩ := h'
    exact ⟨_, by rw [if_neg hup]; rfl, hf₃, hwithin⟩

end Replicas

end NetworkFileSystem.Naming
