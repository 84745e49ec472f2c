import NetworkFileSystem.Naming.Reach
import Mathlib.Data.Finset.Card
import Mathlib.Data.Finset.Dedup
import Mathlib.Data.List.ReduceOption

/-!
# Backup topology

`naming_server.c:105–221,435–456`. Servers register one after the other, and one that comes
back under the name of a known entry takes that entry over. Here: which backups a sequence of
registrations assigns, which copies it requests, and which server `redundantSS` picks while
at most two are unreachable.
-/

namespace NetworkFileSystem.Naming

open Base Protocol Trie Prog

/-! ### Registrations -/

/-- The name of the folder that a trie exports. -/
def nameOf (root : TrieNode) : Option Text := (exportedFolder root).join.map TrieNode.data

/-- What a storage server sends when it registers. -/
structure Registration where
  socket : Nat
  ip : Text
  portClient : Nat
  segments : List Text

namespace Registration

/-- The trie that is built from the index. -/
def root (r : Registration) : Option TrieNode :=
  (indexHelper r.segments [] (createNode (lit "."))).map Prod.fst

/-- The root name under which the server registers. -/
def name (r : Registration) : Option Text := r.root.bind nameOf

/-- The thread of one registration. -/
def register (r : Registration) (st : NsState) : NsProg NsState :=
  registerStorageServer st r.socket r.ip r.portClient r.segments

end Registration

/-- Completed registrations from the start on, with all operations they performed. -/
inductive Registers : List Registration → List NsEvent → NsState → Prop where
  | start : Registers [] [] .initial
  | next {rs : List Registration} {log tr : List NsEvent} {st st' : NsState} {r : Registration} :
      Registers rs log st → Exec (r.register st) tr (some st') →
      Registers (rs ++ [r]) (log ++ tr) st'

/-- The root names of the table, in order. -/
def NsState.names (st : NsState) : List (Option Text) := st.roots.map nameOf

theorem NsState.rootName_eq (st : NsState) (i : Nat) :
    st.rootName i = st.storageServers[i]?.bind (fun info ↦ nameOf info.root) := by
  unfold NsState.rootName nameOf
  cases st.storageServers[i]? with
  | none => rfl
  | some info => cases h : exportedFolder info.root <;> simp [h]

/-- The name `name` is none of `roots`, and all of them can be compared with it. -/
def Fresh (name : Option Text) (roots : List TrieNode) : Prop :=
  ∀ root ∈ roots, name ≠ none ∧ nameOf root ≠ none ∧ nameOf root ≠ name

private theorem findRedundancy_cons {name : Option Text} {root : TrieNode} {rest : List TrieNode}
    {i : Nat} {found : Option Nat} (h : findRedundancy name (root :: rest) i = some found) :
    name ≠ none ∧ nameOf root ≠ none ∧
      ((nameOf root = name ∧ found = some i) ∨
        (nameOf root ≠ name ∧ findRedundancy name rest (i + 1) = some found)) := by
  unfold findRedundancy at h
  simp only [Option.bind_eq_bind, Option.bind_eq_some_iff] at h
  obtain ⟨a, rfl, other, hother, h⟩ := h
  have hname : nameOf root = some other.data := by simp [nameOf, hother]
  rw [hname]
  refine ⟨by simp, by simp, ?_⟩
  split at h
  · next heq =>
    cases h
    exact .inl ⟨by rw [heq], rfl⟩
  · next hne => exact .inr ⟨by simpa [eq_comm] using hne, h⟩

private theorem findRedundancy_some {name : Option Text} {roots : List TrieNode} {i k : Nat}
    (h : findRedundancy name roots i = some (some k)) :
    ∃ j root, k = i + j ∧ roots[j]? = some root ∧ nameOf root = name := by
  induction roots generalizing i with
  | nil => cases h
  | cons root rest ih =>
    obtain ⟨-, -, ⟨hname, hk⟩ | ⟨-, hrest⟩⟩ := findRedundancy_cons h
    · cases hk
      exact ⟨0, root, rfl, rfl, hname⟩
    · obtain ⟨j, root', rfl, hroot, hname⟩ := ih hrest
      exact ⟨j + 1, root', by omega, hroot, hname⟩

private theorem findRedundancy_none {name : Option Text} {roots : List TrieNode} {i : Nat}
    (h : findRedundancy name roots i = some none) : Fresh name roots := by
  induction roots generalizing i with
  | nil => simp [Fresh]
  | cons root rest ih =>
    obtain ⟨hsome, hroot, ⟨-, hk⟩ | ⟨hne, hrest⟩⟩ := findRedundancy_cons h
    · cases hk
    · simp only [Fresh, List.mem_cons, forall_eq_or_imp]
      exact ⟨⟨hsome, hroot, hne⟩, ih hrest⟩

/-! ### One registration -/

/-- The entry `i` with the data of a server that comes back. -/
def NsState.revive (st : NsState) (i : Nat) (r : Registration) : NsState :=
  st.modifyServer i (fun info ↦
    { info with isUp := true, socket := r.socket, ip := r.ip, portClient := r.portClient })

/-- The table with a new entry behind the others. -/
def NsState.push (st : NsState) (info : StorageServerInfo) : NsState :=
  { st with storageServers := st.storageServers ++ [info] }

/-- What a completed registration can do: take over a known entry, find the table full, or
append an entry, assign backups and request their copies. -/
inductive Registered (st : NsState) (r : Registration) : List NsEvent → NsState → Prop where
  | revived {i : Nat} {info : StorageServerInfo} : st.storageServers[i]? = some info →
      nameOf info.root = r.name → Registered st r [] (st.revive i r)
  | full : Fresh r.name st.roots → maxStorageServers ≤ st.storageServerIndex →
      Registered st r [] { st with storageServerIndex := st.storageServerIndex + 1 }
  | added {root : TrieNode} {st₁ : NsState} {tr : List NsEvent} : r.root = some root →
      Fresh r.name st.roots → st.storageServerIndex < maxStorageServers →
      st₁ = assignBackups (st.push ⟨r.socket, r.ip, r.portClient, root, none, none, true⟩)
        st.storageServerIndex →
      Exec (performAll ((backupCopies st.storageServerIndex).map
        (fun c ↦ createBackupHelper st₁ c.1 c.2))) tr (some ()) →
      Registered st r tr { st₁ with storageServerIndex := st.storageServerIndex + 1 }

theorem exec_register {st st' : NsState} {r : Registration} {tr : List NsEvent}
    (h : Exec (r.register st) tr (some st')) : Registered st r tr st' := by
  unfold Registration.register registerStorageServer at h
  obtain ⟨-, -, hout⟩ | ⟨⟨root, finished⟩, hi, h₁⟩ := exec_ofOption_bind.mp h
  · cases hout
  have hroot : r.root = some root := by simp [Registration.root, hi]
  have hname : r.name = nameOf root := by simp [Registration.name, hroot]
  obtain ⟨-, -, hout⟩ | ⟨found, hfound, h₂⟩ := exec_ofOption_bind.mp h₁
  · cases hout
  change findRedundancy (nameOf root) st.roots 0 = some found at hfound
  rw [← hname] at hfound
  cases found with
  | some k =>
    obtain ⟨rfl, hst⟩ := h₂
    cases hst
    obtain ⟨j, other, rfl, hother, hsame⟩ := findRedundancy_some hfound
    rw [NsState.roots, List.getElem?_map, Option.map_eq_some_iff] at hother
    obtain ⟨info, hinfo, rfl⟩ := hother
    rw [Nat.zero_add]
    exact .revived hinfo hsame
  | none =>
    have hfresh := findRedundancy_none hfound
    simp only at h₂
    split at h₂
    · next hfull =>
      obtain ⟨rfl, hst⟩ := h₂
      cases hst
      exact .full hfresh hfull
    · next hroom =>
      obtain ⟨_, t₁, t₂, rfl, hx, rfl, hst⟩ := exec_bind_some h₂
      cases hst
      rw [List.append_nil]
      exact .added hroot hfresh (Nat.lt_of_not_le hroom) rfl hx

/-! ### Copies -/

/-- The command that asks for a copy of the whole folder `source` into the backups of the
server named `dest`, at the given address. -/
def copyRequest (source dest ip : Text) (port : Nat) : Text :=
  lit "copydifferent ./" ++ source ++ lit " " ++ backupFolder ++ lit "/" ++ dest ++ lit " " ++ ip ++
    lit " " ++ decimal port

private theorem eq_of_clip_append {s t : Text}
    (h : (clip bufferSize s).length + (clip bufferSize t).length + 1 < bufferSize) :
    clip bufferSize s = s ∧ clip bufferSize t = t := by
  simp only [clip, List.length_take] at h
  constructor
  · exact List.take_of_length_le (by omega)
  · exact List.take_of_length_le (by omega)

/-- A completed copy for a backup has asked the source for it: a request that does not fit
its buffer would not have completed. -/
private theorem exec_createBackupHelper {st : NsState} {source dest : Nat} {tr : List NsEvent}
    (h : Exec (createBackupHelper st source dest) tr (some ())) :
    ∃ src dst ok, st.rootName source = some src ∧ st.rootName dest = some dst ∧
      (⟨.forward source (copyRequest src dst (st.ip dest) (st.portClient dest)), ok⟩ : NsEvent) ∈
        tr := by
  unfold createBackupHelper at h
  obtain ⟨-, -, hout⟩ | ⟨dst, hdst, h₁⟩ := exec_ofOption_bind.mp h
  · cases hout
  obtain ⟨_, rest, rfl, h₂⟩ := exec_replicate.mp h₁
  obtain ⟨-, -, hout⟩ | ⟨src, hsrc, h₃⟩ := exec_ofOption_bind.mp h₂
  · cases hout
  generalize hs : lit "copy ./" ++ src ++ lit " " ++ backupFolder ++ lit "/" ++ dst = s at h₃
  have hverb : startsWith (lit "lcopy") (clip bufferSize s) = false := by
    subst hs
    rfl
  unfold handleBackupCopy at h₃
  simp only [hverb, Bool.false_eq_true, if_false] at h₃
  split at h₃
  · next hfits =>
    obtain ⟨ok, rest', rfl, -⟩ := exec_forward.mp h₃
    refine ⟨src, dst, ok, hsrc, hdst, ?_⟩
    have hlen : 4 ≤ (clip bufferSize s).length := by
      subst hs
      simp [clip, bufferSize, lit]
    simp only [List.length_append, List.length_drop, receiverAddress] at hfits
    obtain ⟨hc, ha⟩ := eq_of_clip_append (s := s) (t := lit " " ++ st.ip dest ++ lit " " ++
      decimal (st.portClient dest)) (by simp [lit] at hfits ⊢; omega)
    have hmsg : lit "copydifferent" ++ (clip bufferSize s).drop 4 ++ receiverAddress st dest =
        copyRequest src dst (st.ip dest) (st.portClient dest) := by
      rw [hc, receiverAddress, ha, ← hs]
      simp [copyRequest, lit]
    rw [hmsg]
    simp
  · cases h₃.2

/-- A copy of all of server `i` to the backup `b` was requested, at an address that a server
of that name has registered with. -/
def CopyRequested (rs : List Registration) (log : List NsEvent) (st : NsState) (i b : Nat) :
    Prop :=
  ∃ src dst ok, st.rootName i = some src ∧ st.rootName b = some dst ∧
    ∃ r ∈ rs, r.name = some dst ∧
      (⟨.forward i (copyRequest src dst r.ip r.portClient), ok⟩ : NsEvent) ∈ log

private theorem exec_performAll_mem {ps : List (NsProg Unit)} {tr : List NsEvent}
    (h : Exec (performAll ps) tr (some ())) {p : NsProg Unit} (hp : p ∈ ps) :
    ∃ t, Exec p t (some ()) ∧ ∀ e ∈ t, e ∈ tr := by
  induction ps generalizing tr with
  | nil => cases hp
  | cons q ps ih =>
    obtain ⟨_, t₁, t₂, rfl, h₁, h₂⟩ := exec_bind_some h
    obtain rfl | hp := List.mem_cons.mp hp
    · exact ⟨t₁, h₁, fun e he ↦ List.mem_append_left _ he⟩
    · obtain ⟨t, ht, hsub⟩ := ih h₂ hp
      exact ⟨t, ht, fun e he ↦ List.mem_append_right _ (hsub e he)⟩

/-! ### Backups -/

/-- The backups of entry `i` once there are three servers, `naming_server.c:191–210`. -/
def backupsOf : Nat → Nat × Nat
  | 0 => (1, 2)
  | 1 => (0, 2)
  | 2 => (0, 1)
  | i => (i - 1, i - 2)

private theorem backupsOf_of_lt {i : Nat} (h : 2 < i) : backupsOf i = (i - 1, i - 2) := by
  unfold backupsOf
  split <;> first | omega | rfl

/-- The two backups of an entry are other entries, registered before it or among the first
three. -/
theorem backupsOf_spec (i : Nat) :
    i ≠ (backupsOf i).1 ∧ i ≠ (backupsOf i).2 ∧ (backupsOf i).1 ≠ (backupsOf i).2 ∧
      (backupsOf i).1 < max 3 i ∧ (backupsOf i).2 < max 3 i := by
  obtain rfl | rfl | rfl | hi : i = 0 ∨ i = 1 ∨ i = 2 ∨ 2 < i := by omega
  · decide
  · decide
  · decide
  · rw [backupsOf_of_lt hi]
    simp only
    omega

/-- The registration of entry `n` assigns the backups of entry `i`. -/
def Assigns (n i : Nat) : Prop := (n = 2 ∧ i < 3) ∨ (2 < n ∧ i = n)

/-- Whenever an entry's backups are assigned, the copies to both of them are started. -/
theorem Assigns.copies {n i : Nat} (h : Assigns n i) :
    (i, (backupsOf i).1) ∈ backupCopies n ∧ (i, (backupsOf i).2) ∈ backupCopies n := by
  obtain ⟨rfl, hi⟩ | ⟨hn, rfl⟩ := h
  · obtain rfl | rfl | rfl : i = 0 ∨ i = 1 ∨ i = 2 := by omega
    · decide
    · decide
    · decide
  · rw [backupsOf_of_lt hn]
    simp [backupCopies, hn, show i ≠ 2 by omega]

private theorem getElem?_setBackups (st : NsState) (j b₁ b₂ i : Nat) :
    (st.setBackups j b₁ b₂).storageServers[i]? = st.storageServers[i]?.map (fun info ↦
      if j = i then { info with backupServer1 := some b₁, backupServer2 := some b₂ }
      else info) := by
  simp only [NsState.setBackups, NsState.modifyServer, List.getElem?_modify]
  cases st.storageServers[i]? with
  | none => rfl
  | some info => by_cases hij : j = i <;> simp [hij]

/-- What becomes of an entry when backups are assigned. -/
private theorem assignBackups_getElem? {st : NsState} {n i : Nat} {info : StorageServerInfo}
    (h : (assignBackups st n).storageServers[i]? = some info) :
    ∃ old, st.storageServers[i]? = some old ∧ info.root = old.root ∧ info.ip = old.ip ∧
      info.portClient = old.portClient ∧
      ((Assigns n i ∧ info.backupServer1 = some (backupsOf i).1 ∧
          info.backupServer2 = some (backupsOf i).2) ∨
        (¬ Assigns n i ∧ info.backupServer1 = old.backupServer1 ∧
          info.backupServer2 = old.backupServer2)) := by
  unfold assignBackups at h
  split at h
  · next hn =>
    simp only [getElem?_setBackups, Option.map_map, Option.map_eq_some_iff] at h
    obtain ⟨old, hold, rfl⟩ := h
    refine ⟨old, hold, ?_⟩
    obtain rfl | rfl | rfl | hi : i = 0 ∨ i = 1 ∨ i = 2 ∨ 2 < i := by omega
    · simp [Assigns, hn, backupsOf]
    · simp [Assigns, hn, backupsOf]
    · simp [Assigns, hn, backupsOf]
    · simp [Assigns, hn, show ¬ i < 3 by omega, show 0 ≠ i by omega, show 1 ≠ i by omega,
        show 2 ≠ i by omega]
  · split at h
    · next hn hn' =>
      rw [getElem?_setBackups, Option.map_eq_some_iff] at h
      obtain ⟨old, hold, rfl⟩ := h
      refine ⟨old, hold, ?_⟩
      by_cases hi : n = i
      · subst hi
        simp [Assigns, hn', backupsOf_of_lt hn']
      · simp [Assigns, hn, hi, Ne.symm hi]
    · next hn hn' =>
      refine ⟨info, h, rfl, rfl, rfl, .inr ⟨?_, rfl, rfl⟩⟩
      simp [Assigns, hn, hn']

/-- Assigning backups changes nothing else in an entry, and nothing at all in an entry that gets
none. -/
theorem entry_assignBackups {st : NsState} {n i : Nat} {info : StorageServerInfo}
    (h : (assignBackups st n).storageServers[i]? = some info) :
    ∃ old, st.storageServers[i]? = some old ∧
      info = { old with
        backupServer1 := info.backupServer1, backupServer2 := info.backupServer2 } ∧
      (¬ Assigns n i → info = old) := by
  unfold assignBackups at h
  split at h
  · next hn =>
    simp only [getElem?_setBackups, Option.map_map, Option.map_eq_some_iff] at h
    obtain ⟨old, hold, rfl⟩ := h
    refine ⟨old, hold, ?_, fun hnot ↦ ?_⟩
    · simp only [Function.comp_apply]
      split_ifs <;> rfl
    · have hi : 3 ≤ i := by
        unfold Assigns at hnot
        omega
      simp [show 0 ≠ i by omega, show 1 ≠ i by omega, show 2 ≠ i by omega]
  · split at h
    · next hn hn' =>
      rw [getElem?_setBackups, Option.map_eq_some_iff] at h
      obtain ⟨old, hold, rfl⟩ := h
      refine ⟨old, hold, by split_ifs <;> rfl, fun hnot ↦ if_neg ?_⟩
      rintro rfl
      exact hnot (.inr ⟨hn', rfl⟩)
    · exact ⟨info, h, rfl, fun _ ↦ rfl⟩

/-! ### The table after registrations -/

/-- The backups that belong to entry `i` of a table with `n` entries. -/
def assigned (n i : Nat) : Option Nat × Option Nat :=
  if 3 ≤ n then (some (backupsOf i).1, some (backupsOf i).2) else (none, none)

/-- What holds after every sequence of registrations under at most `MAX_STORAGE_SERVERS`
names. -/
structure Topology (rs : List Registration) (log : List NsEvent) (st : NsState) : Prop where
  length : st.storageServers.length = st.storageServerIndex
  nodup : st.names.Nodup
  named : 2 ≤ st.storageServerIndex → none ∉ st.names
  known : ∀ (i : Nat) (info : StorageServerInfo), st.storageServers[i]? = some info →
    ∃ r ∈ rs, r.name = nameOf info.root ∧ r.ip = info.ip ∧ r.portClient = info.portClient
  backups : ∀ (i : Nat) (info : StorageServerInfo), st.storageServers[i]? = some info →
    (info.backupServer1, info.backupServer2) = assigned st.storageServerIndex i
  requested : 3 ≤ st.storageServerIndex → ∀ i < st.storageServerIndex,
    CopyRequested rs log st i (backupsOf i).1 ∧ CopyRequested rs log st i (backupsOf i).2

section Names

variable {rs : List Registration} {log : List NsEvent} {st : NsState} {r : Registration}

theorem mem_names {name : Option Text} : name ∈ st.names ↔
    ∃ (i : Nat) (info : StorageServerInfo), st.storageServers[i]? = some info ∧
      nameOf info.root = name := by
  simp [NsState.names, NsState.roots, List.mem_iff_getElem?]

theorem Topology.names_subset (h : Topology rs log st) :
    st.names ⊆ rs.map Registration.name := by
  intro name hname
  obtain ⟨i, info, hinfo, rfl⟩ := mem_names.mp hname
  obtain ⟨r, hr, hrname, -⟩ := h.known i info hinfo
  exact List.mem_map.mpr ⟨r, hr, hrname⟩

theorem Fresh.notMem_names (hf : Fresh r.name st.roots) : r.name ∉ st.names := by
  intro hmem
  obtain ⟨root, hroot, hname⟩ := List.mem_map.mp hmem
  exact (hf root hroot).2.2 hname

theorem Topology.length_names (h : Topology rs log st) :
    st.names.length = st.storageServerIndex := by
  simpa [NsState.names, NsState.roots] using h.length

/-- A new name leaves room in the table, as long as there are not too many names. -/
private theorem Topology.lt_max (h : Topology rs log st) (hf : Fresh r.name st.roots)
    (hcard : ((rs ++ [r]).map Registration.name).toFinset.card ≤ maxStorageServers) :
    st.storageServerIndex < maxStorageServers := by
  have hnodup : (r.name :: st.names).Nodup := List.nodup_cons.mpr ⟨hf.notMem_names, h.nodup⟩
  have hsub : (r.name :: st.names).toFinset ⊆ ((rs ++ [r]).map Registration.name).toFinset := by
    intro name hname
    obtain rfl | hname := List.mem_cons.mp (List.mem_toFinset.mp hname)
    · simp
    · have := h.names_subset hname
      simp only [List.mem_toFinset, List.map_append, List.mem_append]
      exact .inl this
  have hlen : (r.name :: st.names).toFinset.card = st.storageServerIndex + 1 := by
    rw [List.toFinset_card_of_nodup hnodup, List.length_cons, h.length_names]
  have := Finset.card_le_card hsub
  omega

theorem CopyRequested.mono {tr : List NsEvent} {i b : Nat} {st' : NsState}
    (h : CopyRequested rs log st i b) (hi : st'.rootName i = st.rootName i)
    (hb : st'.rootName b = st.rootName b) : CopyRequested (rs ++ [r]) (log ++ tr) st' i b := by
  obtain ⟨src, dst, ok, hsrc, hdst, r', hr', hname, hmem⟩ := h
  exact ⟨src, dst, ok, hi.trans hsrc, hb.trans hdst, r', List.mem_append_left _ hr', hname,
    List.mem_append_left _ hmem⟩

end Names

private theorem Topology.start : Topology [] [] NsState.initial where
  length := rfl
  nodup := List.nodup_nil
  named := by simp [NsState.initial]
  known := by simp [NsState.initial]
  backups := by simp [NsState.initial]
  requested := by simp [NsState.initial]

/-! ### Servers that come back -/

theorem getElem?_revive {st : NsState} {i j : Nat} {r : Registration}
    {info : StorageServerInfo} (h : (st.revive i r).storageServers[j]? = some info) :
    ∃ old, st.storageServers[j]? = some old ∧ info.root = old.root ∧
      info.backupServer1 = old.backupServer1 ∧ info.backupServer2 = old.backupServer2 ∧
      ((i = j ∧ info.ip = r.ip ∧ info.portClient = r.portClient) ∨
        (info.ip = old.ip ∧ info.portClient = old.portClient)) := by
  simp only [NsState.revive, NsState.modifyServer, List.getElem?_modify, Option.map_eq_map,
    Option.map_eq_some_iff] at h
  obtain ⟨old, hold, rfl⟩ := h
  refine ⟨old, hold, ?_⟩
  by_cases hij : i = j
  · simp [hij]
  · simp [hij]

theorem roots_revive (st : NsState) (i : Nat) (r : Registration) :
    (st.revive i r).roots = st.roots := by
  apply roots_modifyServer_of
  intro info
  rfl

theorem names_revive (st : NsState) (i : Nat) (r : Registration) :
    (st.revive i r).names = st.names := by
  rw [NsState.names, roots_revive, NsState.names]

/-- The name of entry `i`, from the list of names. -/
theorem NsState.rootName_eq_names (st : NsState) (i : Nat) :
    st.rootName i = st.names[i]?.join := by
  rw [NsState.rootName_eq, NsState.names, NsState.roots, List.map_map, List.getElem?_map]
  cases st.storageServers[i]? <;> rfl

private theorem Topology.revived {rs : List Registration} {log : List NsEvent} {st : NsState}
    {r : Registration} {i : Nat} {known : StorageServerInfo} (h : Topology rs log st)
    (hi : st.storageServers[i]? = some known) (hname : nameOf known.root = r.name) :
    Topology (rs ++ [r]) (log ++ []) (st.revive i r) where
  length := by simpa [NsState.revive, NsState.modifyServer] using h.length
  nodup := by simpa [names_revive] using h.nodup
  named := by
    intro hn
    rw [names_revive]
    exact h.named hn
  known := by
    intro j info hj
    obtain ⟨old, hold, hroot, -, -, ⟨rfl, hip, hport⟩ | ⟨hip, hport⟩⟩ := getElem?_revive hj
    · refine ⟨r, by simp, ?_, hip.symm, hport.symm⟩
      rw [hold] at hi
      cases hi
      rw [hroot, hname]
    · obtain ⟨r', hr', hname', hip', hport'⟩ := h.known j old hold
      exact ⟨r', List.mem_append_left _ hr', by rw [hroot, hname'], by rw [hip', hip],
        by rw [hport', hport]⟩
  backups := by
    intro j info hj
    obtain ⟨old, hold, -, hb₁, hb₂, -⟩ := getElem?_revive hj
    rw [hb₁, hb₂]
    exact h.backups j old hold
  requested := by
    have hroot : ∀ j, (st.revive i r).rootName j = st.rootName j := by
      intro j
      rw [NsState.rootName_eq_names, names_revive, NsState.rootName_eq_names]
    intro hn j hj
    obtain ⟨h₁, h₂⟩ := h.requested hn j hj
    exact ⟨h₁.mono (hroot j) (hroot _), h₂.mono (hroot j) (hroot _)⟩

/-! ### New servers -/

section Added

variable {rs : List Registration} {log tr : List NsEvent} {st : NsState} {r : Registration}
  {root : TrieNode}

/-- The table of a completed new registration, before the copies are requested. -/
def NsState.added (st : NsState) (r : Registration) (root : TrieNode) : NsState :=
  assignBackups (st.push ⟨r.socket, r.ip, r.portClient, root, none, none, true⟩) st.storageServerIndex

theorem roots_added (st : NsState) (r : Registration) (root : TrieNode) :
    (st.added r root).roots = st.roots ++ [root] := by
  rw [NsState.added, (assignBackups_spec _ _).1]
  simp [NsState.push, NsState.roots]

theorem names_added (hroot : r.root = some root) :
    (st.added r root).names = st.names ++ [r.name] := by
  simp [NsState.names, roots_added, Registration.name, hroot]

theorem length_added (hlength : st.storageServers.length = st.storageServerIndex)
    (r : Registration) (root : TrieNode) :
    (st.added r root).storageServers.length = st.storageServerIndex + 1 := by
  have := congrArg List.length (roots_added st r root)
  simpa [NsState.roots, hlength] using this

private theorem Topology.known_added (h : Topology rs log st) (hroot : r.root = some root)
    {i : Nat} {info : StorageServerInfo}
    (hi : (st.added r root).storageServers[i]? = some info) :
    ∃ r' ∈ rs ++ [r], r'.name = nameOf info.root ∧ r'.ip = info.ip ∧
      r'.portClient = info.portClient := by
  obtain ⟨old, hold, hsame, hip, hport, -⟩ := assignBackups_getElem? hi
  rw [hsame, hip, hport]
  obtain hmem | hmem := List.mem_append.mp (List.mem_of_getElem? hold)
  · obtain ⟨j, hj⟩ := List.mem_iff_getElem?.mp hmem
    obtain ⟨r', hr', hrest⟩ := h.known j old hj
    exact ⟨r', List.mem_append_left _ hr', hrest⟩
  · cases List.mem_singleton.mp hmem
    exact ⟨r, by simp, by simp [Registration.name, hroot], rfl, rfl⟩

/-- A new entry, and with the third one the first two, get their backups. -/
theorem backups_added (hlength : st.storageServers.length = st.storageServerIndex)
    (hbackups : ∀ (i : Nat) (info : StorageServerInfo), st.storageServers[i]? = some info →
      (info.backupServer1, info.backupServer2) = assigned st.storageServerIndex i) {i : Nat}
    {info : StorageServerInfo} (hi : (st.added r root).storageServers[i]? = some info) :
    (info.backupServer1, info.backupServer2) = assigned (st.storageServerIndex + 1) i := by
  have hlt : i < st.storageServerIndex + 1 := by
    rw [← length_added hlength r root]
    exact (List.getElem?_eq_some_iff.mp hi).1
  obtain ⟨old, hold, -, -, -, ⟨hassigns, hb₁, hb₂⟩ | ⟨hnot, hb₁, hb₂⟩⟩ :=
    assignBackups_getElem? hi
  · have hn : 3 ≤ st.storageServerIndex + 1 := by
      obtain ⟨hn, -⟩ | ⟨hn, -⟩ := hassigns <;> omega
    rw [hb₁, hb₂, assigned, if_pos hn]
  · rw [hb₁, hb₂]
    simp only [NsState.push, List.getElem?_append] at hold
    split at hold
    · next hold' =>
      rw [hbackups i old hold]
      have : 3 ≤ st.storageServerIndex + 1 ↔ 3 ≤ st.storageServerIndex := by
        rw [hlength] at hold'
        unfold Assigns at hnot
        omega
      simp only [assigned, this]
    · next hnew =>
      rw [hlength] at hnew hold
      obtain ⟨-, rfl⟩ : _ ∧ _ = old := by simpa [List.getElem?_singleton] using hold
      have : ¬ 3 ≤ st.storageServerIndex + 1 := by
        unfold Assigns at hnot
        omega
      simp [assigned, this]

/-- The copies of an entry whose backups are assigned now are requested now. -/
private theorem Topology.requested_now (h : Topology rs log st) (hroot : r.root = some root)
    (hx : Exec (performAll ((backupCopies st.storageServerIndex).map
      (fun c ↦ createBackupHelper (st.added r root) c.1 c.2))) tr (some ())) {i b : Nat}
    (hc : (i, b) ∈ backupCopies st.storageServerIndex) (hb : b < st.storageServerIndex + 1) :
    CopyRequested (rs ++ [r]) (log ++ tr) (st.added r root) i b := by
  obtain ⟨t, ht, hsub⟩ := exec_performAll_mem hx (List.mem_map.mpr ⟨(i, b), hc, rfl⟩)
  obtain ⟨src, dst, ok, hsrc, hdst, hmem⟩ := exec_createBackupHelper ht
  rw [← length_added h.length r root] at hb
  obtain ⟨info, hinfo⟩ : ∃ info, (st.added r root).storageServers[b]? = some info :=
    ⟨_, List.getElem?_eq_getElem hb⟩
  obtain ⟨r', hr', hname, hip, hport⟩ := h.known_added hroot hinfo
  refine ⟨src, dst, ok, hsrc, hdst, r', hr', ?_, List.mem_append_right _ (hsub _ ?_)⟩
  · rw [hname, ← hdst, NsState.rootName_eq, hinfo, Option.bind_some]
  · have hip' : (st.added r root).ip b = r'.ip := by simp [NsState.ip, hinfo, hip]
    have hport' : (st.added r root).portClient b = r'.portClient := by
      simp [NsState.portClient, hinfo, hport]
    rw [hip', hport'] at hmem
    exact hmem

private theorem Topology.requested_added (h : Topology rs log st) (hroot : r.root = some root)
    (hx : Exec (performAll ((backupCopies st.storageServerIndex).map
      (fun c ↦ createBackupHelper (st.added r root) c.1 c.2))) tr (some ()))
    (hn : 3 ≤ st.storageServerIndex + 1) {i : Nat} (hi : i < st.storageServerIndex + 1) :
    CopyRequested (rs ++ [r]) (log ++ tr) (st.added r root) i (backupsOf i).1 ∧
      CopyRequested (rs ++ [r]) (log ++ tr) (st.added r root) i (backupsOf i).2 := by
  obtain ⟨-, -, -, hb₁, hb₂⟩ := backupsOf_spec i
  by_cases hassigns : Assigns st.storageServerIndex i
  · obtain ⟨hc₁, hc₂⟩ := hassigns.copies
    exact ⟨h.requested_now hroot hx hc₁ (by omega), h.requested_now hroot hx hc₂ (by omega)⟩
  · have hold : 3 ≤ st.storageServerIndex ∧ i < st.storageServerIndex := by
      unfold Assigns at hassigns
      omega
    have hname : ∀ j < st.storageServerIndex, (st.added r root).rootName j = st.rootName j := by
      intro j hj
      rw [NsState.rootName_eq_names, names_added hroot, NsState.rootName_eq_names,
        List.getElem?_append_left (by rwa [h.length_names])]
    obtain ⟨h₁, h₂⟩ := h.requested hold.1 i hold.2
    exact ⟨h₁.mono (hname i hold.2) (hname _ (by omega)),
      h₂.mono (hname i hold.2) (hname _ (by omega))⟩

private theorem Topology.added (h : Topology rs log st) (hroot : r.root = some root)
    (hf : Fresh r.name st.roots)
    (hx : Exec (performAll ((backupCopies st.storageServerIndex).map
      (fun c ↦ createBackupHelper (st.added r root) c.1 c.2))) tr (some ())) :
    Topology (rs ++ [r]) (log ++ tr)
      { st.added r root with storageServerIndex := st.storageServerIndex + 1 } where
  length := length_added h.length r root
  nodup := by
    change (st.added r root).names.Nodup
    rw [names_added hroot, List.nodup_append]
    refine ⟨h.nodup, List.nodup_singleton _, ?_⟩
    intro a ha b hb hab
    cases List.mem_singleton.mp hb
    exact hf.notMem_names (hab ▸ ha)
  named := by
    intro hn
    change none ∉ (st.added r root).names
    have hsome : ∃ n, n ∈ st.roots := by
      apply List.exists_mem_of_length_pos
      have hlen := h.length
      simp only [NsState.roots, List.length_map]
      simp only at hn
      omega
    obtain ⟨n, hmem⟩ := hsome
    rw [names_added hroot, List.mem_append, List.mem_singleton, NsState.names, List.mem_map]
    rintro (⟨n', hn', hname⟩ | hname)
    · exact (hf n' hn').2.1 hname
    · exact (hf n hmem).1 hname.symm
  known := fun _ _ hi ↦ h.known_added hroot hi
  backups := fun _ _ hi ↦ backups_added h.length h.backups hi
  requested := fun hn _ hi ↦ h.requested_added hroot hx hn hi

end Added

/-- One registration keeps the topology. -/
private theorem Topology.registered {rs : List Registration} {log tr : List NsEvent}
    {st st' : NsState} {r : Registration} (h : Topology rs log st)
    (hr : Registered st r tr st')
    (hcard : ((rs ++ [r]).map Registration.name).toFinset.card ≤ maxStorageServers) :
    Topology (rs ++ [r]) (log ++ tr) st' := by
  cases hr with
  | revived hi hname => exact h.revived hi hname
  | full hf hfull => exact absurd (h.lt_max hf hcard) (by omega)
  | added hroot hf _ hst hx =>
    subst hst
    exact h.added hroot hf hx

/-- Every sequence of registrations builds the topology. -/
theorem Registers.topology {rs : List Registration} {log : List NsEvent} {st : NsState}
    (h : Registers rs log st)
    (hcard : (rs.map Registration.name).toFinset.card ≤ maxStorageServers) :
    Topology rs log st := by
  induction h with
  | start => exact .start
  | next _ hx ih =>
    refine (ih (le_trans (Finset.card_le_card ?_) hcard)).registered (exec_register hx) hcard
    intro name hname
    simp only [List.map_append, List.toFinset_append, Finset.mem_union]
    exact .inl hname

/-! ### Failover -/

/-- The pings of `tr` are answered exactly by the servers outside of `down`. -/
def Reaches (down : Finset Nat) (tr : List NsEvent) : Prop :=
  ∀ (b : Nat) (res : PingResult), (⟨.ping b, res⟩ : NsEvent) ∈ tr → (res = .up ↔ b ∉ down)

/-- The first server of a list that is not `down`. -/
def firstUp (down : Finset Nat) (servers : List (Option Nat)) : Option Nat :=
  servers.reduceOption.find? (fun b ↦ decide (b ∉ down))

private theorem firstUp_cons (down : Finset Nat) (o : Option Nat) (rest : List (Option Nat)) :
    firstUp down (o :: rest) =
      if o.any (fun b ↦ decide (b ∉ down)) then o else firstUp down rest := by
  cases o with
  | none => rfl
  | some b =>
    unfold firstUp
    rw [List.reduceOption_cons_of_some, List.find?_cons]
    by_cases hb : b ∈ down <;> simp [hb]

private theorem exec_tryBackup_reaches {st : NsState} {backup : Option Nat}
    {down : Finset Nat} {tr : List NsEvent} {out : Option (Bool × NsState)}
    (h : Exec (redundantSs.tryBackup st backup) tr out) (hr : Reaches down tr) :
    ∃ st', out = some (backup.any (fun b ↦ decide (b ∉ down)), st') ∧
      st'.frozen = st.frozen := by
  cases backup with
  | none =>
    obtain ⟨-, rfl⟩ := h
    exact ⟨st, rfl, rfl⟩
  | some b =>
    obtain ⟨res, rest, rfl, rfl, rfl⟩ := exec_isSsUp.mp h
    refine ⟨st.afterPing b res, ?_, frozen_afterPing st b res⟩
    have hres := hr b res (by simp)
    simp only [Option.any_some, hres]

/-- If pings tell who is reachable, the first reachable one of a server and its backups is
picked. -/
theorem exec_redundantSs_reaches {st : NsState} {i : Nat} {down : Finset Nat}
    {tr : List NsEvent} {out : Option (Option Nat × NsState)}
    (h : Exec (redundantSs st i) tr out) (hr : Reaches down tr) :
    ∃ st', out = some (firstUp down [some i, st.backupServer1 i, st.backupServer2 i], st') := by
  have hpart : ∀ {t₁ t₂ : List NsEvent}, Reaches down (t₁ ++ t₂) →
      Reaches down t₁ ∧ Reaches down t₂ := fun hr ↦
    ⟨fun b res hmem ↦ hr b res (List.mem_append_left _ hmem),
      fun b res hmem ↦ hr b res (List.mem_append_right _ hmem)⟩
  unfold redundantSs at h
  -- The server itself is asked like a backup that is always assigned.
  change Exec (redundantSs.tryBackup st (some i) >>= _) tr out at h
  rw [firstUp_cons]
  obtain ⟨h₁, -⟩ | ⟨⟨up, st₁⟩, t₁, u₁, rfl, h₁, h'⟩ := exec_bind.mp h
  · obtain ⟨_, hout, -⟩ := exec_tryBackup_reaches h₁ hr
    cases hout
  obtain ⟨hr₁, hr'⟩ := hpart hr
  obtain ⟨_, hout, hf₁⟩ := exec_tryBackup_reaches h₁ hr₁
  cases hout
  simp only at h'
  split at h'
  · next hup =>
    obtain ⟨-, rfl⟩ := h'
    exact ⟨_, by rw [if_pos hup]⟩
  next hup =>
  rw [if_neg hup, firstUp_cons]
  rw [backupServer1_of_frozen hf₁] at h'
  obtain ⟨h₂, -⟩ | ⟨⟨up, st₂⟩, t₂, u₂, rfl, h₂, h'⟩ := exec_bind.mp h'
  · obtain ⟨_, hout, -⟩ := exec_tryBackup_reaches h₂ hr'
    cases hout
  obtain ⟨hr₂, hr'⟩ := hpart hr'
  obtain ⟨_, hout, hf₂⟩ := exec_tryBackup_reaches h₂ hr₂
  cases hout
  simp only at h'
  have hf₂ := hf₂.trans hf₁
  split at h'
  · next hup =>
    obtain ⟨-, rfl⟩ := h'
    exact ⟨_, by rw [if_pos hup, backupServer1_of_frozen hf₂]⟩
  next hup =>
  rw [if_neg hup, firstUp_cons]
  rw [backupServer2_of_frozen hf₂] at h'
  obtain ⟨h₃, -⟩ | ⟨⟨up, st₃⟩, t₃, u₃, rfl, h₃, h'⟩ := exec_bind.mp h'
  · obtain ⟨_, hout, -⟩ := exec_tryBackup_reaches h₃ hr'
    cases hout
  obtain ⟨_, hout, hf₃⟩ := exec_tryBackup_reaches h₃ (hpart hr').1
  cases hout
  simp only at h'
  have hf₃ := hf₃.trans hf₂
  split at h'
  · next hup =>
    obtain ⟨-, rfl⟩ := h'
    exact ⟨_, by rw [if_pos hup, backupServer2_of_frozen hf₃]⟩
  · next hup =>
    obtain ⟨-, rfl⟩ := h'
    exact ⟨_, by rw [if_neg hup]; rfl⟩

private theorem frozen_tryBackup {st st' : NsState} {backup : Option Nat} {up : Bool}
    {tr : List NsEvent} (h : Exec (redundantSs.tryBackup st backup) tr (some (up, st'))) :
    st'.frozen = st.frozen := by
  cases backup with
  | none =>
    obtain ⟨-, hout⟩ := h
    cases hout
    rfl
  | some b =>
    obtain ⟨r, rest, -, -, hout⟩ := exec_isSsUp.mp h
    cases hout
    exact frozen_afterPing st b r

/-- Whatever the pings tell, a server that is picked is the one asked for or a backup of it. -/
theorem exec_redundantSs_some {st st' : NsState} {i b : Nat} {tr : List NsEvent}
    (h : Exec (redundantSs st i) tr (some (some b, st'))) :
    b = i ∨ st.backupServer1 i = some b ∨ st.backupServer2 i = some b := by
  unfold redundantSs at h
  change Exec (redundantSs.tryBackup st (some i) >>= _) tr _ at h
  obtain ⟨⟨up, st₁⟩, t₁, u₁, rfl, h₁, h'⟩ := exec_bind_some h
  have hf₁ := frozen_tryBackup h₁
  simp only at h'
  split at h'
  · obtain ⟨-, hout⟩ := h'
    cases hout
    exact .inl rfl
  obtain ⟨⟨up, st₂⟩, t₂, u₂, rfl, h₂, h'⟩ := exec_bind_some h'
  have hf₂ := (frozen_tryBackup h₂).trans hf₁
  simp only at h'
  split at h'
  · obtain ⟨-, hout⟩ := h'
    rw [backupServer1_of_frozen hf₂] at hout
    exact .inr (.inl (Prod.mk.inj (Option.some.inj hout)).1.symm)
  obtain ⟨⟨up, st₃⟩, t₃, u₃, rfl, h₃, h'⟩ := exec_bind_some h'
  have hf₃ := (frozen_tryBackup h₃).trans hf₂
  simp only at h'
  split at h'
  · obtain ⟨-, hout⟩ := h'
    rw [backupServer2_of_frozen hf₃] at hout
    exact .inr (.inr (Prod.mk.inj (Option.some.inj hout)).1.symm)
  · obtain ⟨-, hout⟩ := h'
    cases hout

/-- Two unreachable servers are not all of three. -/
private theorem firstUp_of_card {down : Finset Nat} (hcard : down.card ≤ 2) {i b₁ b₂ : Nat}
    (h₁ : i ≠ b₁) (h₂ : i ≠ b₂) (h₁₂ : b₁ ≠ b₂) :
    ∃ b, firstUp down [some i, some b₁, some b₂] = some b ∧ b ∉ down := by
  cases h : firstUp down [some i, some b₁, some b₂] with
  | some b => exact ⟨b, rfl, by simpa using List.find?_some h⟩
  | none =>
    have hall : ∀ b ∈ [i, b₁, b₂], b ∈ down := by
      intro b hb
      simpa using List.find?_eq_none.mp h b hb
    have hsub : ({i, b₁, b₂} : Finset Nat) ⊆ down := by
      intro b hb
      apply hall
      simpa using hb
    have hthree : ({i, b₁, b₂} : Finset Nat).card = 3 := Finset.card_eq_three.mpr
      ⟨i, b₁, b₂, h₁, h₂, h₁₂, rfl⟩
    have := Finset.card_le_card hsub
    omega

private theorem Topology.backupServers {rs : List Registration} {log : List NsEvent}
    {st : NsState} (h : Topology rs log st) (i : Nat) (hi : i < st.storageServerIndex) :
    (st.backupServer1 i, st.backupServer2 i) = assigned st.storageServerIndex i := by
  rw [← h.length] at hi
  have hinfo := List.getElem?_eq_getElem hi
  rw [← h.backups i _ hinfo, NsState.backupServer1, NsState.backupServer2, hinfo]
  rfl

private theorem backupServers_of_le {st : NsState} {i : Nat}
    (h : st.storageServers.length ≤ i) :
    (st.backupServer1 i, st.backupServer2 i) = (none, none) := by
  simp [NsState.backupServer1, NsState.backupServer2, h]

theorem backupServers_revive (st : NsState) (i j : Nat) (r : Registration) :
    (st.revive i r).backupServer1 j = st.backupServer1 j ∧
      (st.revive i r).backupServer2 j = st.backupServer2 j := by
  simp only [NsState.backupServer1, NsState.backupServer2, NsState.revive, NsState.modifyServer,
    List.getElem?_modify]
  cases st.storageServers[j]? with
  | none => exact ⟨rfl, rfl⟩
  | some info => by_cases hij : i = j <;> simp [hij]

/-- Where clients find a server that has come back, and the others. -/
theorem address_revive {st : NsState} {i : Nat} {info : StorageServerInfo}
    (h : st.storageServers[i]? = some info) (r : Registration) (j : Nat) :
    (st.revive i r).ip j = (if j = i then r.ip else st.ip j) ∧
      (st.revive i r).portClient j = if j = i then r.portClient else st.portClient j := by
  simp only [NsState.ip, NsState.portClient, NsState.revive, NsState.modifyServer,
    List.getElem?_modify]
  by_cases hji : j = i
  · subst hji
    simp [h]
  · simp [hji, Ne.symm hji]

/-- The table after any registrations and re-registrations under at most
`MAX_STORAGE_SERVERS` names: the names are distinct; with fewer than three servers there are
no backups, from then on every server has two others, to both of which a copy of it was
requested; a server that comes back changes no assignment; and while at most two servers are
unreachable, `redundantSS` picks the first reachable one of a server and its backups. -/
theorem backup_topology {rs : List Registration} {log : List NsEvent} {st : NsState}
    (h : Registers rs log st)
    (hcard : (rs.map Registration.name).toFinset.card ≤ maxStorageServers) :
    (st.storageServers.length = st.storageServerIndex ∧ st.names.Nodup ∧
      (2 ≤ st.storageServerIndex → none ∉ st.names)) ∧
    (st.storageServerIndex < 3 → ∀ i, st.backupServer1 i = none ∧ st.backupServer2 i = none) ∧
    (3 ≤ st.storageServerIndex → ∀ i < st.storageServerIndex, ∃ b₁ b₂,
      st.backupServer1 i = some b₁ ∧ st.backupServer2 i = some b₂ ∧
      b₁ < st.storageServerIndex ∧ b₂ < st.storageServerIndex ∧ i ≠ b₁ ∧ i ≠ b₂ ∧ b₁ ≠ b₂ ∧
      CopyRequested rs log st i b₁ ∧ CopyRequested rs log st i b₂ ∧
      ∀ down : Finset Nat, down.card ≤ 2 → ∀ tr out, Exec (redundantSs st i) tr out →
        Reaches down tr → ∃ b st', out = some (some b, st') ∧ b ∉ down ∧
          firstUp down [some i, some b₁, some b₂] = some b) ∧
    (∀ (r : Registration) (tr : List NsEvent) (st' : NsState), r.name ∈ st.names →
      Exec (r.register st) tr (some st') → st'.storageServerIndex = st.storageServerIndex ∧
        ∀ i, st'.backupServer1 i = st.backupServer1 i ∧
          st'.backupServer2 i = st.backupServer2 i) := by
  have ht := h.topology hcard
  refine ⟨⟨ht.length, ht.nodup, ht.named⟩, ?_, ?_, ?_⟩
  · intro hn i
    by_cases hi : i < st.storageServerIndex
    · have hb := ht.backupServers i hi
      rw [assigned, if_neg (by omega)] at hb
      exact Prod.mk.inj hb
    · exact Prod.mk.inj (backupServers_of_le (by rw [ht.length]; omega))
  · intro hn i hi
    have hb := ht.backupServers i hi
    rw [assigned, if_pos hn] at hb
    obtain ⟨hb₁, hb₂⟩ := Prod.mk.inj hb
    obtain ⟨hne₁, hne₂, hne, hlt₁, hlt₂⟩ := backupsOf_spec i
    obtain ⟨hreq₁, hreq₂⟩ := ht.requested hn i hi
    refine ⟨_, _, hb₁, hb₂, by omega, by omega, hne₁, hne₂, hne, hreq₁, hreq₂, ?_⟩
    intro down hdown tr out hx hr
    obtain ⟨st', rfl⟩ := exec_redundantSs_reaches hx hr
    rw [hb₁, hb₂]
    obtain ⟨b, hfirst, hup⟩ := firstUp_of_card hdown hne₁ hne₂ hne
    exact ⟨b, st', by rw [hfirst], hup, hfirst⟩
  · intro r tr st' hknown hx
    cases exec_register hx with
    | revived _ _ => exact ⟨rfl, fun j ↦ backupServers_revive st _ j r⟩
    | full hf _ => exact absurd hknown hf.notMem_names
    | added _ hf _ _ _ => exact absurd hknown hf.notMem_names

/-- Registrations one after the other. -/
def registerAll : List Registration → NsState → NsProg NsState
  | [], st => pure st
  | r :: rs, st => do
    let st ← r.register st
    registerAll rs st

theorem registers_of_registerAll {rs rs' : List Registration} {log tr : List NsEvent}
    {st st' : NsState} (h : Registers rs log st)
    (hx : Exec (registerAll rs' st) tr (some st')) : Registers (rs ++ rs') (log ++ tr) st' := by
  induction rs' generalizing rs log tr st with
  | nil =>
    obtain ⟨rfl, hst⟩ := hx
    cases hst
    simpa using h
  | cons r rs' ih =>
    obtain ⟨st₁, t₁, t₂, rfl, h₁, h₂⟩ := exec_bind_some hx
    simpa using ih (h.next h₁) h₂

/-- Three servers, the second of which comes back under another address. -/
def fourRegistrations : List Registration :=
  [⟨4, lit "10.0.0.1", 4000, [lit "./s\n@!-Finished Indexing-!@\n"]⟩,
    ⟨5, lit "10.0.0.2", 4001, [lit "./t\n@!-Finished Indexing-!@\n"]⟩,
    ⟨6, lit "10.0.0.3", 4002, [lit "./u\n@!-Finished Indexing-!@\n"]⟩,
    ⟨7, lit "10.0.0.4", 4003, [lit "./t\n@!-Finished Indexing-!@\n"]⟩]

/-- After four registrations of three servers, a copy of the second one was requested for the
first. -/
theorem backup_topology_of_three :
    ∃ rs log st, Registers rs log st ∧ rs.length = 4 ∧ st.storageServerIndex = 3 ∧
      st.names.Nodup ∧ ∃ b₁, st.backupServer1 1 = some b₁ ∧ CopyRequested rs log st 1 b₁ := by
  have hrun : ((registerAll fourRegistrations .initial).runWith agreeable).2.map
      NsState.storageServerIndex = some 3 := by
    decide +kernel
  obtain ⟨st, hst, hthree⟩ := Option.map_eq_some_iff.mp hrun
  have hx := exec_runWith agreeable (registerAll fourRegistrations .initial)
  rw [hst] at hx
  have hreg := registers_of_registerAll .start hx
  obtain ⟨⟨-, hnodup, -⟩, -, hbackups, -⟩ := backup_topology hreg (by decide +kernel)
  obtain ⟨b₁, _, hb₁, -, -, -, -, -, -, hcopy, -⟩ := hbackups (by omega) 1 (by omega)
  exact ⟨_, _, st, hreg, rfl, hthree, hnodup, b₁, hb₁, hcopy⟩

end NetworkFileSystem.Naming
