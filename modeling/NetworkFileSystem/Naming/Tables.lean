import NetworkFileSystem.Base.Transition
import NetworkFileSystem.Naming.Topology

/-!
# The table of servers in every run

`naming_server.c:38–41,127–221,356–363,739–753`. Client commands and write notifications
change tries, flags and the cache; addresses, backups and the counter of the table are
those of the registrations. The counter goes on counting behind the last entry, so it fits
the table exactly as long as the registered root names do.
-/

namespace NetworkFileSystem.Naming

open Base Protocol Trie Prog

/-! ### What commands leave alone -/

/-- What the table says about a server besides its trie and whether it is up. -/
def StorageServerInfo.record (info : StorageServerInfo) : Text × Nat × Option Nat × Option Nat :=
  (info.ip, info.portClient, info.backupServer1, info.backupServer2)

/-- The records of the table and its counter. -/
def NsState.skeleton (st : NsState) : List (Text × Nat × Option Nat × Option Nat) × Nat :=
  (st.storageServers.map StorageServerInfo.record, st.storageServerIndex)

theorem skeleton_of_frozen {st st' : NsState} (h : st'.frozen = st.frozen) :
    st'.skeleton = st.skeleton := by
  have hskel : ∀ s : NsState, s.skeleton = (s.frozen.1.map StorageServerInfo.record, s.frozen.2) := by
    intro s
    simp only [NsState.skeleton, NsState.frozen, List.map_map, Prod.mk.injEq, and_true]
    rfl
  rw [hskel, hskel, h]

theorem ip_of_skeleton {st st' : NsState} (h : st'.skeleton = st.skeleton) (i : Nat) :
    st'.ip i = st.ip i := by
  have hip : ∀ s : NsState, s.ip i = (s.skeleton.1[i]?.map Prod.fst).getD [] := by
    intro s
    rw [NsState.ip, NsState.skeleton, List.getElem?_map]
    cases s.storageServers[i]? <;> rfl
  rw [hip, hip, h]

theorem portClient_of_skeleton {st st' : NsState} (h : st'.skeleton = st.skeleton) (i : Nat) :
    st'.portClient i = st.portClient i := by
  have hport : ∀ s : NsState,
      s.portClient i = (s.skeleton.1[i]?.map (fun record ↦ record.2.1)).getD 0 := by
    intro s
    rw [NsState.portClient, NsState.skeleton, List.getElem?_map]
    cases s.storageServers[i]? <;> rfl
  rw [hport, hport, h]

theorem backupServers_of_skeleton {st st' : NsState} (h : st'.skeleton = st.skeleton) (i : Nat) :
    st'.backupServer1 i = st.backupServer1 i ∧ st'.backupServer2 i = st.backupServer2 i := by
  have hbackups : ∀ s : NsState,
      s.backupServer1 i = s.skeleton.1[i]?.bind (fun record ↦ record.2.2.1) ∧
        s.backupServer2 i = s.skeleton.1[i]?.bind (fun record ↦ record.2.2.2) := by
    intro s
    rw [NsState.backupServer1, NsState.backupServer2, NsState.skeleton, List.getElem?_map]
    cases s.storageServers[i]? <;> exact ⟨rfl, rfl⟩
  rw [(hbackups st').1, (hbackups st').2, (hbackups st).1, (hbackups st).2, h]
  exact ⟨rfl, rfl⟩

theorem length_roots_of_skeleton {st st' : NsState} (h : st'.skeleton = st.skeleton) :
    st'.roots.length = st.roots.length := by
  have hlen := congrArg (fun s ↦ s.1.length) h
  simpa [NsState.skeleton, NsState.roots] using hlen

theorem skeleton_withRoot (st : NsState) (i : Nat) (root : TrieNode) :
    (st.withRoot i root).skeleton = st.skeleton := by
  simp only [NsState.skeleton, NsState.withRoot, NsState.modifyServer, Prod.mk.injEq, and_true]
  apply List.ext_getElem?
  intro j
  simp only [List.getElem?_map, List.getElem?_modify]
  cases st.storageServers[j]? with
  | none => rfl
  | some info => by_cases hij : i = j <;> simp [hij, StorageServerInfo.record]

theorem skeleton_updateRoot {st st' : NsState} {i : Nat} {f : TrieNode → Option TrieNode}
    (h : st.updateRoot i f = some st') : st'.skeleton = st.skeleton := by
  unfold NsState.updateRoot at h
  simp only [Option.pure_def, Option.bind_eq_bind, Option.bind_eq_some_iff,
    Option.some.injEq] at h
  obtain ⟨-, -, root, -, rfl⟩ := h
  exact skeleton_withRoot st i root

theorem EntryRun.skeleton {c : EntryChange} {st st' : NsState} {line command path : Text}
    {tr : List NsEvent} (h : EntryRun c st line command path tr (some st')) :
    st'.skeleton = st.skeleton := by
  have hlooked : ∀ {t : List NsEvent} {k : Option Nat} {st₁ : NsState},
      Exec (searchStorageServer st c.lookup) t (some (k, st₁)) →
      ∀ cache, { st₁ with cache := cache }.skeleton = st.skeleton :=
    fun hl _ ↦ skeleton_of_frozen (exec_lookup hl).2.2.1
  generalize hout : some st' = out at h
  cases h with
  | invalid _ =>
    cases hout
    rfl
  | overruns _ _ => cases hout
  | overlong _ _ _ => cases hout
  | unknown _ hl =>
    cases hout
    exact hlooked hl _
  | down _ hl _ =>
    cases hout
    exact hlooked hl _
  | unsent _ hl =>
    cases hout
    exact hlooked hl _
  | unanswered _ hl =>
    cases hout
    exact hlooked hl _
  | refused _ hl _ _ =>
    cases hout
    exact hlooked hl _
  | carriedOut _ hl _ _ hr =>
    obtain ⟨-, _, hst, hf, -⟩ := exec_replicateCommand hr
    cases hst
    rw [skeleton_updateRoot hout.symm, skeleton_of_frozen hf]
    exact hlooked hl _

theorem CopyRun.skeleton {st st' : NsState} {line : Text} {tr : List NsEvent}
    (h : CopyRun st line tr (some st')) : st'.skeleton = st.skeleton := by
  generalize hout : some st' = out at h
  cases h with
  | incomplete _ =>
    cases hout
    rfl
  | invalid _ _ =>
    cases hout
    rfl
  | overrunsSrc _ _ _ => cases hout
  | overrunsDest _ _ _ _ => cases hout
  | unknown _ _ hs hd _ =>
    cases hout
    exact skeleton_of_frozen ((exec_lookup hd).2.2.1.trans (exec_lookup hs).2.2.1)
  | performed _ _ hs hd _ hp =>
    subst hout
    have hlooked := skeleton_of_frozen ((exec_lookup hd).2.2.1.trans (exec_lookup hs).2.2.1)
    obtain rfl | ⟨_, _, _, -, -, hf, -⟩ := hp.tables
    · exact hlooked
    · rw [skeleton_of_frozen hf, skeleton_withRoot]
      exact hlooked

/-- A completed client command leaves records and counter as they are. -/
theorem ClientRun.skeleton {st st' : NsState} {line : Text} {tr : List NsEvent}
    (h : ClientRun st line tr (some st')) : st'.skeleton = st.skeleton := by
  generalize hout : some st' = out at h
  cases h with
  | listing _ hx =>
    subst hout
    rw [listAll_result hx]
  | copy _ _ hr =>
    subst hout
    exact hr.skeleton
  | pathless _ _ _ =>
    cases hout
    rfl
  | writeStops _ _ _ _ _ _ => cases hout
  | write _ _ _ _ _ hw hl =>
    subst hout
    exact skeleton_of_frozen (hl.tables.1.trans hw.tables.1)
  | make _ _ _ _ _ _ hr =>
    subst hout
    exact hr.skeleton
  | remove _ _ _ _ _ _ hr =>
    subst hout
    exact hr.skeleton
  | read _ _ _ _ _ _ _ hr =>
    subst hout
    exact skeleton_of_frozen hr.tables.1

/-- So does a write notification. -/
theorem listenAsync_skeleton {st st' : NsState} {line : Text} {tr : List NsEvent}
    (h : Exec (listenAsync st line) tr (some st')) : st'.skeleton = st.skeleton := by
  obtain rfl | ⟨_, _, _, st₁, hl, hf, -⟩ := exec_listenAsync h
  · rfl
  · exact skeleton_of_frozen (hf.trans (exec_lookup hl).2.2.1)

/-! ### The table -/

/-- The table has the entries that were counted, as far as they fit, and each has the backups of
its place. -/
structure Tabled (st : NsState) : Prop where
  filled : st.storageServers.length = min st.storageServerIndex maxStorageServers
  backups : ∀ (i : Nat) (info : StorageServerInfo), st.storageServers[i]? = some info →
    (info.backupServer1, info.backupServer2) = assigned st.storageServerIndex i

theorem assigned_of_le {n m i : Nat} (hn : 3 ≤ n) (hm : 3 ≤ m) : assigned n i = assigned m i := by
  rw [assigned, assigned, if_pos hn, if_pos hm]

namespace Tabled

theorem of_initial : Tabled .initial := ⟨rfl, by simp [NsState.initial]⟩

theorem of_skeleton {st st' : NsState} (h : Tabled st) (hs : st'.skeleton = st.skeleton) :
    Tabled st' := by
  obtain ⟨hrecords, hindex⟩ := Prod.mk.inj hs
  constructor
  · have hlength := congrArg List.length hrecords
    rw [List.length_map, List.length_map] at hlength
    rw [hlength, hindex]
    exact h.filled
  · intro i info hi
    have hrecord := congrArg (fun l ↦ l[i]?) hrecords
    simp only [List.getElem?_map, hi, Option.map_some] at hrecord
    obtain ⟨old, hold, hsame⟩ := Option.map_eq_some_iff.mp hrecord.symm
    simp only [StorageServerInfo.record, Prod.mk.injEq] at hsame
    rw [← hsame.2.2.1, ← hsame.2.2.2, hindex]
    exact h.backups i old hold

theorem registered {st st' : NsState} {r : Registration} {tr : List NsEvent} (h : Tabled st)
    (hr : Registered st r tr st') : Tabled st' := by
  cases hr with
  | revived hi hname =>
    constructor
    · simpa [NsState.revive, NsState.modifyServer] using h.filled
    · intro j info hj
      obtain ⟨old, hold, -, hb₁, hb₂, -⟩ := getElem?_revive hj
      rw [hb₁, hb₂]
      exact h.backups j old hold
  | full _ hfull =>
    constructor
    · have := h.filled
      simp only [maxStorageServers] at this hfull ⊢
      omega
    · intro j info hj
      rw [h.backups j info hj]
      simp only [maxStorageServers] at hfull
      exact assigned_of_le (by omega) (by simp only; omega)
  | added hroot _ hroom hst _ =>
    have hlength : st.storageServers.length = st.storageServerIndex := by
      rw [h.filled]
      omega
    subst hst
    constructor
    · change (st.added r _).storageServers.length = _
      rw [length_added hlength]
      simp only
      omega
    · exact fun i info hi ↦ backups_added hlength h.backups hi

theorem step {st st' : NsState} (h : Tabled st) (hs : NsStep st st') : Tabled st' := by
  cases hs with
  | @register ip socket portClient segments _ hx =>
    exact h.registered (exec_register (r := ⟨socket, ip, portClient, segments⟩) hx)
  | command hx => exact h.of_skeleton (exec_processClient hx).skeleton
  | notify hx => exact h.of_skeleton (listenAsync_skeleton hx)

/-- The backups of an entry are two other entries. -/
theorem backup {st : NsState} (h : Tabled st) {i b : Nat}
    (hb : st.backupServer1 i = some b ∨ st.backupServer2 i = some b) :
    b < st.storageServers.length ∧ b ≠ i := by
  have hfilled := h.filled
  obtain ⟨hne₁, hne₂, -, hlt₁, hlt₂⟩ := backupsOf_spec i
  cases hi : st.storageServers[i]? with
  | none => simp [NsState.backupServer1, NsState.backupServer2, hi] at hb
  | some info =>
    have hlt := (List.getElem?_eq_some_iff.mp hi).1
    have hback := h.backups i info hi
    simp only [NsState.backupServer1, NsState.backupServer2, hi, Option.bind_some] at hb
    unfold assigned at hback
    split at hback
    · obtain ⟨h₁, h₂⟩ := Prod.mk.inj hback
      simp only [h₁, h₂, Option.some.injEq] at hb
      simp only [maxStorageServers] at hfilled
      obtain rfl | rfl := hb
      · exact ⟨by omega, hne₁.symm⟩
      · exact ⟨by omega, hne₂.symm⟩
    · obtain ⟨h₁, h₂⟩ := Prod.mk.inj hback
      simp [h₁, h₂] at hb

end Tabled

theorem NsStep.tabled {st : NsState} (h : Reachable (fun s ↦ s = .initial) NsStep st) :
    Tabled st := by
  refine h.invariant (I := Tabled) ?_ (fun _ _ hI hs ↦ hI.step hs)
  rintro _ rfl
  exact .of_initial

/-! ### The counter -/

/-- The counter is within the array, and every entry that it counts is there with a trie. -/
def TableFits (st : NsState) : Prop :=
  st.storageServerIndex ≤ maxStorageServers ∧
    ∀ i < st.storageServerIndex, ∃ info, st.storageServers[i]? = some info

theorem Tabled.fits_iff {st : NsState} (h : Tabled st) :
    TableFits st ↔ st.storageServerIndex ≤ maxStorageServers := by
  refine ⟨fun hfits ↦ hfits.1, fun hle ↦ ⟨hle, fun i hi ↦ ?_⟩⟩
  rw [← min_eq_left hle, ← h.filled] at hi
  exact ⟨_, List.getElem?_eq_getElem hi⟩

theorem Registers.tabled {rs : List Registration} {log : List NsEvent} {st : NsState}
    (h : Registers rs log st) : Tabled st := by
  induction h with
  | start => exact .of_initial
  | next _ hx ih => exact ih.registered (exec_register hx)

theorem Registers.names_subset {rs : List Registration} {log : List NsEvent} {st : NsState}
    (h : Registers rs log st) : st.names ⊆ rs.map Registration.name := by
  induction h with
  | start => simp [NsState.names, NsState.roots, NsState.initial]
  | @next rs _ _ st st' r _ hx ih =>
    have hmore : st.names ⊆ (rs ++ [r]).map Registration.name :=
      List.Subset.trans ih (by simp)
    cases exec_register hx with
    | revived _ _ =>
      rw [names_revive]
      exact hmore
    | full _ _ => exact hmore
    | added hroot _ _ hst _ =>
      subst hst
      change (st.added r _).names ⊆ _
      rw [names_added hroot]
      exact List.append_subset.mpr ⟨hmore, by simp⟩

/-- Every new name is counted, whether or not there is room for its server. -/
theorem Registers.card_le {rs : List Registration} {log : List NsEvent} {st : NsState}
    (h : Registers rs log st) :
    (rs.map Registration.name).toFinset.card ≤ st.storageServerIndex := by
  induction h with
  | start => simp
  | @next rs _ _ st st' r h hx ih =>
    have hsplit : ((rs ++ [r]).map Registration.name).toFinset =
        insert r.name (rs.map Registration.name).toFinset := by
      ext name
      simp
    have hcard := Finset.card_insert_le r.name (rs.map Registration.name).toFinset
    rw [hsplit]
    cases exec_register hx with
    | @revived i info hi hname =>
      have hmem : r.name ∈ (rs.map Registration.name).toFinset :=
        List.mem_toFinset.mpr (h.names_subset (mem_names.mpr ⟨i, info, hi, hname⟩))
      rw [Finset.insert_eq_of_mem hmem]
      exact ih
    | full _ _ =>
      simp only
      omega
    | added _ _ _ hst _ =>
      simp only
      omega

/-- For every sequence of completed registrations: the counter fits the table if and only if the
servers have at most `MAX_STORAGE_SERVERS` root names. -/
theorem table_fits_iff_names_fit {rs : List Registration} {log : List NsEvent} {st : NsState}
    (h : Registers rs log st) :
    TableFits st ↔ (rs.map Registration.name).toFinset.card ≤ maxStorageServers := by
  rw [h.tabled.fits_iff]
  constructor
  · exact fun hle ↦ h.card_le.trans hle
  · intro hcard
    have hlength := (h.topology hcard).length
    rw [h.tabled.filled] at hlength
    omega

/-- Four registrations under three root names. -/
theorem table_fits_three_names :
    ∃ rs log st, Registers rs log st ∧ rs.length = 4 ∧ TableFits st := by
  have hrun : ((registerAll fourRegistrations .initial).runWith agreeable).2.isSome = true := by
    decide +kernel
  obtain ⟨st, hst⟩ := Option.isSome_iff_exists.mp hrun
  have hx := exec_runWith agreeable (registerAll fourRegistrations .initial)
  rw [hst] at hx
  have hreg := registers_of_registerAll .start hx
  exact ⟨_, _, st, hreg, rfl, (table_fits_iff_names_fit hreg).mpr (by decide +kernel)⟩

/-- The servers of ten root folders and of one more. -/
private def elevenRegistrations : List Registration :=
  ["a", "b", "c", "d", "e", "f", "g", "h", "i", "j", "k"].map (fun name ↦
    ⟨4, lit "10.0.0.1", 4000, [lit "./" ++ lit name ++ lit "\n@!-Finished Indexing-!@\n"]⟩)

/-- The eleventh server is refused, and counted. -/
theorem refused_server_is_counted :
    ¬ ∀ rs log st, Registers rs log st → TableFits st := by
  intro hall
  have hrun : ((registerAll elevenRegistrations .initial).runWith agreeable).2.map
      NsState.storageServerIndex = some 11 := by
    decide +kernel
  obtain ⟨st, hst, hindex⟩ := Option.map_eq_some_iff.mp hrun
  have hx := exec_runWith agreeable (registerAll elevenRegistrations .initial)
  rw [hst] at hx
  have hfits := (hall _ _ _ (registers_of_registerAll .start hx)).1
  rw [hindex] at hfits
  exact absurd hfits (by decide)

end NetworkFileSystem.Naming
