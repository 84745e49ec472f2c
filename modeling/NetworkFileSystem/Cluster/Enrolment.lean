import NetworkFileSystem.Cluster.Indexing
import NetworkFileSystem.Naming.Containment
import NetworkFileSystem.Naming.Segments
import NetworkFileSystem.Naming.Topology

/-!
# What a registration does to the table

`naming_server.c:127–221`, `storage_server.c:680–690`, `helper.h:23–32`. The naming server
knows a returning server by the name in one slot of its trie. As long as that name tells
the root paths of the servers apart, every root path has one entry, with the connection of the
last registration; and the trie of a new entry finds what the server has sent, if the
segments of the index fit the buffer.
-/

namespace NetworkFileSystem.Cluster

open Base Base.PrefixSet Protocol Trie Trie.TrieNode Naming Prog

/-- A registration with the `ROOT_PATH` of its server and the paths that the server sends. -/
structure Enrolment where
  rootPath : Text
  lines : List Text
  report : Registration

namespace Enrolment

/-- The segments that the naming server receives are the index of the paths, cut anywhere. -/
structure Sends (e : Enrolment) : Prop where
  lines : ∀ l ∈ e.lines, PathLine l
  cut : e.report.segments.flatten = indexStream e.lines

instance (e : Enrolment) : Decidable e.Sends :=
  decidable_of_iff ((∀ l ∈ e.lines, PathLine l) ∧ e.report.segments.flatten = indexStream e.lines)
    ⟨fun h ↦ ⟨h.1, h.2⟩, fun h ↦ ⟨h.lines, h.cut⟩⟩

/-- The component lists on the way to the paths that the server sends. -/
def reported (e : Enrolment) : Set (List Text) :=
  {ws | ws = [] ∨ ∃ l ∈ e.lines, ws <+: components l}

/-- No folder of the report has more entries than a node has slots. -/
def FitsNodes (e : Enrolment) : Prop := ∀ q, (children e.reported q).encard ≤ maxFolders

/-- The deployment behind a registration that has left the tables `st'`. -/
def after (e : Enrolment) (d : Deployment) (st' : NsState) : Deployment :=
  ⟨st', if d.tables.roots.length < st'.roots.length then d.rootPaths ++ [e.rootPath]
    else d.rootPaths⟩

end Enrolment

/-- A registration that has returned; its root path has passed `validate_path`. -/
inductive Completes (d : Deployment) (e : Enrolment) : Deployment → Prop where
  | intro {tr : List NsEvent} {st' : NsState} : lit "./" <+: e.rootPath → e.Sends →
      Exec (e.report.register d.tables) tr (some st') → Completes d e (e.after d st')

/-- Completed registrations, with the root path for which each entry was made. -/
inductive Enrolled : List Enrolment → Deployment → Prop where
  | start : Enrolled [] .initial
  | next {es : List Enrolment} {e : Enrolment} {d d' : Deployment} :
      Enrolled es d → Completes d e d' → Enrolled (es ++ [e]) d'

/-- The name of the exported folder is the same exactly for the same root path. -/
def ToldApart (es : List Enrolment) : Prop :=
  ∀ a ∈ es, ∀ b ∈ es, a.rootPath = b.rootPath ↔ a.report.name = b.report.name

/-- What the registration of `e` in the deployment `d` comes to: one entry belongs to its root
path; that entry has the new connection and is up, and the trie of a new entry finds the reported
paths and what lies above them; in the other entries at most the backups have changed, and these
only by the registration of the third server. -/
structure Outcome (d : Deployment) (e : Enrolment) (d' : Deployment) : Prop where
  one : ∃! i : Nat, d'.rootPaths[i]? = some e.rootPath
  entry : ∀ i : Nat, d'.rootPaths[i]? = some e.rootPath →
    ∃ info, d'.tables.storageServers[i]? = some info ∧ info.socket = e.report.socket ∧
      info.ip = e.report.ip ∧ info.portClient = e.report.portClient ∧ info.isUp = true ∧
      (e.rootPath ∉ d.rootPaths → ∀ ws, searchPathHelper ws info.root = true ↔ ws ∈ e.reported)
  others : ∀ (i : Nat) (r : Text), d'.rootPaths[i]? = some r → r ≠ e.rootPath →
    ∃ old info, d.tables.storageServers[i]? = some old ∧
      d'.tables.storageServers[i]? = some info ∧
      info = { old with
        backupServer1 := info.backupServer1, backupServer2 := info.backupServer2 } ∧
      (d.tables.storageServerIndex ≠ 2 → info = old)

/-- The table in terms of root paths. -/
structure Owned (es : List Enrolment) (d : Deployment) : Prop where
  length : d.rootPaths.length = d.tables.roots.length
  counter : d.tables.roots.length = d.tables.storageServerIndex
  nodup : d.rootPaths.Nodup
  known : ∀ e ∈ es, e.rootPath ∈ d.rootPaths
  enrolled : ∀ r ∈ d.rootPaths, ∃ e ∈ es, e.rootPath = r
  owner : ∀ (i : Nat) (r : Text) (n : TrieNode), d.rootPaths[i]? = some r →
    d.tables.roots[i]? = some n → ∃ e ∈ es, e.rootPath = r ∧ e.report.name = nameOf n

namespace Owned

variable {es : List Enrolment} {d : Deployment} {e : Enrolment}

theorem start : Owned [] .initial := by
  constructor <;> simp [Deployment.initial, NsState.initial, NsState.roots]

/-- A root path whose name is in no trie has no entry. -/
theorem notMem_of_fresh (h : Owned es d) (happart : ToldApart (es ++ [e]))
    (hfresh : Fresh e.report.name d.tables.roots) : e.rootPath ∉ d.rootPaths := by
  intro hmem
  obtain ⟨i, hi⟩ := List.getElem?_of_mem hmem
  have hlt : i < d.tables.roots.length := h.length ▸ (List.getElem?_eq_some_iff.mp hi).1
  obtain ⟨e₀, he₀, hroot, hname⟩ := h.owner i _ _ hi (List.getElem?_eq_getElem hlt)
  have hsame := (happart e₀ (by simp [he₀]) e (by simp)).mp hroot
  exact (hfresh _ (List.getElem_mem hlt)).2.2 (hname ▸ hsame)

/-- A root path whose name is in the trie of an entry has this entry. -/
theorem rootPath_of_name (h : Owned es d) (happart : ToldApart (es ++ [e])) {i : Nat}
    {n : TrieNode} (hi : d.tables.roots[i]? = some n) (hname : nameOf n = e.report.name) :
    d.rootPaths[i]? = some e.rootPath := by
  have hlt : i < d.rootPaths.length := h.length ▸ (List.getElem?_eq_some_iff.mp hi).1
  obtain ⟨e₀, he₀, hroot, hname₀⟩ := h.owner i _ _ (List.getElem?_eq_getElem hlt) hi
  rw [List.getElem?_eq_getElem hlt, ← hroot,
    (happart e₀ (by simp [he₀]) e (by simp)).mpr (hname₀.trans hname)]

/-- A new root path leaves room in the table. -/
theorem lt_max (h : Owned es d) (hnew : e.rootPath ∉ d.rootPaths)
    (hcard : ((es ++ [e]).map Enrolment.rootPath).toFinset.card ≤ maxStorageServers) :
    d.tables.storageServerIndex < maxStorageServers := by
  have hsub : (e.rootPath :: d.rootPaths).toFinset ⊆
      ((es ++ [e]).map Enrolment.rootPath).toFinset := by
    intro r hr
    rw [List.mem_toFinset, List.mem_map]
    obtain rfl | hr := List.mem_cons.mp (List.mem_toFinset.mp hr)
    · exact ⟨e, by simp, rfl⟩
    · obtain ⟨e₀, he₀, hroot⟩ := h.enrolled r hr
      exact ⟨e₀, by simp [he₀], hroot⟩
  have hlen : (e.rootPath :: d.rootPaths).toFinset.card = d.tables.storageServerIndex + 1 := by
    rw [List.toFinset_card_of_nodup (List.nodup_cons.mpr ⟨hnew, h.nodup⟩), List.length_cons,
      h.length, h.counter]
  have := Finset.card_le_card hsub
  omega

/-- A registration takes over the entry of its root path, or makes the first one for it. -/
private theorem cases_registered (h : Owned es d) (happart : ToldApart (es ++ [e]))
    (hcard : ((es ++ [e]).map Enrolment.rootPath).toFinset.card ≤ maxStorageServers)
    {tr : List NsEvent} {st' : NsState} (hr : Registered d.tables e.report tr st') :
    (∃ i info, d.tables.storageServers[i]? = some info ∧ d.rootPaths[i]? = some e.rootPath ∧
      st' = d.tables.revive i e.report ∧ e.after d st' = ⟨st', d.rootPaths⟩) ∨
    ∃ root, e.report.root = some root ∧ e.rootPath ∉ d.rootPaths ∧
      st' = { d.tables.added e.report root with
        storageServerIndex := d.tables.storageServerIndex + 1 } ∧
      e.after d st' = ⟨st', d.rootPaths ++ [e.rootPath]⟩ := by
  cases hr with
  | @revived i info hi hname =>
    refine .inl ⟨i, info, hi, h.rootPath_of_name happart ?_ hname, rfl, ?_⟩
    · rw [NsState.roots, List.getElem?_map, hi, Option.map_some]
    · rw [Enrolment.after, roots_revive, if_neg (Nat.lt_irrefl _)]
  | full hfresh hfull =>
    have := h.lt_max (h.notMem_of_fresh happart hfresh) hcard
    omega
  | @added root st₁ tr hroot hfresh _ hst hx =>
    subst hst
    refine .inr ⟨root, hroot, h.notMem_of_fresh happart hfresh, rfl, ?_⟩
    have hlonger : d.tables.roots.length < (d.tables.added e.report root).roots.length := by
      rw [roots_added, List.length_append]
      exact Nat.lt_succ_self _
    exact congrArg (Deployment.mk _) (if_pos hlonger)

/-- A registration keeps the table in order. -/
theorem registered (h : Owned es d) (happart : ToldApart (es ++ [e]))
    (hcard : ((es ++ [e]).map Enrolment.rootPath).toFinset.card ≤ maxStorageServers)
    {tr : List NsEvent} {st' : NsState} (hr : Registered d.tables e.report tr st') :
    Owned (es ++ [e]) (e.after d st') := by
  obtain ⟨i, info, hi, hroot, rfl, hafter⟩ | ⟨root, hroot, hnew, hst, hafter⟩ :=
    h.cases_registered happart hcard hr
  · rw [hafter]
    constructor
    · rw [roots_revive]
      exact h.length
    · rw [roots_revive]
      exact h.counter
    · exact h.nodup
    · intro e' he'
      obtain he' | he' := List.mem_append.mp he'
      · exact h.known e' he'
      · rw [List.mem_singleton.mp he']
        exact List.mem_of_getElem? hroot
    · intro r hr
      obtain ⟨e₀, he₀, hr₀⟩ := h.enrolled r hr
      exact ⟨e₀, by simp [he₀], hr₀⟩
    · intro j r n hj hn
      rw [roots_revive] at hn
      obtain ⟨e₀, he₀, hrest⟩ := h.owner j r n hj hn
      exact ⟨e₀, by simp [he₀], hrest⟩
  · have hroots : st'.roots = d.tables.roots ++ [root] := hst ▸ roots_added d.tables e.report root
    have hcounter : st'.storageServerIndex = d.tables.storageServerIndex + 1 := by rw [hst]
    rw [hafter]
    constructor
    · rw [hroots, List.length_append, List.length_append, h.length]
      rfl
    · rw [hroots, hcounter, List.length_append, h.counter]
      rfl
    · exact List.concat_eq_append ▸ h.nodup.concat hnew
    · intro e' he'
      obtain he' | he' := List.mem_append.mp he'
      · exact List.mem_append_left _ (h.known e' he')
      · rw [List.mem_singleton.mp he']
        exact List.mem_append_right _ (List.mem_singleton_self _)
    · intro r hr
      obtain hr | hr := List.mem_append.mp hr
      · obtain ⟨e₀, he₀, hr₀⟩ := h.enrolled r hr
        exact ⟨e₀, by simp [he₀], hr₀⟩
      · exact ⟨e, by simp, (List.mem_singleton.mp hr).symm⟩
    · intro j r n hj hn
      rw [hroots] at hn
      by_cases hlt : j < d.tables.roots.length
      · rw [List.getElem?_append_left hlt] at hn
        rw [List.getElem?_append_left (h.length ▸ hlt)] at hj
        obtain ⟨e₀, he₀, hrest⟩ := h.owner j r n hj hn
        exact ⟨e₀, by simp [he₀], hrest⟩
      · rw [List.getElem?_append_right (by omega), List.getElem?_singleton] at hn
        rw [List.getElem?_append_right (by rw [h.length]; omega), List.getElem?_singleton] at hj
        obtain ⟨-, hn⟩ := Option.ite_none_right_eq_some.mp hn
        obtain ⟨-, hj⟩ := Option.ite_none_right_eq_some.mp hj
        refine ⟨e, by simp, Option.some.inj hj, ?_⟩
        rw [← Option.some.inj hn, Registration.name, hroot, Option.bind_some]

end Owned

private theorem ToldApart.of_append {es es' : List Enrolment} (h : ToldApart (es ++ es')) :
    ToldApart es :=
  fun a ha b hb ↦ h a (List.mem_append_left _ ha) b (List.mem_append_left _ hb)

private theorem card_of_append {es es' : List Enrolment} {n : Nat}
    (h : ((es ++ es').map Enrolment.rootPath).toFinset.card ≤ n) :
    (es.map Enrolment.rootPath).toFinset.card ≤ n := by
  refine (Finset.card_le_card fun r hr ↦ ?_).trans h
  rw [List.map_append, List.toFinset_append]
  exact Finset.mem_union_left _ hr

/-- After all registrations the table is in order. -/
theorem Enrolled.owned {es : List Enrolment} {d : Deployment} (h : Enrolled es d)
    (happart : ToldApart es)
    (hcard : (es.map Enrolment.rootPath).toFinset.card ≤ maxStorageServers) : Owned es d := by
  induction h with
  | start => exact .start
  | @next es e d d' _ hnext ih =>
    obtain ⟨-, -, hx⟩ := hnext
    exact (ih happart.of_append (card_of_append hcard)).registered happart hcard
      (exec_register hx)

/-! ### The entry of the registered server -/

private theorem short_of_addPaths {ts : List Text} {n m : TrieNode} (h : addPaths ts n = some m) :
    ∀ t ∈ ts, (components t).length < maxPath := by
  induction ts generalizing n with
  | nil => simp
  | cons t ts ih =>
    rw [addPaths_cons] at h
    obtain ⟨n', hn', hm⟩ := Option.bind_eq_some_iff.mp h
    obtain ⟨ws, hws, -⟩ := Option.map_eq_some_iff.mp hn'
    simp only [List.mem_cons, forall_eq_or_imp]
    exact ⟨(length_of_parsePath hws).1, ih hm⟩

/-- The trie of a report whose segments fit the buffer finds the reported paths and what lies
above them. -/
theorem Enrolment.paths_root {e : Enrolment} {root : TrieNode} (hroot : e.report.root = some root)
    (hsends : e.Sends) (hbuffer : Fits e.report.segments []) (hfits : e.FitsNodes) :
    root.paths = e.reported := by
  unfold Registration.root at hroot
  rw [indexHelper_eq, (indexed_of_stream hsends.lines hsends.cut hbuffer).1] at hroot
  have hstart : (createNode (lit ".")).paths ⊆ e.reported := by
    rw [paths_createNode]
    rintro x rfl
    exact .inl rfl
  obtain ⟨m, hm, -, hpaths⟩ := addPaths_of_bounded (distinct_createNode (lit "."))
    (short_of_addPaths hroot) hstart (fun t ht v hv ↦ .inr ⟨t, ht, hv⟩) hfits
  rw [hroot] at hm
  cases hm
  rw [hpaths, paths_createNode]
  ext x
  by_cases hx : x = [] <;> simp [Enrolment.reported, hx]

/-- A report of no more paths than a node has slots fits. -/
theorem fitsNodes_of_length {e : Enrolment}
    (h : e.lines.length ≤ maxFolders) : e.FitsNodes := by
  intro q
  let names := e.lines.map fun l ↦ (components l)[q.length]?.getD []
  have hsub : children e.reported q ⊆ ↑names.toFinset := by
    rintro w (hq | ⟨l, hl, hpre⟩)
    · exact absurd hq (List.append_ne_nil_of_right_ne_nil _ (List.cons_ne_nil _ _))
    · obtain ⟨ws, hws⟩ := hpre
      have hw : (components l)[q.length]? = some w := by
        rw [← hws, List.append_assoc, List.getElem?_append_right le_rfl, Nat.sub_self]
        rfl
      rw [Finset.mem_coe, List.mem_toFinset, List.mem_map]
      exact ⟨l, hl, by rw [hw, Option.getD_some]⟩
  calc (children e.reported q).encard ≤ (names.toFinset : Set Text).encard :=
        Set.encard_le_encard hsub
    _ = names.toFinset.card := Set.encard_coe_eq_coe_finsetCard _
    _ ≤ names.length := by exact_mod_cast List.toFinset_card_le names
    _ ≤ maxFolders := by
      rw [List.length_map]
      exact_mod_cast h

private theorem one_of_nodup {l : List Text} {r : Text} {i : Nat} (hnodup : l.Nodup)
    (hi : l[i]? = some r) : ∀ j, l[j]? = some r → j = i := by
  intro j hj
  obtain ⟨hlt, hjr⟩ := List.getElem?_eq_some_iff.mp hj
  obtain ⟨hlt', hir⟩ := List.getElem?_eq_some_iff.mp hi
  exact (List.Nodup.getElem_inj_iff hnodup).mp (hjr.trans hir.symm)

private theorem outcome_revived {es : List Enrolment} {d : Deployment} {e : Enrolment} {i : Nat}
    {info : StorageServerInfo} (h : Owned es d) (hi : d.tables.storageServers[i]? = some info)
    (hroot : d.rootPaths[i]? = some e.rootPath) :
    Outcome d e ⟨d.tables.revive i e.report, d.rootPaths⟩ := by
  have hentry : ∀ j, (d.tables.revive i e.report).storageServers[j]? =
      (fun old : StorageServerInfo ↦ if i = j then
        { old with
          isUp := true, socket := e.report.socket, ip := e.report.ip,
          portClient := e.report.portClient }
        else old) <$> d.tables.storageServers[j]? := fun j ↦ by
    rw [NsState.revive, NsState.modifyServer, List.getElem?_modify]
  constructor
  · exact ⟨i, hroot, one_of_nodup h.nodup hroot⟩
  · intro j hj
    obtain rfl := one_of_nodup h.nodup hroot j hj
    refine ⟨{ info with
      isUp := true, socket := e.report.socket, ip := e.report.ip,
      portClient := e.report.portClient }, ?_, rfl, rfl, rfl, rfl,
      fun hnew ↦ absurd (List.mem_of_getElem? hroot) hnew⟩
    rw [hentry, hi, Option.map_eq_map, Option.map_some, if_pos rfl]
  · intro j r hj hne
    have hij : i ≠ j := by
      rintro rfl
      exact hne (Option.some.inj (hj.symm.trans hroot))
    have hlt : j < d.tables.storageServers.length := by
      have := (List.getElem?_eq_some_iff.mp hj).1
      rw [h.length, NsState.roots, List.length_map] at this
      exact this
    have hold := List.getElem?_eq_getElem hlt
    refine ⟨_, _, hold, ?_, rfl, fun _ ↦ rfl⟩
    rw [hentry, hold, Option.map_eq_map, Option.map_some, if_neg hij]

private theorem outcome_added {es : List Enrolment} {d : Deployment} {e : Enrolment}
    {root : TrieNode} (h : Owned es d) (hnew : e.rootPath ∉ d.rootPaths)
    (hpaths : root.paths = e.reported) :
    Outcome d e ⟨{ d.tables.added e.report root with
      storageServerIndex := d.tables.storageServerIndex + 1 }, d.rootPaths ++ [e.rootPath]⟩ := by
  have hservers : d.tables.storageServers.length = d.tables.roots.length := by
    rw [NsState.roots, List.length_map]
  have hnodup : (d.rootPaths ++ [e.rootPath]).Nodup := List.concat_eq_append ▸ h.nodup.concat hnew
  have hlast : (d.rootPaths ++ [e.rootPath])[d.tables.roots.length]? = some e.rootPath := by
    rw [← h.length, List.getElem?_concat_length]
  have hentry : ∀ i < d.rootPaths.length + 1, ∃ info,
      (d.tables.added e.report root).storageServers[i]? = some info := fun i hi ↦ by
    have hlen := congrArg List.length (roots_added d.tables e.report root)
    rw [NsState.roots, List.length_map, List.length_append, List.length_singleton,
      ← h.length] at hlen
    exact ⟨_, List.getElem?_eq_getElem (hlen ▸ hi)⟩
  constructor
  · exact ⟨_, hlast, one_of_nodup hnodup hlast⟩
  · intro i hi
    obtain rfl := one_of_nodup hnodup hlast i hi
    obtain ⟨info, hinfo⟩ := hentry d.tables.roots.length (by rw [h.length]; omega)
    obtain ⟨old, hold, hsame, -⟩ := entry_assignBackups hinfo
    rw [NsState.push, ← hservers, List.getElem?_concat_length] at hold
    obtain rfl := Option.some.inj hold
    refine ⟨info, hinfo, by rw [hsame], by rw [hsame], by rw [hsame], by rw [hsame],
      fun _ ws ↦ ?_⟩
    rw [hsame]
    change ws ∈ root.paths ↔ _
    rw [hpaths]
  · intro i r hi hne
    have hlt : i < d.rootPaths.length := by
      have hle := (List.getElem?_eq_some_iff.mp hi).1
      rw [List.length_append, List.length_singleton] at hle
      refine lt_of_le_of_ne (by omega) fun heq ↦ hne ?_
      rw [heq, List.getElem?_concat_length] at hi
      exact (Option.some.inj hi).symm
    obtain ⟨info, hinfo⟩ := hentry i (by omega)
    obtain ⟨old, hold, hsame, hkept⟩ := entry_assignBackups hinfo
    rw [NsState.push, List.getElem?_append_left (by rw [hservers, ← h.length]; exact hlt)] at hold
    refine ⟨old, info, hold, hinfo, hsame, fun htwo ↦ hkept ?_⟩
    rintro (⟨hn, -⟩ | ⟨-, rfl⟩)
    · exact htwo hn
    · rw [h.length, h.counter] at hlt
      exact Nat.lt_irrefl _ hlt

/-! ### Registration outcome -/

/-- One registration after the other, with storage servers that confirm every copy. -/
def enrol (d : Deployment) : List Enrolment → Option Deployment
  | [] => some d
  | e :: es => ((e.report.register d.tables).runWith agreeable).2.bind
      fun st' ↦ enrol (e.after d st') es

theorem enrolled_enrol {es es' : List Enrolment} {d d' : Deployment} (h : Enrolled es d)
    (hvalid : ∀ e ∈ es', lit "./" <+: e.rootPath ∧ e.Sends) (hx : enrol d es' = some d') :
    Enrolled (es ++ es') d' := by
  induction es' generalizing es d with
  | nil =>
    cases hx
    simpa using h
  | cons e es' ih =>
    obtain ⟨st', hst, hx⟩ := Option.bind_eq_some_iff.mp hx
    have hrun := exec_runWith agreeable (e.report.register d.tables)
    rw [hst] at hrun
    obtain ⟨hroot, hsends⟩ := hvalid e (by simp)
    simpa using ih (h.next (.intro hroot hsends hrun)) (fun a ha ↦ hvalid a (by simp [ha])) hx

/-- A server with the root path `rootPath` that sends the paths `lines`, in one segment. -/
def enrolment (rootPath : String) (lines : List Text) : Enrolment :=
  ⟨lit rootPath, lines, ⟨4, lit "10.0.0.1", 4000, [indexStream lines]⟩⟩

/-- What the registration of `e` behind those of `es` shows of the deployments around it. -/
private theorem last_enrol {α : Type} (es : List Enrolment) (e : Enrolment)
    (f : Deployment → Deployment → α) (v : α) 
    (hvalid : ∀ a ∈ es ++ [e], lit "./" <+: a.rootPath ∧ a.Sends)
    (hrun : ((enrol .initial es).bind fun d ↦ (enrol d [e]).map (f d)) = some v) :
    ∃ d d', Enrolled es d ∧ Completes d e d' ∧ f d d' = v := by
  obtain ⟨d, hd, h⟩ := Option.bind_eq_some_iff.mp hrun
  obtain ⟨d', hd', hf⟩ := Option.map_eq_some_iff.mp h
  refine ⟨d, d', enrolled_enrol .start (fun a ha ↦ hvalid a (List.mem_append_left _ ha)) hd, ?_,
    hf⟩
  obtain ⟨st', hst, hx⟩ := Option.bind_eq_some_iff.mp hd'
  have hexec := exec_runWith agreeable (e.report.register d.tables)
  rw [hst] at hexec
  cases hx
  obtain ⟨hroot, hsends⟩ := hvalid e (by simp)
  exact .intro hroot hsends hexec

/-- The trie of the entry finds exactly what lies on the way to the reported paths, also when a
server returns. -/
def FindsReported (_ : Deployment) (e : Enrolment) (d' : Deployment) : Prop :=
  ∀ (i : Nat) (info : StorageServerInfo), d'.rootPaths[i]? = some e.rootPath →
    d'.tables.storageServers[i]? = some info →
    ∀ ws, searchPathHelper ws info.root = true ↔ ws ∈ e.reported

/-- The entries of other root paths keep everything, also their backups. -/
def KeepsOthers (d : Deployment) (e : Enrolment) (d' : Deployment) : Prop :=
  ∀ (i : Nat) (r : Text), d'.rootPaths[i]? = some r → r ≠ e.rootPath →
    d'.tables.storageServers[i]? = d.tables.storageServers[i]?

/-- Every registration of at most ten root paths leaves the property `P`. -/
def Always (P : Deployment → Enrolment → Deployment → Prop) : Prop :=
  ∀ (es : List Enrolment) (e : Enrolment) (d d' : Deployment), Enrolled es d → Completes d e d' →
    ((es ++ [e]).map Enrolment.rootPath).toFinset.card ≤ maxStorageServers → P d e d'

/-- The root path of the first entry, and whether its trie finds `path`. -/
def foundAt (d' : Deployment) (path : Text) : Option Text × Option Bool :=
  (d'.rootPaths[0]?, d'.tables.roots[0]?.map (searchPathHelper (components path)))

private theorem lost_of_foundAt {d d' : Deployment} {e : Enrolment} {path : Text}
    (h : FindsReported d e d') (hsent : path ∈ e.lines)
    (hfound : foundAt d' path = (some e.rootPath, some false)) : False := by
  obtain ⟨hroot, hfound⟩ := Prod.mk.inj hfound
  obtain ⟨n, hn, hlost⟩ := Option.map_eq_some_iff.mp hfound
  rw [NsState.roots, List.getElem?_map, Option.map_eq_some_iff] at hn
  obtain ⟨info, hinfo, rfl⟩ := hn
  rw [(h 0 info hroot hinfo _).mpr (.inr ⟨path, hsent, List.prefix_rfl⟩)] at hlost
  cases hlost

/-- A first registration whose trie does not find a path that the server sends. -/
private theorem first_lacks {e : Enrolment} {path : Text} (hroot : lit "./" <+: e.rootPath)
    (hsends : e.Sends) (hsent : path ∈ e.lines)
    (hrun : (enrol .initial [e]).map (foundAt · path) = some (some e.rootPath, some false)) :
    ∃ d', Completes .initial e d' ∧ ¬ FindsReported .initial e d' := by
  obtain ⟨d', hx, hfound⟩ := Option.map_eq_some_iff.mp hrun
  obtain ⟨st', hst, hd'⟩ := Option.bind_eq_some_iff.mp hx
  have hexec := exec_runWith agreeable (e.report.register Deployment.initial.tables)
  rw [hst] at hexec
  obtain rfl := Option.some.inj hd'
  exact ⟨_, .intro hroot hsends hexec, fun h ↦ lost_of_foundAt h hsent hfound⟩

/-- The folder ./s with the given files. -/
private def manyFiles (files : List Text) : List Text :=
  lit "./s" :: files.map (lit "./s/" ++ ·)

/-- Eight files of 251 letters; the second receive brings 2048 bytes behind "./s". -/
private def cutFiles : Enrolment :=
  let lines := manyFiles ((lit "abcdefgh").map (fun c ↦ List.replicate 251 c))
  let stream := indexStream lines
  ⟨lit "./s", lines, ⟨4, lit "10.0.0.1", 4000,
    [stream.take 3, (stream.drop 3).take maxPathSize, stream.drop (3 + maxPathSize)]⟩⟩

private theorem cutFiles_lacks :
    ∃ d', Completes .initial cutFiles d' ∧ ¬ FindsReported .initial cutFiles d' :=
  @first_lacks _ (lit "./s/" ++ List.replicate 251 104) (by decide) (by decide +kernel)
    (by decide +kernel) (by decide +kernel)

/-- A first registration whose index fits the buffer and `path_arr` returns. -/
theorem completes_first {e : Enrolment} (hroot : lit "./" <+: e.rootPath) (hsends : e.Sends)
    (hbuffer : Fits e.report.segments [])
    (hshort : ∀ l ∈ e.lines, (components l).length < maxPath) :
    ∃ d', Completes .initial e d' ∧ d'.rootPaths[0]? = some e.rootPath ∧
      d'.rootPaths.length = d'.tables.roots.length := by
  obtain ⟨root, hroots⟩ : ∃ root, addPaths e.lines (createNode (lit ".")) = some root :=
    addPaths_eq_some_iff.mpr hshort
  obtain ⟨hindexed, hends⟩ := indexed_of_stream hsends.lines hsends.cut hbuffer
  have hindex : indexHelper e.report.segments [] (createNode (lit ".")) = some (root, true) := by
    rw [indexHelper_eq_map, hindexed, hroots, hends, Option.map_some]
  have hexec : Exec (e.report.register .initial) []
      (some { NsState.initial.added e.report root with storageServerIndex := 1 }) := by
    rw [Registration.register, registerStorageServer, hindex]
    exact ⟨rfl, rfl⟩
  exact ⟨_, .intro hroot hsends hexec, rfl, rfl⟩

/-- A trie does not find all of a report that does not fit its nodes. -/
theorem FindsReported.fitsNodes {d d' : Deployment} {e : Enrolment} {i : Nat}
    (h : FindsReported d e d') (hroot : d'.rootPaths[i]? = some e.rootPath)
    (hlen : d'.rootPaths.length = d'.tables.roots.length) : e.FitsNodes := by
  have hlt : i < d'.tables.storageServers.length := by
    have := (List.getElem?_eq_some_iff.mp hroot).1
    rwa [hlen, NsState.roots, List.length_map] at this
  have hpaths : d'.tables.storageServers[i].root.paths = e.reported :=
    Set.ext (h i _ hroot (List.getElem?_eq_getElem hlt))
  intro q
  rw [← hpaths]
  exact encard_children_le _ q

/-- A file more than a node has slots, in segments of one line. -/
private def tooManyFiles : Enrolment :=
  let lines := manyFiles ((List.range (maxFolders + 1)).map decimal)
  ⟨lit "./s", lines, ⟨4, lit "10.0.0.1", 4000,
    (lines ++ [finishedIndexing]).map (· ++ [newline])⟩⟩

private theorem not_fitsNodes_tooManyFiles : ¬ tooManyFiles.FitsNodes := by
  intro hfits
  have hsub : (((List.range (maxFolders + 1)).map decimal).toFinset : Set Text) ⊆
      children tooManyFiles.reported (components (lit "./s")) := by
    intro w hw
    rw [Finset.mem_coe, List.mem_toFinset] at hw
    have hall : ∀ w ∈ (List.range (maxFolders + 1)).map decimal,
        components (lit "./s/" ++ w) = components (lit "./s") ++ [w] := by decide +kernel
    refine .inr ⟨lit "./s/" ++ w, ?_, by rw [hall w hw]⟩
    exact List.mem_cons_of_mem _ (List.mem_map_of_mem hw)
  have hnodup : ((List.range (maxFolders + 1)).map decimal).Nodup :=
    List.nodup_range.map (Function.LeftInverse.injective digitsValue_decimal)
  have hle := (Set.encard_le_encard hsub).trans (hfits _)
  rw [Set.encard_coe_eq_coe_finsetCard, List.toFinset_card_of_nodup hnodup, List.length_map,
    List.length_range] at hle
  exact absurd (by exact_mod_cast hle) (Nat.not_succ_le_self maxFolders)

end NetworkFileSystem.Cluster
