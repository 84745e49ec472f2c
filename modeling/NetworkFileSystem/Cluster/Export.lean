import NetworkFileSystem.Naming.Slots
import NetworkFileSystem.Cluster.Indexing
import NetworkFileSystem.Naming.Reach
import NetworkFileSystem.Storage.Entries

/-!
# What a server exports and what its trie shows

`helper.c:432–487`, `naming_server.c:56–103`, `tries.c:115–164`. The trie of a server
mirrors its disk if the component lists that can be found in it are the paths that
exist below the root. The index of a server builds such a trie, provided that its lines
say what they are meant to say.
-/

namespace NetworkFileSystem.Cluster

open Base Base.PrefixSet Protocol Trie Trie.TrieNode Naming Storage

/-- The name of the exported folder, `ROOT_PATH + 2`. -/
def rootName (s : SsState) : Text := s.rootPath.drop 2

/-- The paths that exist on a server under its root, from the folder it works in. -/
def exported (s : SsState) : Set (List Text) :=
  {p | [rootName s] <+: p ∧ s.disk.entry (s.cwd ++ p) ≠ none}

/-- The component lists of these paths, and the two that are found in every trie. -/
def shown (s : SsState) : Set (List Text) :=
  {ws | ws = [] ∨ ws = [lit "."] ∨ ∃ p ∈ exported s, ws = lit "." :: p}

/-- The component lists that a search finds in the trie are the paths under the root. -/
structure Mirrors (n : TrieNode) (s : SsState) : Prop where
  distinct : n.Distinct
  paths : n.paths = shown s

/-- No exported folder has more entries than a node has slots. -/
def Roomy (s : SsState) : Prop :=
  ∀ p, [rootName s] <+: p → (s.disk.names (s.cwd ++ p)).encard ≤ maxFolders

/-- A name that a component list can hold. -/
structure PlainName (w : Text) : Prop extends FileName w where
  ne_tilde : w ≠ lit "~"

/-- The trie operations take the path `./c₁/…/cₖ`: at most 255 components with the dot. -/
structure Plain (ws : List Text) : Prop where
  names : ∀ w ∈ ws, PlainName w
  short : ws.length + 1 < maxPath

/-- A path whose line in an index says what it is meant to say. -/
structure Indexed (ws : List Text) : Prop extends Plain ws where
  newline : ∀ w ∈ ws, newline ∉ w
  line : Indexable (pathText ws)

/-! ### Component lists -/

theorem Plain.component {ws : List Text} (h : Plain ws) : ∀ w ∈ ws, Component w :=
  fun w hw ↦ ⟨(h.names w hw).ne_nil, (h.names w hw).noSlash, (h.names w hw).ne_tilde⟩

theorem Plain.tokens {ws : List Text} (h : Plain ws) :
    tokens slash (pathText ws) = lit "." :: ws :=
  tokens_pathText (fun w hw ↦ ⟨(h.names w hw).ne_nil, (h.names w hw).noSlash⟩)

theorem Plain.length {ws : List Text} (h : Plain ws) :
    (components (pathText ws)).length < maxPath := by
  rw [components_pathText h.component]
  exact h.short

/-- What is shown stays within the bound of the slots. -/
theorem encard_children_shown {s : SsState} (h : Roomy s) (q : List Text) :
    (children (shown s) q).encard ≤ maxFolders := by
  have hone : ∀ {S : Set Text} (w : Text), (∀ a ∈ S, a = w) → S.encard ≤ maxFolders := by
    intro S w hS
    refine (Set.encard_le_encard (t := {w}) hS).trans ?_
    rw [Set.encard_singleton]
    exact_mod_cast (by decide : 1 ≤ maxFolders)
  match q with
  | [] =>
    refine hone (lit ".") ?_
    rintro a (ha | ha | ⟨p, -, ha⟩) <;> simp_all
  | [w] =>
    refine hone (rootName s) ?_
    rintro a (ha | ha | ⟨p, ⟨hpre, -⟩, ha⟩)
    · simp at ha
    · simp at ha
    · obtain ⟨-, rfl⟩ := List.cons.inj ha
      simpa using (List.cons_prefix_cons.mp hpre).1.symm
  | w :: v :: q =>
    by_cases hv : v = rootName s
    · refine (Set.encard_le_encard ?_).trans (h (v :: q) ⟨q, by rw [hv]; rfl⟩)
      rintro a (ha | ha | ⟨p, ⟨-, hp⟩, ha⟩)
      · simp at ha
      · simp at ha
      · obtain ⟨-, rfl⟩ := List.cons.inj ha
        simpa [FileSystem.names] using hp
    · refine hone [] ?_
      rintro a (ha | ha | ⟨p, ⟨hpre, -⟩, ha⟩)
      · simp at ha
      · simp at ha
      · obtain ⟨-, rfl⟩ := List.cons.inj ha
        exact absurd (List.cons_prefix_cons.mp hpre).1.symm hv

/-! ### Insertions -/

/-- A path whose folder is found is inserted with itself only. -/
theorem addPathToTrie_concat {n : TrieNode} {T : Set (List Text)} {ws : List Text} {w : Text}
    (hn : n.Distinct) (hplain : Plain (ws ++ [w])) (hws : lit "." :: ws ∈ n.paths)
    (hT : n.paths ⊆ T) (hnew : lit "." :: (ws ++ [w]) ∈ T)
    (hcap : ∀ q, (children T q).encard ≤ maxFolders) :
    ∃ m, addPathToTrie (pathText (ws ++ [w])) n = some m ∧ m.Distinct ∧
      m.paths = insert (lit "." :: (ws ++ [w])) n.paths := by
  obtain ⟨m, hm, hdist, hpaths⟩ :=
    TrieOp.run_refines (o := .add (pathText (ws ++ [w]))) hplain.length hn
  refine ⟨m, hm, hdist, hpaths.trans ?_⟩
  have hcomp : components (pathText (ws ++ [w])) = lit "." :: ws ++ [w] :=
    components_pathText hplain.component
  have hprefix : ∀ v, v <+: lit "." :: ws ++ [w] → v = lit "." :: ws ++ [w] ∨ v ∈ n.paths := by
    intro v hv
    obtain rfl | hv := List.prefix_concat_iff.mp hv
    · exact .inl rfl
    · exact .inr (paths_prefixClosed n _ _ hv hws)
  change insertPath maxFolders n.paths (components (pathText (ws ++ [w]))) = _
  rw [hcomp, insertPath_of_bounded hT ?_ hcap]
  · ext x
    constructor
    · rintro (hx | ⟨hx, -⟩)
      · exact .inr hx
      · obtain rfl | hx := hprefix x hx
        · exact .inl rfl
        · exact .inr hx
    · rintro (rfl | hx)
      · exact .inr ⟨List.prefix_refl _, by simp⟩
      · exact .inl hx
  · intro v hv _
    obtain rfl | hv := hprefix v hv
    · exact hnew
    · exact hT hv

/-! ### Indexes -/

/-- What a server must be like for its index to show it: the lines of all its paths say what
they are meant to say, and nothing is hidden. -/
structure Showable (s : SsState) (l : Listing) : Prop where
  root : Indexed [rootName s]
  entries : ∀ p e, l.Has p e → Indexed (rootName s :: p)
  visible : ∀ p e, l.Has p e → ∀ w ∈ p, isHidden w = false

theorem Showable.visible_iff {s : SsState} {l : Listing} (h : Showable s l) {p : List Text} :
    Visible l p ↔ ∃ e, l.Has p e :=
  ⟨fun ⟨e, he, _⟩ ↦ ⟨e, he⟩, fun ⟨e, he⟩ ↦ ⟨e, he, h.visible p e he⟩⟩

theorem Showable.indexed {s : SsState} {l : Listing} (h : Showable s l) {p : List Text}
    (hp : p = [] ∨ Visible l p) : Indexed (rootName s :: p) := by
  obtain rfl | hp := hp
  · exact h.root
  · obtain ⟨e, he⟩ := h.visible_iff.mp hp
    exact h.entries p e he

/-- A server that can be shown and has room can be exported. -/
theorem Showable.exportable {s : SsState} {l : Listing} (h : Showable s l)
    (hholds : s.disk.Holds (s.cwd ++ [rootName s]) l) (hroom : Roomy s) :
    Exportable [rootName s] l where
  component := fun p hp ↦ (h.indexed hp).component
  line := fun p hp w hw ↦ by
    have hindexed := h.indexed hp
    refine ⟨hindexed.newline w hw, (hindexed.names w hw).noNul, ?_⟩
    rw [Bool.eq_false_iff, Ne, containsText_iff]
    intro hin
    have hpath := containsText_iff.mpr (hin.trans (infix_pathText_of_mem hw))
    rw [List.singleton_append, hindexed.line.1] at hpath
    cases hpath
  short := fun p hp ↦ (h.indexed hp).short
  fits := fun p hp ↦ (h.indexed hp).line.2.1
  room := fun p ↦ by
    refine (Set.encard_le_encard ?_).trans (hroom (rootName s :: p) ⟨p, rfl⟩)
    intro w hw
    obtain ⟨e, he⟩ := h.visible_iff.mp hw
    have hentry := (hholds.2 (p ++ [w]) e (by simp)).mpr he
    simpa [FileSystem.names] using Option.ne_none_iff_exists'.mpr ⟨e, hentry⟩

theorem Showable.mem_indexPaths {s : SsState} {l : Listing} (h : Showable s l)
    (hroot : s.rootPath = pathText [rootName s]) {t : Text} (ht : t ∈ indexPaths s.rootPath l) :
    ∃ p, Indexed (rootName s :: p) ∧ t = pathText (rootName s :: p) := by
  rw [hroot, indexPaths, List.mem_cons,
    mem_entryPaths (fun p hp ↦ (h.indexed (.inr hp)).line.2.1)] at ht
  obtain rfl | ⟨p, hp, rfl⟩ := ht
  · exact ⟨[], h.root, rfl⟩
  · exact ⟨p, h.indexed (.inr hp), rfl⟩

/-- The paths of an index build a trie that mirrors the disk. -/
theorem Showable.mirrors {s : SsState} {l : Listing} (h : Showable s l)
    (hroot : s.rootPath = pathText [rootName s])
    (hholds : s.disk.Holds (s.cwd ++ [rootName s]) l) (hroom : Roomy s) :
    ∃ m, addPaths (indexPaths s.rootPath l) (createNode (lit ".")) = some m ∧ Mirrors m s := by
  have hentry : ∀ p, s.disk.entry (s.cwd ++ rootName s :: p) ≠ none ↔ p = [] ∨ ∃ e, l.Has p e := by
    intro p
    simpa using hholds.entry_ne_none p
  obtain ⟨m, hm, hdist, hpaths⟩ := (h.exportable hholds hroom).addPaths
  refine ⟨m, hroot ▸ hm, hdist, ?_⟩
  rw [hpaths]
  ext x
  constructor
  · rintro ⟨p, hp, hx⟩
    match x, hx with
    | [], _ => exact .inl rfl
    | [w], hx => exact .inr (.inl (by rw [(List.cons_prefix_cons.mp hx).1]))
    | w :: v :: q, hx =>
      obtain ⟨rfl, hx'⟩ := List.cons_prefix_cons.mp hx
      obtain ⟨rfl, r, rfl⟩ := List.cons_prefix_cons.mp hx'
      rw [h.visible_iff, ← hentry, ← List.cons_append, ← List.append_assoc] at hp
      exact .inr (.inr ⟨_, ⟨⟨q, rfl⟩, FileSystem.entry_of_append hp⟩, rfl⟩)
  · rintro (rfl | rfl | ⟨p, ⟨⟨q, rfl⟩, hp⟩, rfl⟩)
    · exact ⟨[], .inl rfl, List.nil_prefix⟩
    · exact ⟨[], .inl rfl, by simp⟩
    · refine ⟨q, ?_, List.prefix_refl _⟩
      rw [h.visible_iff]
      exact (hentry q).mp hp

/-! ### Registration -/

/-- The first slots lead to the exported folder. -/
def NamesRoot (n : TrieNode) (name : Text) : Prop :=
  ∃ top folder, n.childeren firstSlot = some top ∧ top.data = lit "." ∧
    top.childeren firstSlot = some folder ∧ folder.data = name

private theorem NamesRoot.addLoop {n : TrieNode} {name : Text} (h : NamesRoot n name)
    (ws : List Text) : NamesRoot (addLoop (lit "." :: name :: ws) n) name := by
  obtain ⟨top, folder, htop, hdot, hfolder, hname⟩ := h
  rw [addLoop_firstSlot htop hdot, addLoop_firstSlot hfolder hname]
  exact ⟨top.setChild firstSlot (some (Trie.addLoop ws folder)), Trie.addLoop ws folder, by simp,
    hdot, by simp, by rw [data_addLoop, hname]⟩

private theorem namesRoot_of_empty (d name : Text) (ws : List Text) :
    NamesRoot (Trie.addLoop (lit "." :: name :: ws) (createNode d)) name := by
  refine ⟨_, _, addLoop_empty (by simp) _ _, ?_, addLoop_empty (by simp) _ _, ?_⟩
  · rw [data_addLoop]
    rfl
  · rw [data_addLoop]
    rfl

private theorem addPathToTrie_pathText {ws : List Text} (h : Plain ws) (n : TrieNode) :
    addPathToTrie (pathText ws) n = some (Trie.addLoop (lit "." :: ws) n) := by
  rw [addPathToTrie, parsePath_of_lt h.length, components_pathText h.component]
  rfl

private theorem namesRoot_of_addPaths {name : Text} {ts : List Text} {n m : TrieNode}
    (hts : ∀ t ∈ ts, ∃ p, Indexed (name :: p) ∧ t = pathText (name :: p)) (hn : NamesRoot n name)
    (hm : addPaths ts n = some m) : NamesRoot m name := by
  induction ts generalizing n with
  | nil =>
    cases hm
    exact hn
  | cons t ts ih =>
    obtain ⟨p, hidx, rfl⟩ := hts t (by simp)
    rw [addPaths_cons, addPathToTrie_pathText hidx.toPlain] at hm
    exact ih (fun t ht ↦ hts t (by simp [ht])) (hn.addLoop p) hm

theorem Showable.namesRoot {s : SsState} {l : Listing} (h : Showable s l)
    (hroot : s.rootPath = pathText [rootName s]) {m : TrieNode}
    (hm : addPaths (indexPaths s.rootPath l) (createNode (lit ".")) = some m) :
    NamesRoot m (rootName s) := by
  have hts := fun t ht ↦ h.mem_indexPaths hroot (t := t) ht
  rw [hroot, indexPaths, addPaths_cons, addPathToTrie_pathText h.root.toPlain] at hm
  rw [hroot, indexPaths] at hts
  exact namesRoot_of_addPaths (fun t ht ↦ hts t (by simp [ht])) (namesRoot_of_empty _ _ _) hm

/-- The messages of the index of a server. -/
def indexOf (s : SsState) (l : Listing) : List Text := indexMessages (indexPaths s.rootPath l)

theorem Showable.indexHelper {s : SsState} {l : Listing} (h : Showable s l)
    (hroot : s.rootPath = pathText [rootName s]) (n : TrieNode) :
    (indexHelper (indexOf s l) [] n).map Prod.fst = addPaths (indexPaths s.rootPath l) n := by
  rw [indexHelper_eq, indexOf, indexMessages, indexedLines_messages]
  · intro t ht
    obtain ⟨p, hp, rfl⟩ := h.mem_indexPaths hroot ht
    exact hp.line
  · intro t ht
    obtain ⟨p, hp, rfl⟩ := h.mem_indexPaths hroot ht
    exact ⟨notMem_pathText (by decide) hp.newline, by simp [pathText, lit]⟩

/-- Among servers of other names, a server is new. -/
private theorem findRedundancy_new {name : Text} {roots : List TrieNode}
    (h : ∀ n ∈ roots, ∃ other, NamesRoot n other ∧ other ≠ name) (i : Nat) :
    findRedundancy (some name) roots i = some none := by
  induction roots generalizing i with
  | nil => rfl
  | cons n roots ih =>
    obtain ⟨other, ⟨top, folder, htop, -, hfolder, hdata⟩, hne⟩ := h n (by simp)
    have hexp : (exportedFolder n).join = some folder := by simp [exportedFolder, htop, hfolder]
    simp only [findRedundancy, hexp, hdata, Option.pure_def, Option.bind_eq_bind,
      Option.bind_some, if_neg (Ne.symm hne)]
    exact ih (fun n hn ↦ h n (by simp [hn])) (i + 1)

/-- A new server is entered behind the others. -/
theorem exec_register_new {st st' : NsState} {ip : Text} {socket portClient : Nat}
    {segments : List Text} {tr : List NsEvent} {root : TrieNode} {name : Text}
    (hindex : (indexHelper segments [] (createNode (lit "."))).map Prod.fst = some root)
    (hname : NamesRoot root name) (hnew : ∀ n ∈ st.roots, ∃ other, NamesRoot n other ∧ other ≠ name)
    (hroom : st.storageServerIndex < maxStorageServers)
    (h : Prog.Exec (registerStorageServer st socket ip portClient segments) tr (some st')) :
    st'.roots = st.roots ++ [root] ∧ st'.cache = st.cache ∧
      st'.storageServerIndex = st.storageServerIndex + 1 := by
  unfold registerStorageServer at h
  obtain ⟨-, -, hout⟩ | ⟨⟨root', finished⟩, hi, h₁⟩ := Prog.exec_ofOption_bind.mp h
  · cases hout
  rw [hi, Option.map_some, Option.some.injEq] at hindex
  subst hindex
  obtain ⟨top, folder, htop, -, hfolder, hdata⟩ := hname
  have hexp : (exportedFolder root').join = some folder := by simp [exportedFolder, htop, hfolder]
  simp only [hexp, Option.map_some, hdata, findRedundancy_new hnew] at h₁
  obtain ⟨-, -, hout⟩ | ⟨found, hfound, h₂⟩ := Prog.exec_ofOption_bind.mp h₁
  · cases hout
  cases hfound
  simp only [if_neg (Nat.not_le.mpr hroom)] at h₂
  obtain ⟨-, hout⟩ | ⟨_, t₁, t₂, rfl, -, rfl, hst⟩ := Prog.exec_bind.mp h₂
  · cases hout
  · cases hst
    obtain ⟨hr, hc⟩ := assignBackups_spec { st with storageServers := st.storageServers ++
      [⟨socket, ip, portClient, root', none, none, true⟩] } st.storageServerIndex
    exact ⟨hr.trans (by simp [NsState.roots]), hc, rfl⟩

end NetworkFileSystem.Cluster
