import NetworkFileSystem.Base.Transition
import NetworkFileSystem.Cluster.World
import NetworkFileSystem.Naming.Reach

/-!
# The tries mirror the disks

`naming_server.c:486–519,829–1056`, `tries.c:136–279`, `helper.c:145–293`. Commands on
entries and lookups are handled one at a time; the storage servers carry the commands
out or refuse them. Behind each command, what can be found in the trie of a server is
what exists below its root, and every lookup leads to the server whose root the path
starts with.
-/

namespace NetworkFileSystem.Cluster

open Base Base.PrefixSet Base.Prog Protocol Trie Trie.TrieNode Naming Storage

/-- The naming server and its world. -/
structure Site where
  naming : NsState
  world : World

/-! ### Registered servers -/

/-- A server with one exported folder, without hidden entries and within the slots of a node. -/
structure Announces (s : SsState) (l : Listing) : Prop where
  root : s.rootPath = pathText [rootName s]
  name : FileName (rootName s)
  holds : s.disk.Holds (s.cwd ++ [rootName s]) l
  visible : ∀ p e, l.Has p e → ∀ w ∈ p, isHidden w = false
  roomy : Roomy s

/-- The index says what it is meant to say, and the root is not the folder for backups. -/
structure Clear (s : SsState) (l : Listing) : Prop where
  root : Indexed [rootName s]
  entries : ∀ p e, l.Has p e → Indexed (rootName s :: p)
  ne_backup : rootName s ≠ lit "backupfolderforss"

/-- The naming server behind the registration of servers with pairwise distinct roots, as far
as its table goes. -/
inductive Registered (ok : SsState → Listing → Prop) : NsState → List SsState → Prop where
  | none : Registered ok .initial []
  | register {st st' : NsState} {ss : List SsState} {s : SsState} {l : Listing} {ip : Text}
      {socket portClient : Nat} {tr : List NsEvent} : Registered ok st ss →
      Announces s l → ok s l → rootName s ∉ ss.map rootName → ss.length < maxStorageServers →
      Exec (registerStorageServer st socket ip portClient (indexOf s l)) tr (some st') →
      Registered ok st' (ss ++ [s])

theorem Registered.mono {ok ok' : SsState → Listing → Prop} (hle : ∀ s l, ok s l → ok' s l)
    {st : NsState} {ss : List SsState} (h : Registered ok st ss) : Registered ok' st ss := by
  induction h with
  | none => exact .none
  | register _ hann hok hnew hroom hx ih => exact .register ih hann (hle _ _ hok) hnew hroom hx

/-- A registered site. The copies to backups may have changed the disks since the servers were
indexed, but not what they export. -/
def Site.Start (ok : SsState → Listing → Prop) (c : Site) : Prop :=
  ∃ ss, Registered ok c.naming ss ∧
    (∀ i, (c.world.links i).isOpen = true ∧ (c.world.links i).inbox = [] ∧
      (c.world.links i).outbox = []) ∧
    ∀ (i : Nat) (s : SsState), ss[i]? = some s → KeepsExport s (c.world.servers i)

/-- The commands: one of the four on entries, or another verb, which is a lookup. -/
inductive IsCommand : Text → Prop where
  | entry {v : Verb} {ws : List Text} : IsEntry v → Canonical ws → IsCommand (commandLine v.name ws)
  | lookup {verb : Text} {ws : List Text} : blank ∉ verb → verb ≠ [] →
      startsWith (lit "copy") verb = false → startsWith (lit "write") verb = false →
      (∀ v, IsEntry v → verb ≠ v.name) → Canonical ws → IsCommand (commandLine verb ws)

/-- One command is handled. No folder grows beyond the slots of a node. -/
inductive Site.Step : Site → Site → Prop where
  | command {st st' : NsState} {w w' : World} {line : Text} {tr : List NsEvent} :
      IsCommand line → Exec (processClient st line) tr (some st') → storage.Accepts w tr w' →
      (∀ i, i < st'.roots.length → Roomy (w'.servers i)) → Site.Step ⟨st, w⟩ ⟨st', w'⟩

/-- A cached key leads to the server whose root it starts with. -/
def Cached (c : Site) (e : CacheEntry) : Prop :=
  ∃ ws, Canonical ws ∧ e.key = pathText ws ∧ e.index < c.naming.roots.length ∧
    ws.head? = some (rootName (c.world.servers e.index))

/-- The tries mirror the disks, and the cache leads to the server of the root. -/
structure Mirrored (c : Site) : Prop where
  proper : ∀ i, i < c.naming.roots.length → Proper (c.world.servers i)
  distinct : ∀ i j, i < c.naming.roots.length → j < c.naming.roots.length →
    rootName (c.world.servers i) = rootName (c.world.servers j) → i = j
  mirrors : ∀ (i : Nat) (n : TrieNode), c.naming.roots[i]? = some n → Mirrors n (c.world.servers i)
  cache : ∀ e ∈ c.naming.cache, Cached c e
  table : c.naming.storageServerIndex ≤ c.naming.roots.length
  rests : c.world.Rests

/-! ### Start -/

theorem Registered.mirrors {st : NsState} {ss : List SsState} (h : Registered Clear st ss) :
    st.cache = [] ∧ st.storageServerIndex = ss.length ∧ st.roots.length = ss.length ∧
      (ss.map rootName).Nodup ∧ ∀ (i : Nat) (s : SsState), ss[i]? = some s → Proper s ∧
        ∃ n, st.roots[i]? = some n ∧ Mirrors n s ∧ NamesRoot n (rootName s) := by
  induction h with
  | none => exact ⟨rfl, rfl, rfl, List.nodup_nil, by simp⟩
  | @register st st' ss s l ip socket portClient tr _ hann hok hnew hroom hx ih =>
    obtain ⟨hcache, hindex, hlen, hnodup, hservers⟩ := ih
    have hshow : Showable s l := ⟨hok.root, hok.entries, hann.visible⟩
    obtain ⟨m, hm, hmir⟩ := hshow.mirrors hann.root hann.holds hann.roomy
    have hnames := hshow.namesRoot hann.root hm
    have hothers : ∀ n ∈ st.roots, ∃ other, NamesRoot n other ∧ other ≠ rootName s := by
      intro n hn
      obtain ⟨i, hi⟩ := List.mem_iff_getElem?.mp hn
      have hlt : i < ss.length := hlen ▸ (List.getElem?_eq_some_iff.mp hi).1
      obtain ⟨-, n', hn', -, hname⟩ := hservers i ss[i] (List.getElem?_eq_getElem hlt)
      obtain rfl : n = n' := Option.some.inj (hi.symm.trans hn')
      refine ⟨_, hname, fun heq ↦ hnew ?_⟩
      exact heq ▸ List.mem_map_of_mem (List.getElem_mem hlt)
    obtain ⟨hroots, hcache', hindex'⟩ := exec_register_new
      ((hshow.indexHelper hann.root _).trans hm) hnames hothers (hindex ▸ hroom) hx
    refine ⟨hcache'.trans hcache, by simp [hindex', hindex], by simp [hroots, hlen], ?_, ?_⟩
    · rw [List.map_append, List.map_singleton]
      exact List.nodup_append.mpr ⟨hnodup, by simp, by
        rintro a ha b hb rfl
        exact hnew (List.mem_singleton.mp hb ▸ ha)⟩
    · intro i s' hs'
      rw [List.getElem?_append] at hs'
      rw [hroots, List.getElem?_append, hlen]
      split at hs'
      · next hlt =>
        rw [if_pos hlt]
        exact hservers i s' hs'
      · next hge =>
        obtain rfl : s = s' := by
          simp only [List.getElem?_singleton] at hs'
          split at hs'
          · exact Option.some.inj hs'
          · cases hs'
        have hi : i - ss.length = 0 := by
          simp only [List.getElem?_singleton] at hs'
          split at hs'
          · assumption
          · cases hs'
        rw [if_neg hge, hi]
        exact ⟨⟨hann.root, hann.name, hok.ne_backup⟩, m, rfl, hmir, hnames⟩

theorem Mirrors.of_exported {n : TrieNode} {s s' : SsState} (h : Mirrors n s)
    (he : exported s' = exported s) : Mirrors n s' := by
  refine ⟨h.distinct, h.paths.trans ?_⟩
  unfold shown
  rw [he]

theorem Mirrors.keep {n : TrieNode} {s s' : SsState} (h : Mirrors n s) (hk : KeepsExport s s') :
    Mirrors n s' := h.of_exported hk.exported

theorem Site.Start.mirrored {c : Site} (h : c.Start Clear) : Mirrored c := by
  obtain ⟨ss, hreg, hlinks, hservers⟩ := h
  obtain ⟨hcache, hindex, hlen, hnodup, hall⟩ := hreg.mirrors
  have hget : ∀ i, i < c.naming.roots.length →
      ∃ s, ss[i]? = some s ∧ KeepsExport s (c.world.servers i) := by
    intro i hi
    rw [hlen] at hi
    exact ⟨ss[i], List.getElem?_eq_getElem hi, hservers i _ (List.getElem?_eq_getElem hi)⟩
  refine ⟨fun i hi ↦ ?_, fun i j hi hj heq ↦ ?_, fun i n hn ↦ ?_, ?_, by rw [hindex, hlen],
    fun i ↦ ?_⟩
  · obtain ⟨s, hs, hk⟩ := hget i hi
    exact hk.proper (hall i s hs).1
  · obtain ⟨s, hs, hk⟩ := hget i hi
    obtain ⟨s', hs', hk'⟩ := hget j hj
    rw [hk.rootName, hk'.rootName] at heq
    have hi' : (ss.map rootName)[i]? = some (rootName s) := by simp [hs]
    have hj' : (ss.map rootName)[j]? = some (rootName s) := by simp [hs', heq]
    exact (List.getElem?_inj (by simpa using hlen ▸ hi) hnodup).mp (hi'.trans hj'.symm)
  · obtain ⟨s, hs, hk⟩ := hget i (List.getElem?_eq_some_iff.mp hn).1
    obtain ⟨-, n', hn', hmir, -⟩ := hall i s hs
    obtain rfl : n = n' := Option.some.inj (hn.symm.trans hn')
    exact hmir.keep hk
  · simp [hcache]
  · obtain ⟨hopen, hin, hout⟩ := hlinks i
    exact ⟨hopen, hout, by simp [hin]⟩

/-! ### Lookups -/

variable {c : Site} {ws : List Text}

private theorem pathText_injective {vs : List Text} (hw : Canonical ws) (hv : Canonical vs)
    (h : pathText ws = pathText vs) : ws = vs := by
  have htok := congrArg (tokens slash) h
  rw [hw.tokens, hv.tokens] at htok
  exact (List.cons.inj htok).2

/-- A component list that is found in a trie starts with the root of the server. -/
theorem Mirrors.head {n : TrieNode} {s : SsState} (h : Mirrors n s) (hne : ws ≠ [])
    (hmem : lit "." :: ws ∈ n.paths) : ws.head? = some (rootName s) := by
  rw [h.paths] at hmem
  obtain hx | hx | ⟨p, ⟨⟨q, rfl⟩, -⟩, hx⟩ := hmem
  · cases hx
  · exact absurd (List.cons.inj hx).2 hne
  · rw [(List.cons.inj hx).2]
    rfl

private theorem Mirrored.found (h : Mirrored c) (hws : Canonical ws) {i : Nat}
    (hi : searchInTries c.naming.roots (pathText ws) = some (some i)) :
    i < c.naming.roots.length ∧ ws.head? = some (rootName (c.world.servers i)) := by
  obtain ⟨⟨n, hn, hmem⟩, -⟩ := (searchInTries_iff (length_of_searchInTries hi) i).mp hi
  rw [components_pathText hws.component] at hmem
  exact ⟨(List.getElem?_eq_some_iff.mp hn).1, (h.mirrors i n hn).head hws.ne_nil hmem⟩

/-- A lookup leads to the server whose root the path starts with, from the cache or not. -/
theorem Mirrored.resolve (h : Mirrored c) (hws : Canonical ws) {i : Nat}
    (hi : c.naming.resolve (pathText ws) = some i) :
    i < c.naming.roots.length ∧ ws.head? = some (rootName (c.world.servers i)) := by
  unfold NsState.resolve at hi
  split at hi
  · next index hindex =>
    obtain ⟨e, he, hkey, hmem⟩ := searchCache_eq_some hindex
    rw [he, Option.map_some, Option.some.injEq] at hi
    subst hi
    obtain ⟨vs, hvs, hkey', hlt, hhead⟩ := h.cache e hmem
    rw [pathText_injective hws hvs (hkey.symm.trans hkey')]
    exact ⟨hlt, hhead⟩
  · exact h.found hws (Option.join_eq_some_iff.mp hi)

theorem Mirrored.cacheAfter (h : Mirrored c) (hws : Canonical ws) {e : CacheEntry}
    (he : e ∈ c.naming.cacheAfter (pathText ws)) : Cached c e := by
  obtain he | ⟨hkey, hfound⟩ := mem_cacheAfter he
  · exact h.cache e he
  · exact ⟨ws, hws, hkey, h.found hws hfound⟩

/-- No lookup leaves the tables. -/
theorem Mirrored.not_overruns (h : Mirrored c) (hws : Canonical ws) :
    ¬ c.naming.LookupOverruns (pathText ws) := by
  rintro ⟨-, hnone | ⟨-, hlt⟩⟩
  · simp [searchInTries, parsePath_of_lt hws.length] at hnone
  · have htable := h.table
    rw [NsState.roots, List.length_map] at htable
    omega

/-! ### Changes of one entry -/

/-- One successful call on `ws`, and nothing else, has worked on the exported folder. -/
def Changes (call : Call) (ws : List Text) (s s' : SsState) : Prop :=
  ∃ a b, KeepsExport s a ∧ call.Effect (a.cwd ++ ws) a.disk b.disk ∧ b.cwd = a.cwd ∧
    b.rootPath = a.rootPath ∧ KeepsExport b s'

variable {call : Call} {s s' : SsState} {n m : TrieNode}

theorem Changes.spec (h : Changes call ws s s') (hws : [rootName s] <+: ws) :
    s'.cwd = s.cwd ∧ s'.rootPath = s.rootPath ∧
      (∀ p, [rootName s] <+: p → p ≠ ws → s'.disk.entry (s.cwd ++ p) = s.disk.entry (s.cwd ++ p)) ∧
      (call.makes = true → s'.disk.entry (s.cwd ++ ws) ≠ none) ∧
      (call.makes = false → s'.disk.entry (s.cwd ++ ws) = none ∧ s.disk.entry (s.cwd ++ ws) ≠ none ∧
        ∀ q, q ≠ [] → s.disk.entry (s.cwd ++ (ws ++ q)) = none) := by
  obtain ⟨a, b, hsa, heffect, hcwd, hroot, hbs⟩ := h
  have hname : rootName b = rootName s := by
    rw [rootName, hroot]
    exact hsa.rootName
  have hbcwd : b.cwd = s.cwd := hcwd.trans hsa.cwd
  have hlast : ∀ p, [rootName s] <+: p → s'.disk.entry (s.cwd ++ p) = b.disk.entry (s.cwd ++ p) := by
    intro p hp
    rw [← hbcwd]
    exact hbs.entries p (hname ▸ hp)
  rw [hsa.cwd] at heffect
  refine ⟨hbs.cwd.trans hbcwd, hbs.rootPath.trans (hroot.trans hsa.rootPath), ?_, ?_, ?_⟩
  · intro p hp hne
    rw [hlast p hp, heffect.other (by simpa using hne)]
    exact hsa.entries p hp
  · intro hmakes
    rw [hlast ws hws]
    exact heffect.made hmakes
  · intro hmakes
    obtain ⟨hnone, hbelow⟩ := heffect.removed hmakes
    refine ⟨by rw [hlast ws hws]; exact hnone, ?_, fun q hq ↦ ?_⟩
    · rw [← hsa.entries ws hws]
      cases call with
      | mkdir | create => cases hmakes
      | remove => exact heffect.1
      | rmdir => simp [heffect.1]
    · rw [← hsa.entries (ws ++ q) (hws.trans (List.prefix_append _ _)), ← List.append_assoc]
      exact hbelow q hq

private theorem Changes.rootName_eq (h : Changes call ws s s') (hws : [rootName s] <+: ws) :
    rootName s' = Cluster.rootName s := by
  rw [Cluster.rootName, (h.spec hws).2.1, Cluster.rootName]

/-- A new entry comes into the trie, below a folder that is there. -/
theorem Mirrors.make (h : Mirrors n s) (hc : Changes call ws s s') (hmakes : call.makes = true)
    (hws : Canonical ws) (hhead : ws.head? = some (rootName s)) (hdir : ws.dropLast ≠ [])
    (hroom : Roomy s') (hm : addPathToTrie (pathText ws) n = some m) : Mirrors m s' := by
  obtain ⟨dir, name, rfl⟩ : ∃ dir name, ws = dir ++ [name] :=
    ⟨ws.dropLast, ws.getLast hws.ne_nil, (List.dropLast_append_getLast hws.ne_nil).symm⟩
  rw [List.dropLast_concat] at hdir
  have hpre : [rootName s] <+: dir :=
    prefix_of_head (by rwa [List.head?_append_of_ne_nil _ hdir] at hhead)
  have hprews := hpre.trans (List.prefix_append dir [name])
  obtain ⟨hcwd, -, hother, hmade, -⟩ := hc.spec hprews
  have hname := hc.rootName_eq hprews
  have hexported : exported s' = insert (dir ++ [name]) (exported s) := by
    ext p
    simp only [exported, hname, hcwd, Set.mem_insert_iff, Set.mem_ofPred_eq]
    by_cases hp : p = dir ++ [name]
    · subst hp
      simp [hprews, hmade hmakes]
    · simp only [hp, false_or]
      exact and_congr_right fun hp' ↦ by rw [hother p hp' hp]
  have hshown : shown s' = insert (lit "." :: (dir ++ [name])) (shown s) := by
    ext x
    simp only [shown, hexported, Set.mem_insert_iff, Set.mem_ofPred_eq]
    constructor
    · rintro (hx | hx | ⟨p, rfl | hp, rfl⟩)
      · exact .inr (.inl hx)
      · exact .inr (.inr (.inl hx))
      · exact .inl rfl
      · exact .inr (.inr (.inr ⟨p, hp, rfl⟩))
    · rintro (rfl | hx | hx | ⟨p, hp, rfl⟩)
      · exact .inr (.inr ⟨_, .inl rfl, rfl⟩)
      · exact .inl hx
      · exact .inr (.inl hx)
      · exact .inr (.inr ⟨p, .inr hp, rfl⟩)
  -- The call would have failed without the folder, so the trie has it.
  have hfolder : lit "." :: dir ∈ n.paths := by
    rw [h.paths]
    refine .inr (.inr ⟨dir, ⟨hpre, ?_⟩, rfl⟩)
    have hentry := s'.disk.parent (s.cwd ++ dir) name (by simpa using hmade hmakes)
    rw [hother dir hpre (by simp)] at hentry
    simp [hentry]
  obtain ⟨m', hm', hdist, hpaths⟩ := addPathToTrie_concat (T := shown s') h.distinct hws.toPlain
    hfolder (by rw [h.paths, hshown]; exact Set.subset_insert _ _)
    (by rw [hshown]; exact Set.mem_insert _ _) (encard_children_shown hroom)
  obtain rfl : m = m' := Option.some.inj (hm.symm.trans hm')
  exact ⟨hdist, by rw [hpaths, h.paths, hshown]⟩

/-- A removed entry had nothing below it, so the trie loses no more than the disk. -/
theorem Mirrors.remove (h : Mirrors n s) (hc : Changes call ws s s') (hmakes : call.makes = false)
    (hws : Canonical ws) (hhead : ws.head? = some (rootName s))
    (hm : deletePath (pathText ws) n = some m) : Mirrors m s' := by
  have hpre : [rootName s] <+: ws := prefix_of_head hhead
  obtain ⟨hcwd, -, hother, -, hremoved⟩ := hc.spec hpre
  obtain ⟨hgone, hwas, hbelow⟩ := hremoved hmakes
  have hname := hc.rootName_eq hpre
  obtain ⟨-, -, hdist, hpaths⟩ := deletePath_spec h.distinct hm
  rw [components_pathText hws.component, h.paths, PrefixSet.deletePath,
    if_pos (.inr (.inr ⟨ws, ⟨hpre, hwas⟩, rfl⟩))] at hpaths
  refine ⟨hdist, ?_⟩
  rw [hpaths]
  ext x
  simp only [shown, exported, hname, hcwd, Set.mem_ofPred_eq]
  constructor
  · rintro ⟨rfl | rfl | ⟨p, ⟨hp, he⟩, rfl⟩, hnot⟩
    · exact .inl rfl
    · exact .inr (.inl rfl)
    · have hne : p ≠ ws := by
        rintro rfl
        exact hnot (List.prefix_refl _)
      exact .inr (.inr ⟨p, ⟨hp, by rw [hother p hp hne]; exact he⟩, rfl⟩)
  · rintro (rfl | rfl | ⟨p, ⟨hp, he⟩, rfl⟩)
    · exact ⟨.inl rfl, by simp⟩
    · exact ⟨.inr (.inl rfl), by simpa using hws.ne_nil⟩
    · have hne : p ≠ ws := by
        rintro rfl
        exact he hgone
      rw [hother p hp hne] at he
      refine ⟨.inr (.inr ⟨p, ⟨hp, he⟩, rfl⟩), fun hprefix ↦ ?_⟩
      obtain ⟨q, rfl⟩ := (List.cons_prefix_cons.mp hprefix).2
      exact he (hbelow q (by rintro rfl; exact hne (List.append_nil ws)))

/-! ### Steps -/

/-- The roots stay, and each trie mirrors its disk. -/
theorem Mirrored.next {st' : NsState} {w' : World} (h : Mirrored c)
    (hlen : st'.roots.length = c.naming.roots.length)
    (hindex : st'.storageServerIndex = c.naming.storageServerIndex) (hrests : w'.Rests)
    (hroot : ∀ i, i < c.naming.roots.length →
      (w'.servers i).rootPath = (c.world.servers i).rootPath)
    (hmirrors : ∀ (i : Nat) (n : TrieNode), st'.roots[i]? = some n → Mirrors n (w'.servers i))
    (hcache : ∀ e ∈ st'.cache, Cached c e) : Mirrored ⟨st', w'⟩ := by
  have hname : ∀ i, i < c.naming.roots.length →
      rootName (w'.servers i) = rootName (c.world.servers i) := by
    intro i hi
    rw [rootName, hroot i hi, rootName]
  refine ⟨fun i hi ↦ ?_, fun i j hi hj heq ↦ ?_, hmirrors, fun e he ↦ ?_, ?_, hrests⟩
  · simp only [hlen] at hi
    exact (h.proper i hi).of_rootPath (hroot i hi)
  · simp only [hlen] at hi hj
    rw [hname i hi, hname j hj] at heq
    exact h.distinct i j hi hj heq
  · obtain ⟨vs, hvs, hkey, hlt, hhead⟩ := hcache e he
    refine ⟨vs, hvs, hkey, by simpa only [hlen] using hlt, ?_⟩
    rw [hname e.index hlt]
    exact hhead
  · simpa only [hlen, hindex] using h.table

/-- The tables and what the servers export stay, up to the cache. -/
private theorem Mirrored.keep {st' : NsState} {w' : World} (h : Mirrored c)
    (hroots : st'.roots = c.naming.roots)
    (hindex : st'.storageServerIndex = c.naming.storageServerIndex) (hrests : w'.Rests)
    (hkeeps : c.world.Keeps w') (hcache : ∀ e ∈ st'.cache, Cached c e) : Mirrored ⟨st', w'⟩ := by
  have hserver : ∀ i, i < c.naming.roots.length →
      KeepsExport (c.world.servers i) (w'.servers i) := fun i hi ↦ hkeeps i (h.proper i hi)
  refine h.next (by rw [hroots]) hindex hrests (fun i hi ↦ (hserver i hi).rootPath)
    (fun i n hn ↦ ?_) hcache
  rw [hroots] at hn
  exact (h.mirrors i n hn).keep (hserver i (List.getElem?_eq_some_iff.mp hn).1)

/-- Behind an entry command: nothing but the cache has changed, or the server has carried the
command out and its trie follows. -/
inductive EntryOutcome (change : EntryChange) (call : Call) (ws : List Text) (c : Site)
    (st' : NsState) (w' : World) : Prop where
  | kept : st'.roots = c.naming.roots → c.world.Keeps w' →
      (st'.cache = c.naming.cache ∨ isTopPath change.lookup = false ∧
        (st'.cache = c.naming.cacheAfter change.lookup ∨ ∃ i,
          c.naming.resolve change.lookup = some i ∧
          st'.cache = change.cacheOp (c.naming.cacheAfter change.lookup) i)) →
      EntryOutcome change call ws c st' w'
  | done {i : Nat} {n m : TrieNode} : isTopPath change.lookup = false →
      c.naming.resolve change.lookup = some i → c.naming.roots[i]? = some n →
      change.trieOp n = some m → st'.roots = c.naming.roots.set i m →
      st'.cache = change.cacheOp (c.naming.cacheAfter change.lookup) i →
      (∀ j, j ≠ i → Proper (c.world.servers j) → KeepsExport (c.world.servers j) (w'.servers j)) →
      (Proper (c.world.servers i) → Changes call ws (c.world.servers i) (w'.servers i)) →
      EntryOutcome change call ws c st' w'

theorem EntryOutcome.length {change : EntryChange} {st' : NsState} {w' : World}
    (h : EntryOutcome change call ws c st' w') : st'.roots.length = c.naming.roots.length := by
  cases h with
  | kept hroots _ _ => rw [hroots]
  | done _ _ _ _ hroots _ _ _ => simp [hroots]

private theorem restful_of_pings {t : List NsEvent} (h : Pings t) : ∀ e ∈ t, Restful e :=
  fun e he ↦ .inl (h.offLink e he)

private theorem restful_sendClient (m : Text) (ok : Bool) :
    ∀ e ∈ ([⟨.sendClient m, ok⟩] : List NsEvent), Restful e := by
  intro e he
  obtain rfl := List.mem_singleton.mp he
  exact .inl rfl

private theorem restful_append {t₁ t₂ : List NsEvent} (h₁ : ∀ e ∈ t₁, Restful e)
    (h₂ : ∀ e ∈ t₂, Restful e) : ∀ e ∈ t₁ ++ t₂, Restful e :=
  fun e he ↦ (List.mem_append.mp he).elim (h₁ e) (h₂ e)

/-- A refused command leaves the exported folder alone. -/
private theorem handles_refused {v : Verb} {reply : Text} (hv : IsEntry v) (hws : Canonical ws)
    (h : s.Handles (commandLine v.name ws) [reply] s') (hcould : couldNot (cstr reply) = true) :
    KeepsExport s s' := by
  obtain ⟨reply', ok, hreply, hok, hcwd, hroot, heffect⟩ := handles_entry hv hws h
  obtain rfl : reply = reply' := by simpa using hreply
  rw [couldNot, startsWith_cstr (by decide)] at hcould
  rw [couldNot, hcould] at hok
  cases ok with
  | false =>
    refine ⟨hcwd, hroot, fun p _ ↦ ?_⟩
    rw [show s'.disk = s.disk from heffect]
  | true => cases hok

/-- A confirmed command has changed its entry. -/
private theorem handles_confirmed {v : Verb} {reply : Text} {s₀ s₁ : SsState} (hv : IsEntry v)
    (hws : Canonical ws) (h₀ : KeepsExport s₀ s) (h₁ : KeepsExport s' s₁)
    (h : s.Handles (commandLine v.name ws) [reply] s') (hcould : couldNot (cstr reply) = false) :
    Changes v.call ws s₀ s₁ := by
  obtain ⟨reply', ok, hreply, hok, hcwd, hroot, heffect⟩ := handles_entry hv hws h
  obtain rfl : reply = reply' := by simpa using hreply
  rw [couldNot, startsWith_cstr (by decide)] at hcould
  rw [couldNot, hcould] at hok
  cases ok with
  | false => cases hok
  | true => exact ⟨s, s', h₀, heffect, hcwd, hroot, h₁⟩

/-- The commands with which a command is repeated on the backups. -/
private theorem isBackupCommand_of_isEntry {v : Verb} (hv : IsEntry v) (hws : Canonical ws) :
    IsBackupCommand (backupCommand v.name (pathText ws)) := by
  obtain rfl | rfl | rfl | rfl := hv
  · exact ⟨.mkdirb, ws, rfl, hws, rfl⟩
  · exact ⟨.touchb, ws, rfl, hws, rfl⟩
  · exact ⟨.rmb, ws, rfl, hws, rfl⟩
  · exact ⟨.rmdirb, ws, rfl, hws, rfl⟩

private theorem restful_of_replicates {v : Verb} {t : List NsEvent} (hv : IsEntry v)
    (hws : Canonical ws)
    (h : Replicates id (fun _ ↦ some (backupCommand v.name (pathText ws))) t) :
    ∀ e ∈ t, Restful e := by
  intro e he
  obtain he | ⟨b, m, hm, he⟩ := h e he
  · refine .inl ?_
    obtain ⟨o, r⟩ := e
    cases o with
    | ping j => rfl
    | _ => cases he
  · cases hm
    exact .inr ⟨b, _, isBackupCommand_of_isEntry hv hws, he⟩

private theorem handled_properly {i : Nat} {w u : World} {s : SsState}
    (hkeeps : w.Keeps u) (hs : Proper (u.servers i) → KeepsExport (u.servers i) s)
    (hp : Proper (w.servers i)) : KeepsExport (w.servers i) s :=
  (hkeeps i hp).trans (hs ((hkeeps i hp).proper hp))

theorem entryOutcome {change : EntryChange} {v : Verb} {tr : List NsEvent} {st' : NsState}
    {w' : World} (hv : IsEntry v) (hws : Canonical ws)
    (hrun : EntryRun change c.naming (commandLine v.name ws) v.name (pathText ws) tr (some st'))
    (hacc : storage.Accepts c.world tr w') (hrests : c.world.Rests) :
    w'.Rests ∧ st'.storageServerIndex = c.naming.storageServerIndex ∧
      EntryOutcome change v.call ws c st' w' ∧
      (Confirmed tr ∨ st'.roots = c.naming.roots ∧ c.world.Keeps w') := by
  generalize hout : some st' = out at hrun
  cases hrun with
  | invalid _ =>
    cases hout
    obtain ⟨hrests', hkeeps⟩ := hrests.accepts (restful_sendClient _ _) hacc
    exact ⟨hrests', rfl, .kept rfl hkeeps (.inl rfl), .inr ⟨rfl, hkeeps⟩⟩
  | overruns _ _ => cases hout
  | overlong _ _ _ => cases hout
  | unknown htop hl =>
    cases hout
    obtain ⟨hp, -, hf, hc⟩ := exec_lookup hl
    obtain ⟨hrests', hkeeps⟩ := hrests.accepts
      (restful_append (restful_of_pings hp) (restful_sendClient _ _)) hacc
    exact ⟨hrests', storageServerIndex_of_frozen hf,
      .kept (roots_of_frozen hf) hkeeps (.inr ⟨htop, .inl hc⟩),
      .inr ⟨roots_of_frozen hf, hkeeps⟩⟩
  | @down t i st₁ _ htop hl _ =>
    cases hout
    obtain ⟨hp, hk, hf, hc⟩ := exec_lookup hl
    obtain ⟨hrests', hkeeps⟩ := hrests.accepts
      (restful_append (restful_of_pings hp) (restful_sendClient _ _)) hacc
    exact ⟨hrests', storageServerIndex_of_frozen hf,
      .kept (roots_of_frozen hf) hkeeps (.inr ⟨htop, .inr ⟨i, hk.symm, by rw [hc]⟩⟩),
      .inr ⟨roots_of_frozen hf, hkeeps⟩⟩
  | unsent htop hl =>
    -- The connection is open, so the command is sent.
    obtain ⟨hp, -⟩ := exec_lookup hl
    obtain ⟨u, ha₁, ha₂⟩ := hacc.append
    obtain ⟨hrests₁, -⟩ := hrests.accepts (restful_of_pings hp) ha₁
    obtain ⟨u₁, u₂, hs, hr, -⟩ := ha₂.cons
    obtain ⟨hsent, -⟩ := (hrests₁.silent hs).1.forward hr
    cases hsent
  | unanswered htop hl =>
    obtain ⟨hp, -⟩ := exec_lookup hl
    obtain ⟨u, ha₁, ha₂⟩ := hacc.append
    obtain ⟨hrests₁, -⟩ := hrests.accepts (restful_of_pings hp) ha₁
    obtain ⟨_, _, _, _, _, _, hr, -⟩ := hrests₁.exchange hv hws ha₂
    cases hr
  | @refused t i st₁ bytes _ htop hl _ hcould =>
    cases hout
    obtain ⟨hp, hk, hf, hc⟩ := exec_lookup hl
    obtain ⟨u, ha₁, ha₂⟩ := hacc.append
    obtain ⟨hrests₁, hkeeps₁⟩ := hrests.accepts (restful_of_pings hp) ha₁
    obtain ⟨u₁, ha₃, hrests₂, hothers, reply, s, hr, hhandles, hs⟩ := hrests₁.exchange hv hws ha₂
    cases hr
    obtain ⟨hrests₃, hkeeps₃⟩ := hrests₂.accepts (restful_sendClient _ _) ha₃
    have hkeeps : c.world.Keeps w' := by
      intro j hj
      have hkeep : KeepsExport (c.world.servers j) (u₁.servers j) := by
        by_cases hji : j = i
        · subst hji
          exact (handled_properly hkeeps₁ hs hj).trans
            (handles_refused hv hws hhandles hcould)
        · exact (hkeeps₁ j hj).trans (hothers j hji ((hkeeps₁ j hj).proper hj))
      exact hkeep.trans (hkeeps₃ j (hkeep.proper hj))
    exact ⟨hrests₃, storageServerIndex_of_frozen hf,
      .kept (roots_of_frozen hf) hkeeps (.inr ⟨htop, .inr ⟨i, hk.symm, by rw [hc]⟩⟩),
      .inr ⟨roots_of_frozen hf, hkeeps⟩⟩
  | @carriedOut t t₂ i st₁ st₂ bytes _ htop hl _ hcould hrep =>
    obtain ⟨hp, hk, hf, hc⟩ := exec_lookup hl
    obtain ⟨hreplicates, st₃, hst₃, hf₃, hc₃⟩ := exec_replicateCommand hrep
    cases hst₃
    obtain ⟨n, m, hn, hm, hroots, hcache⟩ := updateRoot_eq_some hout.symm
    rw [roots_of_frozen hf₃] at hn hroots
    rw [List.append_assoc] at hacc
    obtain ⟨u, ha₁, ha₂⟩ := hacc.append
    obtain ⟨hrests₁, hkeeps₁⟩ := hrests.accepts (restful_of_pings hp) ha₁
    obtain ⟨u₁, ha₃, hrests₂, hothers, reply, s, hr, hhandles, hs⟩ := hrests₁.exchange hv hws ha₂
    cases hr
    obtain ⟨hrests₃, hkeeps₃⟩ := hrests₂.accepts
      (restful_append (restful_sendClient _ _) (restful_of_replicates hv hws hreplicates)) ha₃
    have hindex : st'.storageServerIndex = c.naming.storageServerIndex := by
      rw [storageServerIndex_updateRoot hout.symm, storageServerIndex_of_frozen hf₃]
      exact storageServerIndex_of_frozen hf
    refine ⟨hrests₃, hindex, .done htop hk.symm (n := n) (m := m) ?_ hm ?_ ?_ (fun j hj hpj ↦ ?_)
      (fun hpi ↦ ?_), .inl ⟨i, bytes, by simp, hcould⟩⟩
    · rw [← roots_of_frozen hf]
      exact hn
    · rw [hroots, ← roots_of_frozen hf]
      rfl
    · rw [hcache, hc₃, ← hc]
    · have hkeep := (hkeeps₁ j hpj).trans (hothers j hj ((hkeeps₁ j hpj).proper hpj))
      exact hkeep.trans (hkeeps₃ j (hkeep.proper hpj))
    · have hkeep := handled_properly hkeeps₁ hs hpi
      obtain ⟨_, _, -, -, hcwd, hroot, -⟩ := handles_entry hv hws hhandles
      have hproper : Proper (u₁.servers i) := (hkeep.proper hpi).of_rootPath hroot
      exact handles_confirmed hv hws hkeep (hkeeps₃ i hproper) hhandles hcould

/-! ### Commands -/

theorem isTopPath_pathText (hws : Canonical ws) : isTopPath (pathText ws) = false := by
  obtain ⟨w, ws', rfl⟩ := List.exists_cons_of_ne_nil hws.ne_nil
  have hne := (hws.names w (by simp)).ne_nil
  simp [isTopPath, pathText, lit, slash, hne]

private theorem isTopWord_pathText (hws : Canonical ws) : isTopWord (pathText ws) = false := by
  have htop := isTopPath_pathText hws
  simp only [isTopPath, Bool.or_eq_false_iff] at htop
  simp [isTopWord, htop.1.1.1.1, htop.1.1.2]

private theorem isListing_commandLine {verb : Text} (hblank : blank ∉ verb) (hne : verb ≠ [])
    (hws : Canonical ws) : isListing (commandLine verb ws) = false := by
  have hwords := words_commandLine hblank hne hws
  have hpath : ∀ t, words (commandLine verb ws) = [lit "ls", t] → pathText ws = t := by
    intro t ht
    rw [hwords] at ht
    simpa using (List.cons.inj ht).2
  have hw : ∀ t, commandLine verb ws = lit "ls " ++ t → blank ∉ t → t ≠ [] → pathText ws = t := by
    intro t ht hb htne
    apply hpath
    rw [ht, words, show lit "ls " ++ t = lit "ls" ++ blank :: t from rfl, tokens_append_cons,
      tokens_of_notMem hb htne]
    rfl
  have htop := isTopPath_pathText hws
  by_contra hlist
  simp only [isListing, Bool.not_eq_false, Bool.or_eq_true, beq_iff_eq] at hlist
  obtain hlist | hlist := hlist
  · have htilde := hw (lit "~") hlist (by decide) (by decide)
    simp [pathText, lit] at htilde
  · rw [hw (lit ".") hlist (by decide) (by decide)] at htop
    revert htop
    decide

/-- The run of a command on a path: the handler of its verb. -/
theorem clientRun_commandLine {verb : Text} {st : NsState} {tr : List NsEvent}
    {out : Option NsState} (hblank : blank ∉ verb) (hne : verb ≠ []) (hws : Canonical ws)
    (hcopy : startsWith (lit "copy") verb = false) (hwrite : startsWith (lit "write") verb = false)
    (h : Exec (processClient st (commandLine verb ws)) tr out) :
    ((verb = lit "mkdir" ∨ verb = lit "touch") ∧
        EntryRun (makeChange (pathText ws)) st (commandLine verb ws) verb (pathText ws) tr out) ∨
      ((verb = lit "rmdir" ∨ verb = lit "rm") ∧
        EntryRun (removeChange (pathText ws)) st (commandLine verb ws) verb (pathText ws) tr out) ∨
      (¬ (verb = lit "mkdir" ∨ verb = lit "touch") ∧ ¬ (verb = lit "rmdir" ∨ verb = lit "rm") ∧
        LocateRun st (pathText ws) tr out) := by
  have hwords := words_commandLine hblank hne hws
  have hargs : ∀ {command path : Text} {rest : List Text},
      words (commandLine verb ws) = command :: path :: rest → verb = command ∧ pathText ws = path := by
    intro command path rest hw
    rw [hwords] at hw
    exact ⟨(List.cons.inj hw).1, (List.cons.inj (List.cons.inj hw).2).1⟩
  have hlist := isListing_commandLine hblank hne hws
  have hverb : ∀ p, blank ∉ p → p ≠ [] → startsWith p verb = false →
      startsWith p (commandLine verb ws) = false := by
    intro p hp hpne hstart
    by_contra hline
    rw [startsWith_of_words hp hpne (Bool.not_eq_false _ ▸ hline) hwords] at hstart
    cases hstart
  have hnocopy := hverb (lit "copy") (by decide) (by decide) hcopy
  have hnowrite := hverb (lit "write") (by decide) (by decide) hwrite
  cases exec_processClient h with
  | listing hl _ => rw [hlist] at hl; cases hl
  | copy _ hc _ => rw [hnocopy] at hc; cases hc
  | pathless _ _ htop =>
    have hpath := htop _ _ _ hwords
    rw [isTopWord_pathText hws] at hpath
    cases hpath
  | writeStops _ _ _ _ hw _ => rw [hnowrite] at hw; cases hw
  | write _ _ _ _ hw _ _ => rw [hnowrite] at hw; cases hw
  | make _ _ hw _ _ hcommand hrun =>
    obtain ⟨rfl, rfl⟩ := hargs hw
    exact .inl ⟨hcommand, hrun⟩
  | remove _ _ hw _ _ hcommand hrun =>
    obtain ⟨rfl, rfl⟩ := hargs hw
    exact .inr (.inl ⟨hcommand, hrun⟩)
  | read _ _ hw _ _ hmake hremove hrun =>
    obtain ⟨rfl, rfl⟩ := hargs hw
    exact .inr (.inr ⟨hmake, hremove, hrun⟩)

/-- The step lemma for the commands on entries, given what their handler does to the cache and
to the trie. -/
private theorem Mirrored.entry {change : EntryChange} {call : Call} {st' : NsState} {w' : World}
    (h : Mirrored c) (hrests : w'.Rests)
    (hindex : st'.storageServerIndex = c.naming.storageServerIndex)
    (hout : EntryOutcome change call ws c st' w')
    (hhead : ∀ i, isTopPath change.lookup = false → c.naming.resolve change.lookup = some i →
      i < c.naming.roots.length ∧ ws.head? = some (rootName (c.world.servers i)))
    (hcached : isTopPath change.lookup = false → ∀ e ∈ c.naming.cacheAfter change.lookup, Cached c e)
    (hop : ∀ cache i e, e ∈ change.cacheOp cache i → e ∈ cache ∨ e = ⟨pathText ws, i⟩)
    (hws : Canonical ws)
    (htrie : ∀ i n m, isTopPath change.lookup = false → c.naming.resolve change.lookup = some i →
      c.naming.roots[i]? = some n →
      ws.head? = some (rootName (c.world.servers i)) → change.trieOp n = some m →
      Changes call ws (c.world.servers i) (w'.servers i) → Mirrors m (w'.servers i)) :
    Mirrored ⟨st', w'⟩ := by
  have hcache : ∀ i, isTopPath change.lookup = false → c.naming.resolve change.lookup = some i →
      ∀ e ∈ change.cacheOp (c.naming.cacheAfter change.lookup) i, Cached c e := by
    intro i htop hi e he
    obtain he | rfl := hop _ _ e he
    · exact hcached htop e he
    · exact ⟨ws, hws, rfl, hhead i htop hi⟩
  cases hout with
  | kept hroots hkeeps hst =>
    refine h.keep hroots hindex hrests hkeeps (fun e he ↦ ?_)
    obtain hst | ⟨htop, hst | ⟨i, hi, hst⟩⟩ := hst
    · exact h.cache e (hst ▸ he)
    · exact hcached htop e (hst ▸ he)
    · exact hcache i htop hi e (hst ▸ he)
  | @done i n m htop hi hn hm hroots hst hothers hchange =>
    obtain ⟨hlt, hroot⟩ := hhead i htop hi
    have hchanges := hchange (h.proper i hlt)
    have hpre : [rootName (c.world.servers i)] <+: ws := prefix_of_head hroot
    refine h.next (by simp [hroots]) hindex hrests (fun j hj ↦ ?_) (fun j n' hn' ↦ ?_)
      (fun e he ↦ hcache i htop hi e (hst ▸ he))
    · by_cases hji : j = i
      · subst hji
        exact (hchanges.spec hpre).2.1
      · exact (hothers j hji (h.proper j hj)).rootPath
    · rw [hroots, List.getElem?_set] at hn'
      split at hn'
      · next hij =>
        subst hij
        cases hn'
        exact htrie i n m htop hi hn hroot hm hchanges
      · next hij =>
        have hj := (List.getElem?_eq_some_iff.mp hn').1
        exact (h.mirrors j n' hn').keep (hothers j (Ne.symm hij) (h.proper j hj))

/-- The lookup behind `mkdir` and `touch` is one of the folder, if that is not the top. -/
theorem lookup_makeChange (hws : Canonical ws) :
    ∃ dir, (makeChange (pathText ws)).lookup = pathText dir ∧ dir = ws.dropLast ∧
      (isTopPath (makeChange (pathText ws)).lookup = false → Canonical dir) := by
  obtain ⟨dir, name, rfl⟩ : ∃ dir name, ws = dir ++ [name] :=
    ⟨ws.dropLast, ws.getLast hws.ne_nil, (List.dropLast_append_getLast hws.ne_nil).symm⟩
  have hlookup : (makeChange (pathText (dir ++ [name]))).lookup = pathText dir := by
    simp only [makeChange]
    rw [pathText_concat, beforeLast_append_cons (hws.names name (by simp)).noSlash]
  refine ⟨dir, hlookup, List.dropLast_concat.symm, fun htop ↦ ?_⟩
  have hdir : dir ≠ [] := by
    rintro rfl
    rw [hlookup] at htop
    revert htop
    decide
  refine ⟨⟨fun w hw ↦ hws.names w (by simp [hw]), ?_⟩, hdir, fun w hw ↦ hws.noBlank w (by simp [hw])⟩
  have hshort := hws.short
  rw [List.length_append] at hshort
  omega

/-- The path of a `mkdir` or `touch` starts with the root of the server of its folder. -/
theorem Mirrored.make_head (h : Mirrored c) (hws : Canonical ws) {i : Nat}
    (htop : isTopPath (makeChange (pathText ws)).lookup = false)
    (hi : c.naming.resolve (makeChange (pathText ws)).lookup = some i) :
    i < c.naming.roots.length ∧ ws.head? = some (rootName (c.world.servers i)) := by
  obtain ⟨dir, hlookup, hdrop, hcanonical⟩ := lookup_makeChange hws
  have hdir := hcanonical htop
  rw [hlookup] at hi
  obtain ⟨hlt, hhead⟩ := h.resolve hdir hi
  refine ⟨hlt, ?_⟩
  rw [← List.dropLast_append_getLast hws.ne_nil, ← hdrop, List.head?_append_of_ne_nil _ hdir.ne_nil]
  exact hhead

/-- An entry that was made, or not, leaves the tries as mirrors. -/
theorem Mirrored.made {call : Call} {st' : NsState} {w' : World} (h : Mirrored c)
    (hmakes : call.makes = true) (hws : Canonical ws) (hrests : w'.Rests)
    (hindex : st'.storageServerIndex = c.naming.storageServerIndex)
    (hout : EntryOutcome (makeChange (pathText ws)) call ws c st' w')
    (hroom : ∀ i, c.naming.resolve (makeChange (pathText ws)).lookup = some i →
      i < c.naming.roots.length → Roomy (w'.servers i)) : Mirrored ⟨st', w'⟩ := by
  obtain ⟨dir, hlookup, hdrop, hcanonical⟩ := lookup_makeChange hws
  refine h.entry hrests hindex hout (fun i htop hi ↦ h.make_head hws htop hi)
    (fun htop e he ↦ ?_) (fun cache i e he ↦ mem_addToCache he) hws
    (fun i n m htop hi hn hhead hm hchange ↦ ?_)
  · rw [hlookup] at he
    exact h.cacheAfter (hcanonical htop) he
  · have hlt := (List.getElem?_eq_some_iff.mp hn).1
    exact (h.mirrors i n hn).make hchange hmakes hws hhead (hdrop ▸ (hcanonical htop).ne_nil)
      (hroom i hi hlt) hm

/-- An entry that was removed, or not, leaves the tries as mirrors. -/
theorem Mirrored.removed {call : Call} {st' : NsState} {w' : World} (h : Mirrored c)
    (hmakes : call.makes = false) (hws : Canonical ws) (hrests : w'.Rests)
    (hindex : st'.storageServerIndex = c.naming.storageServerIndex)
    (hout : EntryOutcome (removeChange (pathText ws)) call ws c st' w') : Mirrored ⟨st', w'⟩ :=
  h.entry hrests hindex hout (fun _ _ hi ↦ h.resolve hws hi) (fun _ _ he ↦ h.cacheAfter hws he)
    (fun _ _ _ he ↦ .inl (mem_deleteFromCache he)) hws
    (fun i n _ _ _ hn hhead hm hchange ↦ (h.mirrors i n hn).remove hchange hmakes hws hhead hm)

/-- The tables and the servers stay, up to the cache. -/
theorem Mirrored.looked {st' : NsState} (h : Mirrored c) (hf : st'.frozen = c.naming.frozen)
    (hcache : ∀ e ∈ st'.cache, Cached c e) : Mirrored ⟨st', c.world⟩ :=
  h.keep (roots_of_frozen hf) (storageServerIndex_of_frozen hf) h.rests (.refl _) hcache

private theorem Mirrored.lookup {tr : List NsEvent} {st' : NsState} {w' : World} (h : Mirrored c)
    (hws : Canonical ws) (hrun : LocateRun c.naming (pathText ws) tr (some st'))
    (hacc : storage.Accepts c.world tr w') : Mirrored ⟨st', w'⟩ := by
  obtain ⟨hf, hc⟩ := LocateRun.tables hrun
  obtain ⟨hrests, hkeeps⟩ := h.rests.accepts (fun e he ↦ .inl (hrun.offLink e he)) hacc
  exact h.keep (roots_of_frozen hf) (storageServerIndex_of_frozen hf) hrests hkeeps
    (fun e he ↦ h.cacheAfter hws (hc ▸ he))

/-- The run of a command on an entry: its handler makes the entry or removes it. -/
theorem entryRun_commandLine {v : Verb} {st : NsState} {tr : List NsEvent}
    {out : Option NsState} (hv : IsEntry v) (hws : Canonical ws)
    (h : Exec (processClient st (commandLine v.name ws)) tr out) :
    (v.call.makes = true ∧
        EntryRun (makeChange (pathText ws)) st (commandLine v.name ws) v.name (pathText ws) tr out) ∨
      (v.call.makes = false ∧
        EntryRun (removeChange (pathText ws)) st (commandLine v.name ws) v.name (pathText ws) tr
          out) := by
  have hverb : blank ∉ v.name ∧ v.name ≠ [] ∧ startsWith (lit "copy") v.name = false ∧
      startsWith (lit "write") v.name = false := by
    obtain rfl | rfl | rfl | rfl := hv <;> decide
  obtain ⟨hblank, hne, hcopy, hwrite⟩ := hverb
  obtain ⟨hname, hrun⟩ | ⟨hname, hrun⟩ | ⟨hmake, hremove, -⟩ :=
    clientRun_commandLine hblank hne hws hcopy hwrite h
  · refine .inl ⟨?_, hrun⟩
    obtain rfl | rfl | rfl | rfl := hv
    · rfl
    · rfl
    · exact absurd hname (by decide)
    · exact absurd hname (by decide)
  · refine .inr ⟨?_, hrun⟩
    obtain rfl | rfl | rfl | rfl := hv
    · exact absurd hname (by decide)
    · exact absurd hname (by decide)
    · rfl
    · rfl
  · obtain rfl | rfl | rfl | rfl := hv
    · exact absurd (.inl rfl) hmake
    · exact absurd (.inr rfl) hmake
    · exact absurd (.inr rfl) hremove
    · exact absurd (.inl rfl) hremove

/-- Every command keeps the mirror. -/
theorem Mirrored.step {c' : Site} (h : Mirrored c) (hs : Site.Step c c') : Mirrored c' := by
  cases hs with
  | @command st st' w w' line tr hline hx hacc hroom =>
    cases hline with
    | @entry v ws hv hws =>
      obtain ⟨hmakes, hrun⟩ | ⟨hmakes, hrun⟩ := entryRun_commandLine hv hws hx
      · obtain ⟨hrests, hindex, hout, -⟩ := entryOutcome hv hws hrun hacc h.rests
        exact h.made hmakes hws hrests hindex hout (fun i _ hlt ↦ hroom i (by rwa [hout.length]))
      · obtain ⟨hrests, hindex, hout, -⟩ := entryOutcome hv hws hrun hacc h.rests
        exact h.removed hmakes hws hrests hindex hout
    | @lookup verb ws hblank hne hcopy hwrite hother hws =>
      obtain ⟨hname | hname, -⟩ | ⟨hname | hname, -⟩ | ⟨-, -, hrun⟩ :=
        clientRun_commandLine hblank hne hws hcopy hwrite hx
      · exact absurd hname (hother .mkdir (.inl rfl))
      · exact absurd hname (hother .touch (.inr (.inl rfl)))
      · exact absurd hname (hother .rmdir (.inr (.inr (.inr rfl))))
      · exact absurd hname (hother .rm (.inr (.inr (.inl rfl))))
      · exact Mirrored.lookup h hws hrun hacc

/-- The component lists that are found in the trie of a server, other than the two that are
found in every trie, are the paths that exist below its root. -/
def ShowsDisks (c : Site) : Prop :=
  ∀ (i : Nat) (n : TrieNode), c.naming.roots[i]? = some n → ∀ ws, searchPathHelper ws n = true ↔
    ws = [] ∨ ws = [lit "."] ∨ ∃ p ∈ exported (c.world.servers i), ws = lit "." :: p

/-- The lookup of a canonical path comes back with no server, or with the one whose root the
path starts with. -/
def LeadsToRoots (c : Site) : Prop :=
  ∀ ws, Canonical ws → ∀ tr out, Exec (searchStorageServer c.naming (pathText ws)) tr out →
    ∃ k st', out = some (k, st') ∧ ∀ i, k = some i → i < c.naming.roots.length ∧
      ∀ j, j < c.naming.roots.length →
        (ws.head? = some (rootName (c.world.servers j)) ↔ j = i)

/-- Behind every command, the tries show what exists on the disks, and every lookup leads to the
server of the root. -/
theorem tries_mirror_disks {c : Site} (h : Reachable (Site.Start Clear) Site.Step c) :
    ShowsDisks c ∧ LeadsToRoots c := by
  have hmirrored : Mirrored c :=
    h.invariant (I := Mirrored) (fun _ hs ↦ Site.Start.mirrored hs) (fun _ _ hm hs ↦ hm.step hs)
  constructor
  · intro i n hn ws
    have hpaths := (hmirrored.mirrors i n hn).paths
    exact (Set.ext_iff.mp hpaths ws)
  · intro ws hws tr out hx
    have hk : ∀ k, k = c.naming.resolve (pathText ws) → ∀ i, k = some i →
        i < c.naming.roots.length ∧ ∀ j, j < c.naming.roots.length →
          (ws.head? = some (rootName (c.world.servers j)) ↔ j = i) := by
      rintro k rfl i hi
      obtain ⟨hlt, hhead⟩ := hmirrored.resolve hws hi
      refine ⟨hlt, fun j hj ↦ ⟨fun hhead' ↦ ?_, ?_⟩⟩
      · exact hmirrored.distinct j i hj hlt (Option.some.inj (hhead'.symm.trans hhead))
      · rintro rfl
        exact hhead
    obtain ⟨hover, -⟩ | ⟨-, -, hr, -, rfl⟩ | ⟨j, r, -, -, -, rfl⟩ := exec_searchStorageServer hx
    · exact absurd hover (hmirrored.not_overruns hws)
    · exact ⟨_, _, rfl, hk _ hr.symm⟩
    · exact ⟨_, _, rfl, hk _ rfl⟩

/-! ### One server -/

/-- The disk of a server that works at the top and exports the empty folder `./s`. -/
def emptyDisk : FileSystem :=
  FileSystem.empty.put [] (lit "s") .folder rfl (by decide)

/-- The same disk with an entry in the folder. -/
def entryDisk (name : Text) (e : Entry) : FileSystem :=
  emptyDisk.put [lit "s"] name e rfl (by simp [emptyDisk, FileSystem.put, FileSystem.empty])

theorem entry_emptyDisk (p : List Text) :
    emptyDisk.entry p = if p = [lit "s"] ∨ p = [] then some .folder else none := by
  simp only [emptyDisk, FileSystem.put, FileSystem.empty, Function.update, List.nil_append]
  by_cases h : p = [lit "s"] <;> simp [h]

theorem entry_entryDisk (name : Text) (e : Entry) (p : List Text) :
    (entryDisk name e).entry p = if p = [lit "s", name] then some e else emptyDisk.entry p := by
  simp only [entryDisk, FileSystem.put, Function.update, List.singleton_append]
  by_cases h : p = [lit "s", name] <;> simp [h]

def smallServer (disk : FileSystem) : SsState := ⟨[], lit "./s", disk, []⟩

theorem rootName_smallServer (disk : FileSystem) : rootName (smallServer disk) = lit "s" := rfl

theorem roomy_entryDisk (name : Text) (e : Entry) : Roomy (smallServer (entryDisk name e)) := by
  intro p hp
  have hsub : (smallServer (entryDisk name e)).disk.names ([] ++ p) ⊆ {name} := by
    intro w hw
    rw [rootName_smallServer] at hp
    obtain ⟨q, rfl⟩ := hp
    change (entryDisk name e).entry ([lit "s"] ++ q ++ [w]) ≠ none at hw
    rw [entry_entryDisk, entry_emptyDisk] at hw
    split at hw
    · next heq =>
      have hlast := congrArg List.getLast? heq
      rw [List.getLast?_concat] at hlast
      exact Option.some.inj hlast
    · simp at hw
  refine (Set.encard_le_encard hsub).trans ?_
  rw [Set.encard_singleton]
  exact_mod_cast (by decide : 1 ≤ maxFolders)

theorem announces_emptyDisk : Announces (smallServer emptyDisk) .done where
  root := by decide
  name := ⟨by decide, by decide, by decide, by decide, by decide⟩
  holds := by
    refine ⟨by decide, fun p e hp ↦ ?_⟩
    change emptyDisk.entry ([lit "s"] ++ p) = some e ↔ _
    simp [entry_emptyDisk, Listing.Has, hp]
  visible := by simp [Listing.Has]
  roomy := by
    intro p hp
    have hnone : (smallServer emptyDisk).disk.names ([] ++ p) = ∅ := by
      obtain ⟨q, rfl⟩ := hp
      ext w
      simp [smallServer, FileSystem.names, entry_emptyDisk]
    rw [show (smallServer emptyDisk).cwd = [] from rfl, hnone]
    simp

theorem holds_entryDisk (name : Text) :
    (entryDisk name (.file [])).Holds [lit "s"] (.file name [] .done) := by
  refine ⟨by simp [entry_entryDisk, entry_emptyDisk], fun p e hp ↦ ?_⟩
  rw [entry_entryDisk, entry_emptyDisk]
  by_cases h : p = [name]
  · subst h
    simp [Listing.Has, eq_comm]
  · simp [Listing.Has, h, hp]

private theorem announces_entryDisk {name : Text} (hname : isHidden name = false) :
    Announces (smallServer (entryDisk name (.file []))) (.file name [] .done) where
  root := rfl
  name := announces_emptyDisk.name
  holds := holds_entryDisk name
  visible := by
    rintro p e (⟨rfl, -⟩ | h)
    · simpa using hname
    · exact h.elim
  roomy := roomy_entryDisk name _

/-- A world in which only the first server is in use. -/
def singleWorld (l : Link) (s : SsState) : World :=
  ⟨.single l, Function.update (fun _ ↦ smallServer emptyDisk) 0 s⟩

theorem takes_singleWorld {l : Link} {s s' : SsState} {k : Nat} {msg : Text}
    {rest : List (Nat × Text)} {out : List Text} (hin : l.inbox = (k, msg) :: rest)
    (h : s.Handles msg out s') : (singleWorld l s).Takes 0 (singleWorld { l with
      inbox := rest, outbox := l.outbox ++ out.map (Prod.mk k) } s') := by
  refine ⟨k, msg, rest, out, s', ?_, ?_, ?_⟩
  · simpa [singleWorld] using hin
  · simpa [singleWorld] using h
  · simp [singleWorld, Links.single]

theorem start_of_register {ok : SsState → Listing → Prop} {s : SsState} {l : Listing}
    {ip : Text} {socket portClient : Nat} {tr : List NsEvent} {st : NsState} (hann : Announces s l)
    (hok : ok s l)
    (h : Exec (registerStorageServer .initial socket ip portClient (indexOf s l)) tr (some st)) :
    Site.Start ok ⟨st, singleWorld .idle s⟩ := by
  refine ⟨[s], .register .none hann hok (by simp) (by decide) h, fun i ↦ ?_, fun i s' hs' ↦ ?_⟩
  · rw [singleWorld, Links.single_idle]
    exact ⟨rfl, rfl, rfl⟩
  · cases i with
    | zero =>
      cases hs'
      simpa [singleWorld] using KeepsExport.refl s
    | succ i => simp at hs'

theorem handles_mkdir : (smallServer emptyDisk).Handles (lit "mkdir ./s/a")
    [lit "Created folder @ ./s/a\n"] (smallServer (entryDisk (lit "a") .folder)) := by
  have hround : (entryRound (lit "./s") [] (lit "mkdir ./s/a")).bind
      (fun round ↦ round.replay [⟨⟨.mkdir, lit "./s/a"⟩, true⟩]) =
        some (some ([lit "Created folder @ ./s/a\n"], [])) := by
    decide +kernel
  obtain ⟨round, hsome, hreplay⟩ := Option.bind_eq_some_iff.mp hround
  refine ⟨round, _, [], entryDisk (lit "a") .folder, hsome, exec_of_replay hreplay,
    .event ?_ .nil, rfl⟩
  have hresolve : resolveFrom [] (lit "./s/a") = [lit "s", lit "a"] := by decide
  change Call.Effect (resolveFrom [] (lit "./s/a")) emptyDisk _ .mkdir
  rw [hresolve]
  exact ⟨by decide, rfl⟩

theorem indexed_smallServer : Indexed [lit "s"] := by
  refine ⟨⟨?_, by decide⟩, by decide, by unfold Indexable; decide⟩
  intro w hw
  obtain rfl := List.mem_singleton.mp hw
  exact ⟨announces_emptyDisk.name, by decide⟩

theorem canonical_folder : Canonical [lit "s", lit "a"] := by
  refine ⟨⟨?_, by decide⟩, by decide, by decide⟩
  intro w hw
  simp only [List.mem_cons, List.not_mem_nil, or_false] at hw
  obtain rfl | rfl := hw
  · exact ⟨announces_emptyDisk.name, by decide⟩
  · exact ⟨⟨by decide, by decide, by decide, by decide, by decide⟩, by decide⟩

/-- The request of a client for the folder `./s/a`. -/
def mkdirLine : Text := commandLine Verb.mkdir.name [lit "s", lit "a"]

/-- What the naming server does for it. -/
def mkdirTrace : List NsEvent :=
  [⟨.ping 0, PingResult.up⟩, ⟨.forward 0 mkdirLine, true⟩,
    ⟨.recvServer 0, some (lit "Created folder @ ./s/a\n")⟩,
    ⟨.sendClient (lit "Created folder @ ./s/a\n"), true⟩]

theorem clear_emptyDisk : Clear (smallServer emptyDisk) .done :=
  ⟨indexed_smallServer, by simp [Listing.Has], by decide⟩

/-- A server that exports the empty folder `./s` registers and creates `./s/a` for a client. -/
theorem reachable_mkdir {st st' : NsState}
    (hst : Exec (registerStorageServer .initial 4 (lit "10.0.0.1") 4000
      (indexOf (smallServer emptyDisk) .done)) [] (some st))
    (hst' : Exec (processClient st mkdirLine) mkdirTrace (some st'))
    (hlen : st'.roots.length = 1) :
    ∃ w, Reachable (Site.Start Clear) Site.Step ⟨st', w⟩ ∧
      w.servers 0 = smallServer (entryDisk (lit "a") .folder) := by
  have hstart := start_of_register announces_emptyDisk clear_emptyDisk hst
  obtain ⟨w, hacc, hserver⟩ : ∃ w, storage.Accepts (singleWorld .idle (smallServer emptyDisk))
      mkdirTrace w ∧ w.servers 0 = smallServer (entryDisk (lit "a") .folder) := by
    refine ⟨_, .event ⟨rfl, rfl, rfl⟩
      (.event (show storage.respond _ _ _ (singleWorld _ _) from
        ⟨Links.on_single (Link.send_of_isOpen rfl), rfl, trivial⟩)
      (.silent ⟨0, takes_singleWorld rfl handles_mkdir⟩
      (.event (show storage.respond _ _ _ (singleWorld _ _) from
        ⟨Links.on_single (.inl ⟨1, _, [], rfl, rfl, rfl⟩), rfl, trivial⟩)
      (.event ⟨rfl, rfl, trivial⟩ .nil)))), rfl⟩
  refine ⟨w, .next (.start hstart) (.command (.entry (.inl rfl) canonical_folder) hst' hacc
    (fun i hi ↦ ?_)), hserver⟩
  obtain rfl : i = 0 := by omega
  rw [hserver]
  exact roomy_entryDisk _ _

/-- One server exports the folder `./s`, in which a client has made `a`. -/
theorem tries_mirror_disks_after_mkdir :
    ∃ c, Reachable (Site.Start Clear) Site.Step c ∧
      [lit "s", lit "a"] ∈ exported (c.world.servers 0) ∧ ShowsDisks c ∧ LeadsToRoots c := by
  have hrun : ((registerStorageServer .initial 4 (lit "10.0.0.1") 4000
      (indexOf (smallServer emptyDisk) .done)).replay []).join.bind (fun st ↦
        ((processClient st mkdirLine).replay mkdirTrace).join.map (fun st' ↦ st'.roots.length)) =
      some 1 := by
    decide +kernel
  obtain ⟨st, hst, hrest⟩ := Option.bind_eq_some_iff.mp hrun
  obtain ⟨st', hst', hlen⟩ := Option.map_eq_some_iff.mp hrest
  obtain ⟨w, hreach, hserver⟩ := reachable_mkdir
    (exec_of_replay (Option.join_eq_some_iff.mp hst))
    (exec_of_replay (Option.join_eq_some_iff.mp hst')) hlen
  refine ⟨_, hreach, ⟨⟨[lit "a"], ?_⟩, ?_⟩, tries_mirror_disks hreach⟩
  · rw [hserver]
    rfl
  · rw [hserver]
    change (entryDisk (lit "a") .folder).entry [lit "s", lit "a"] ≠ none
    simp [entry_entryDisk]

/-- The registration of the server, and whether its trie then has the path `./s/name`. -/
private def registersWith (s : SsState) (l : Listing) (name : Text) : Option Bool :=
  ((registerStorageServer .initial 4 (lit "10.0.0.1") 4000 (indexOf s l)).replay []).join.bind
    (fun st ↦ st.roots[0]?.map (searchPathHelper [lit ".", lit "s", name]))

private theorem lost_name {name : Text} (hname : isHidden name = false)
    (h : registersWith (smallServer (entryDisk name (.file []))) (.file name [] .done) name = some false) :
    ∃ c, Reachable (Site.Start fun _ l ↦ l = .file name [] .done) Site.Step c ∧ ¬ ShowsDisks c := by
  obtain ⟨st, hst, hrest⟩ := Option.bind_eq_some_iff.mp h
  obtain ⟨n, hn, hsearch⟩ := Option.map_eq_some_iff.mp hrest
  have hx := exec_of_replay (Option.join_eq_some_iff.mp hst)
  refine ⟨_, .start (start_of_register (announces_entryDisk hname) rfl hx), fun hshows ↦ ?_⟩
  have hfound := (hshows 0 n hn [lit ".", lit "s", name]).mpr (.inr (.inr
    ⟨[lit "s", name], ⟨⟨[name], rfl⟩, ?_⟩, rfl⟩))
  · rw [hsearch] at hfound
    cases hfound
  · change (entryDisk name (.file [])).entry [lit "s", name] ≠ none
    simp [entry_entryDisk]

/-- Names that a component list cannot hold or that a line of the index cannot carry are not
found: `~`, a name with a newline, and the end marker. -/
theorem unshown_names :
    (¬ ∀ c, Reachable (Site.Start fun _ _ ↦ True) Site.Step c → ShowsDisks c ∧ LeadsToRoots c) ∧
      ∀ name ∈ [lit "~", lit "a\nb", finishedIndexing],
        ∃ c, Reachable (Site.Start fun _ l ↦ l = .file name [] .done) Site.Step c ∧
          ¬ ShowsDisks c := by
  have hlost : ∀ name ∈ [lit "~", lit "a\nb", finishedIndexing],
      ∃ c, Reachable (Site.Start fun _ l ↦ l = .file name [] .done) Site.Step c ∧
        ¬ ShowsDisks c := by
    intro name hname
    simp only [List.mem_cons, List.not_mem_nil, or_false] at hname
    obtain rfl | rfl | rfl := hname
    · exact lost_name (by decide) (by decide +kernel)
    · exact lost_name (by decide) (by decide +kernel)
    · exact lost_name (by decide) (by decide +kernel)
  refine ⟨fun hall ↦ ?_, hlost⟩
  obtain ⟨c, hreach, hnot⟩ := hlost (lit "~") (by simp)
  refine hnot (hall c ?_).1
  refine hreach.mono (fun c hc ↦ ?_) (fun _ _ hs ↦ hs)
  obtain ⟨ss, hreg, hrest⟩ := hc
  exact ⟨ss, hreg.mono (fun _ _ _ ↦ trivial), hrest⟩

end NetworkFileSystem.Cluster
