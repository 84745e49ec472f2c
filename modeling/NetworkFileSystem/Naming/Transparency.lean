import NetworkFileSystem.Naming.Reach
import NetworkFileSystem.Base.Transition

/-!
# When the lookup cache agrees with the tries

`naming_server.c:295–332,458–519,849–906`. Entries are put into the cache before the
storage server has answered, and taken out under the exact spelling of a path, while the
tries change with the answer and for all spellings. `CacheSafe` says which commands and
answers leave no stale entry; along runs of such commands every lookup answers as the
tries do.
-/

namespace NetworkFileSystem.Naming

open Base Base.PrefixSet Protocol Trie Prog TrieNode

/-! ### Lookups over changed tries -/

/-- Replacing a trie by one with the same answer to `q` keeps the lookup of `q`. -/
theorem searchInTries_set_of_iff {roots : List TrieNode} {i k : Nat} {n m : TrieNode} {q : Text}
    (hn : roots[i]? = some n) (hk : searchInTries roots q = some (some k))
    (h : components q ∈ m.paths ↔ components q ∈ n.paths) :
    searchInTries (roots.set i m) q = some (some k) := by
  have hlen := length_of_searchInTries hk
  rw [searchInTries_iff hlen] at hk ⊢
  simp only [List.getElem?_set]
  grind

/-- A trie that loses paths cannot take over a lookup from another one. -/
theorem searchInTries_set_of_imp {roots : List TrieNode} {i k : Nat} {n m : TrieNode} {q : Text}
    (hn : roots[i]? = some n) (hk : searchInTries roots q = some (some k)) (hik : k ≠ i)
    (h : components q ∈ m.paths → components q ∈ n.paths) :
    searchInTries (roots.set i m) q = some (some k) := by
  have hlen := length_of_searchInTries hk
  rw [searchInTries_iff hlen] at hk ⊢
  simp only [List.getElem?_set]
  grind

/-- A trie that gains `q` before all others that have it takes over the lookup. -/
theorem searchInTries_set_of_mem {roots : List TrieNode} {i : Nat} {n m : TrieNode} {q : Text}
    (hlen : (components q).length < maxPath) (hn : roots[i]? = some n)
    (hm : components q ∈ m.paths)
    (hbefore : ∀ j < i, ∀ r, roots[j]? = some r → components q ∉ r.paths) :
    searchInTries (roots.set i m) q = some (some i) := by
  rw [searchInTries_iff hlen]
  simp only [List.getElem?_set]
  grind

/-- A further trie at the end takes over no lookup. -/
theorem searchInTries_append {roots : List TrieNode} {k : Nat} {q : Text} (m : TrieNode)
    (hk : searchInTries roots q = some (some k)) :
    searchInTries (roots ++ [m]) q = some (some k) := by
  have hlen := length_of_searchInTries hk
  rw [searchInTries_iff hlen] at hk ⊢
  simp only [List.getElem?_append]
  grind

/-! ### Coherence -/

/-- Every cache entry carries the index that the tries answer for its key. -/
def NsState.Coherent (st : NsState) : Prop :=
  ∀ e ∈ st.cache, searchInTries st.roots e.key = some (some e.index)

/-- Over a coherent cache a lookup answers as the tries do. -/
theorem NsState.Coherent.resolve {st : NsState} (h : st.Coherent) {path : Text} {k : Nat}
    (hk : st.resolve path = some k) : searchInTries st.roots path = some (some k) := by
  unfold NsState.resolve at hk
  split at hk
  · next index hindex =>
    obtain ⟨e, he, hkey, hmem⟩ := searchCache_eq_some hindex
    rw [he, Option.map_some, Option.some.injEq] at hk
    rw [← hkey, ← hk]
    exact h e hmem
  · exact Option.join_eq_some_iff.mp hk

theorem NsState.Coherent.cacheAfter {st : NsState} (h : st.Coherent) {path : Text}
    {e : CacheEntry} (he : e ∈ st.cacheAfter path) :
    searchInTries st.roots e.key = some (some e.index) := by
  obtain he | ⟨rfl, he⟩ := mem_cacheAfter he
  · exact h e he
  · exact he

theorem LooksUp.coherent {st st' : NsState} (hl : Relation.ReflTransGen LooksUp st st')
    (h : st.Coherent) : st'.Coherent := by
  induction hl with
  | refl => exact h
  | tail _ hstep ih =>
    obtain ⟨hroots, hcache | ⟨path, hcache⟩⟩ := hstep
    · intro e he
      rw [hroots]
      exact ih e (hcache ▸ he)
    · intro e he
      rw [hroots]
      exact ih.cacheAfter (hcache ▸ he)

/-! ### Safe commands -/

/-- A creation below the server `i` of the parent folder. If it is confirmed, the folder has
room for the name and no other server holds the path before or is cached for it; if not, the
path resolves to that server anyway. -/
def MakeSafe (st : NsState) (path : Text) (tr : List NsEvent) : Prop :=
  ∀ i n, isTopPath (beforeLast slash path) = false →
    searchInTries st.roots (beforeLast slash path) = some (some i) → st.roots[i]? = some n →
    (Confirmed tr →
      (components path ∈ n.paths ∨
        (children n.paths (components (beforeLast slash path))).ncard < maxFolders) ∧
      (∀ j < i, ∀ r, st.roots[j]? = some r → components path ∉ r.paths) ∧
      ∀ e ∈ st.cache, components e.key = components path → e.index = i) ∧
    (¬ Confirmed tr → searchInTries st.roots path = some (some i))

/-- A removal. If it is confirmed, the cache has no other key at or below the path for the
server that the path resolves to. -/
def RemoveSafe (st : NsState) (path : Text) (tr : List NsEvent) : Prop :=
  ∀ i, isTopPath path = false → searchInTries st.roots path = some (some i) → Confirmed tr →
    ∀ e ∈ deleteFromCache st.cache path, components path <+: components e.key → e.index ≠ i

/-- A copy. The index that the receiving server reports has a cached key, or one of the two
paths of the command, exactly if the server's trie has it. -/
def CopySafe (st : NsState) (src dest : Text) (tr : List NsEvent) : Prop :=
  ∀ j segments n root finished, (⟨.recvIndex j, segments⟩ : NsEvent) ∈ tr →
    indexHelper segments [] (createNode (lit ".")) = some (root, finished) →
    st.roots[j]? = some n →
    ∀ key ∈ src :: dest :: st.cache.map CacheEntry.key,
      components key ∈ root.paths ↔ components key ∈ n.paths

/-- The commands and answers after which no stale entry is left. Commands of other verbs are
always safe. -/
def CacheSafe (st : NsState) (line : Text) (tr : List NsEvent) : Prop :=
  (∀ command path rest, words line = command :: path :: rest →
    ((command = lit "mkdir" ∨ command = lit "touch") → MakeSafe st path tr) ∧
    ((command = lit "rmdir" ∨ command = lit "rm") → RemoveSafe st path tr)) ∧
  ∀ verb src dest rest, words line = verb :: src :: dest :: rest →
    startsWith (lit "copy") line = true → CopySafe st src dest tr

/-- Creating an entry in a folder with room adds its components and nothing else. -/
theorem paths_of_made {path : Text} {n m : TrieNode} (hn : n.Distinct)
    (hm : addPathToTrie path n = some m) (hparent : components (beforeLast slash path) ∈ n.paths)
    (hroom : components path ∈ n.paths ∨
      (children n.paths (components (beforeLast slash path))).ncard < maxFolders) :
    m.paths = insert (components path) n.paths := by
  rw [(addPathToTrie_spec hn hm).2.2]
  by_cases hin : components path ∈ n.paths
  · rw [insertPath_of_mem n.paths_prefixClosed hin, Set.insert_eq_of_mem hin]
  · obtain he | ⟨name, he⟩ := components_beforeLast path
    · exact absurd (he ▸ hparent) hin
    · rw [he] at hin hroom ⊢
      exact insertPath_snoc n.paths_prefixClosed hparent hin (hroom.resolve_left hin)

private theorem coherent_of_made {st st' : NsState} {path : Text} {tr : List NsEvent}
    (hd : st.DistinctRoots) (h : st.Coherent) (hsafe : MakeSafe st path tr)
    (hr : EntryResult (makeChange path) st tr st') : st'.Coherent := by
  cases hr with
  | invalid hroots hcache =>
    intro e he
    rw [hroots]
    exact h e (hcache ▸ he)
  | unknown hroots _ hcache =>
    intro e he
    rw [hroots]
    exact h.cacheAfter (hcache ▸ he)
  | @failed i htop hk hroots hcache hno =>
    have hfound := h.resolve hk
    obtain ⟨⟨n, hn, -⟩, -⟩ := (searchInTries_iff (length_of_searchInTries hfound) i).mp hfound
    intro e he
    rw [hroots]
    rw [hcache] at he
    obtain he | rfl := mem_addToCache he
    · exact h.cacheAfter he
    · exact (hsafe i n htop hfound hn).2 hno
  | @done i n m htop hk hn hm hroots hcache hyes =>
    have hfound := h.resolve hk
    obtain ⟨⟨n', hn', hparent⟩, -⟩ :=
      (searchInTries_iff (length_of_searchInTries hfound) i).mp hfound
    cases hn'.symm.trans hn
    obtain ⟨hroom, hbefore, hsame⟩ := (hsafe i n htop hfound hn).1 hyes
    have hpaths := paths_of_made (hd i n hn) hm hparent hroom
    have hlen := (addPathToTrie_spec (hd i n hn) hm).1
    intro e he
    rw [hroots]
    rw [hcache] at he
    -- The new path is found at `i`; every other key is found where it was.
    have hnew : ∀ q : Text, components q = components path →
        searchInTries (st.roots.set i m) q = some (some i) := by
      intro q hq
      exact searchInTries_set_of_mem (hq ▸ hlen) hn (by rw [hq, hpaths]; exact Set.mem_insert _ _)
        (by rw [hq]; exact hbefore)
    obtain he | rfl := mem_addToCache he
    · have hkey := h.cacheAfter he
      by_cases hcomp : components e.key = components path
      · have hi : e.index = i := by
          obtain he | ⟨hlook, he⟩ := mem_cacheAfter he
          · exact hsame e he hcomp
          · exact Option.some.inj (Option.some.inj (he.symm.trans hfound))
        rw [hi]
        exact hnew e.key hcomp
      · refine searchInTries_set_of_iff hn hkey ?_
        rw [hpaths, Set.mem_insert_iff]
        simp [hcomp]
    · exact hnew path rfl

/-- Deleting the key of the last entry takes an earlier entry of that key if there is one. -/
private theorem mem_deleteFromCache_append {l : List CacheEntry} {x e : CacheEntry}
    (h : e ∈ deleteFromCache (l ++ [x]) x.key) :
    e ∈ l ∨ (e = x ∧ ∃ y ∈ l, y.key = x.key) := by
  unfold deleteFromCache searchCache at h
  rw [List.findIdx?_append] at h
  cases hl : l.findIdx? (fun e ↦ e.key == x.key) with
  | some c =>
    simp only [hl, Option.some_or] at h
    obtain h | h := List.mem_append.mp (List.mem_of_mem_eraseIdx h)
    · exact .inl h
    · obtain ⟨y, -, hkey, hy⟩ := searchCache_eq_some (show searchCache l x.key = some c from hl)
      exact .inr ⟨List.mem_singleton.mp h, y, hy, hkey⟩
  | none =>
    simp only [hl, Option.none_or] at h
    have hx : List.findIdx? (fun e : CacheEntry ↦ e.key == x.key) [x] = some 0 := by simp
    rw [hx] at h
    simp only [Option.map_some, Nat.zero_add, List.eraseIdx_append_of_length_le (Nat.le_refl _),
      Nat.sub_self] at h
    exact .inl (by simpa using h)

/-- In a coherent cache, looking a path up before deleting it leaves the entries that deleting
it alone would leave. -/
private theorem mem_deleteFromCache_cacheAfter {st : NsState} (h : st.Coherent) {path : Text}
    {e : CacheEntry} (he : e ∈ deleteFromCache (st.cacheAfter path) path) :
    e ∈ deleteFromCache st.cache path := by
  unfold NsState.cacheAfter at he
  cases hc : searchCache st.cache path with
  | some c =>
    obtain ⟨x, hx, hkey, hmem⟩ := searchCache_eq_some hc
    have hdel : deleteFromCache st.cache path = st.cache.eraseIdx c := by
      simp [deleteFromCache, hc]
    rw [hdel]
    simp only [hc, moveToBack, hx, Option.toList_some] at he
    subst hkey
    obtain he | ⟨rfl, y, hy, hykey⟩ := mem_deleteFromCache_append he
    · exact he
    · -- The other entry of the same key is equal, for both carry the index of the tries.
      have hindex : y.index = e.index := by
        have hyk := h y (List.mem_of_mem_eraseIdx hy)
        rw [hykey, h e hmem] at hyk
        exact (Option.some.inj (Option.some.inj hyk)).symm
      have hye : y = e := by
        cases y
        cases e
        simp_all
      exact hye ▸ hy
  | none =>
    have hdel : deleteFromCache st.cache path = st.cache := by
      simp [deleteFromCache, hc]
    rw [hdel]
    simp only [hc] at he
    split at he
    · next found hfound =>
      unfold addToCache at he
      have hsub : ∀ x ∈ (if st.cache.length = cacheCapacity then evictLru st.cache else st.cache),
          x ∈ st.cache := by
        intro x hx
        split_ifs at hx
        · exact List.mem_of_mem_tail hx
        · exact hx
      obtain he | ⟨-, y, hy, hykey⟩ := mem_deleteFromCache_append (x := ⟨path, found⟩) he
      · exact hsub e he
      · have hnone := List.findIdx?_eq_none_iff.mp hc y (hsub y hy)
        simp [hykey] at hnone
    · exact mem_deleteFromCache he

private theorem coherent_of_removed {st st' : NsState} {path : Text} {tr : List NsEvent}
    (hd : st.DistinctRoots) (h : st.Coherent) (hsafe : RemoveSafe st path tr)
    (hr : EntryResult (removeChange path) st tr st') : st'.Coherent := by
  cases hr with
  | invalid hroots hcache =>
    intro e he
    rw [hroots]
    exact h e (hcache ▸ he)
  | unknown hroots _ hcache =>
    intro e he
    rw [hroots]
    exact h.cacheAfter (hcache ▸ he)
  | failed _ _ hroots hcache _ =>
    intro e he
    rw [hroots]
    rw [hcache] at he
    exact h.cacheAfter (mem_deleteFromCache he)
  | @done i n m htop hk hn hm hroots hcache hyes =>
    have hfound := h.resolve hk
    have hpaths := (deletePath_spec (hd i n hn) hm).2.2.2
    intro e he
    rw [hroots]
    rw [hcache] at he
    have hkey := h.cacheAfter (mem_deleteFromCache he)
    have hsub : components e.key ∈ m.paths → components e.key ∈ n.paths := by
      rw [hpaths]
      exact mem_deletePath
    by_cases hpre : components path <+: components e.key
    · have hi := hsafe i htop hfound hyes e (mem_deleteFromCache_cacheAfter h he) hpre
      exact searchInTries_set_of_imp hn hkey hi hsub
    · refine searchInTries_set_of_iff hn hkey ⟨hsub, fun hin ↦ ?_⟩
      rw [hpaths]
      unfold PrefixSet.deletePath
      split_ifs
      · exact ⟨hin, hpre⟩
      · exact hin

/-- A safe command keeps the cache coherent. -/
theorem ClientResult.coherent {st st' : NsState} {line : Text} {tr : List NsEvent}
    (hd : st.DistinctRoots) (h : st.Coherent) (hsafe : CacheSafe st line tr)
    (hr : ClientResult st line tr st') : st'.Coherent := by
  cases hr with
  | looked hl => exact LooksUp.coherent hl h
  | made hw hc hr => exact coherent_of_made hd h ((hsafe.1 _ _ _ hw).1 hc) hr
  | removed hw hc hr => exact coherent_of_removed hd h ((hsafe.1 _ _ _ hw).2 hc) hr
  | @copied _ src dest _ st₁ st₂ j segments root _ hw hcopy hr₁ hc₁ hr₂ hc₂ hj hseg hi hroots hcache =>
    have h₁ : st₁.Coherent := LooksUp.coherent (.single ⟨hr₁, .inr ⟨src, hc₁⟩⟩) h
    have hfound := h₁.resolve hj
    obtain ⟨⟨n, hn, -⟩, -⟩ := (searchInTries_iff (length_of_searchInTries hfound) j).mp hfound
    rw [hr₁] at hn
    have hcopysafe := hsafe.2 _ _ _ _ hw hcopy j segments n root _ hseg hi hn
    intro e he
    rw [hroots]
    rw [hcache, hc₂] at he
    have hkey := h₁.cacheAfter he
    rw [hr₁] at hkey
    refine searchInTries_set_of_iff hn hkey (hcopysafe e.key ?_)
    obtain he | ⟨rfl, -⟩ := mem_cacheAfter he
    · rw [hc₁] at he
      obtain he | ⟨rfl, -⟩ := mem_cacheAfter he
      · simp only [List.mem_cons, List.mem_map]
        exact .inr (.inr ⟨e, he, rfl⟩)
      · simp
    · simp

/-! ### Runs -/

/-- A registration, a write notification, or a client command that leaves no stale entry. -/
inductive SafeStep : NsState → NsState → Prop where
  | register {st st' : NsState} {ip : Text} {socket portClient : Nat} {segments : List Text}
      {tr : List NsEvent} :
      Exec (registerStorageServer st socket ip portClient segments) tr (some st') → SafeStep st st'
  | command {st st' : NsState} {line : Text} {tr : List NsEvent} : CacheSafe st line tr →
      Exec (processClient st line) tr (some st') → SafeStep st st'
  | notify {st st' : NsState} {line : Text} {tr : List NsEvent} :
      Exec (listenAsync st line) tr (some st') → SafeStep st st'

/-- After every run of registrations and safe commands the cache is coherent. -/
theorem coherent_of_reachable {st : NsState}
    (h : Reachable (fun s ↦ s = .initial) SafeStep st) : st.DistinctRoots ∧ st.Coherent := by
  refine h.invariant (I := fun s ↦ s.DistinctRoots ∧ s.Coherent) ?_ ?_
  · rintro s rfl
    exact ⟨by simp [NsState.DistinctRoots, NsState.initial, NsState.roots],
      by simp [NsState.Coherent, NsState.initial]⟩
  · rintro s t ⟨hd, hc⟩ hst
    cases hst with
    | register hx =>
      refine ⟨distinctRoots_register hx hd, ?_⟩
      obtain ⟨hcache, hroots | ⟨root, _, -, hroots⟩⟩ := exec_registerStorageServer hx
      · intro e he
        rw [hroots]
        exact hc e (hcache ▸ he)
      · intro e he
        rw [hroots]
        exact searchInTries_append root (hc e (hcache ▸ he))
    | command hsafe hx =>
      have hr := (exec_processClient hx).result
      exact ⟨hr.distinctRoots hd, hr.coherent hd hc hsafe⟩
    | notify hx =>
      have hl := listenAsync_result hx
      exact ⟨LooksUp.distinctRoots hl hd, LooksUp.coherent hl hc⟩

/-- After every run of registrations and safe commands, a lookup that comes back answers what
the search of the tries answers: the cache is transparent. -/
theorem lookup_agrees_with_tries {st : NsState}
    (h : Reachable (fun s ↦ s = .initial) SafeStep st) {path : Text} {tr : List NsEvent}
    {k : Option Nat} {st' : NsState}
    (hx : Exec (searchStorageServer st path) tr (some (k, st'))) :
    searchInTries st.roots path = some k := by
  obtain ⟨-, hc⟩ := coherent_of_reachable h
  obtain ⟨-, -, hout⟩ | ⟨ho, hp, -, -, hout⟩ | ⟨j, r, -, hp, -, hout⟩ :=
    exec_searchStorageServer hx
  · cases hout
  · cases hout
    unfold NsState.LookupOverruns at ho
    unfold NsState.pingTarget at hp
    split at hp
    · cases hp
    · next hcache =>
      cases hs : searchInTries st.roots path with
      | none => exact absurd ⟨hcache, .inl hs⟩ ho
      | some k => simpa [hs] using hp
  · cases hout
    cases hk : st.resolve path with
    | some k => exact hc.resolve hk
    | none =>
      exfalso
      unfold NsState.resolve at hk
      unfold NsState.pingTarget at hp
      split at hk
      · next index hindex =>
        obtain ⟨e, he, -⟩ := searchCache_eq_some hindex
        simp [he] at hk
      · next hindex => simp [hindex, hk] at hp

/-- A server exporting `./s` registers and a client reads from it; then `./s` resolves to it. -/
theorem lookup_agrees_with_tries_after_read :
    ∃ st tr k st', Reachable (fun s ↦ s = .initial) SafeStep st ∧
      Exec (searchStorageServer st (lit "./s")) tr (some (some k, st')) ∧
      searchInTries st.roots (lit "./s") = some (some k) := by
  let run : NsProg (Option Nat × NsState) := do
    let st ← registerStorageServer .initial 4 (lit "10.0.0.1") 4000
      [lit "./s\n@!-Finished Indexing-!@\n"]
    let st ← processClient st (lit "cat ./s")
    searchStorageServer st (lit "./s")
  have hrun : ((run.replay [⟨.ping 0, PingResult.up⟩, ⟨.sendClient (lit "10.0.0.1,4000 "), true⟩,
      ⟨.ping 0, PingResult.up⟩]).map (fun out ↦ out.map Prod.fst)) = some (some (some 0)) := by
    decide +kernel
  obtain ⟨out, hout, hk⟩ := Option.map_eq_some_iff.mp hrun
  obtain ⟨⟨k, st'⟩, rfl, rfl⟩ := Option.map_eq_some_iff.mp hk
  obtain ⟨st₁, _, _, -, h₁, hrest⟩ := exec_bind_some (exec_of_replay hout)
  obtain ⟨st₂, tr₂, tr₃, -, h₂, h₃⟩ := exec_bind_some hrest
  have hsafe : CacheSafe st₁ (lit "cat ./s") tr₂ := by
    have hw : words (lit "cat ./s") = [lit "cat", lit "./s"] := by decide
    refine ⟨?_, ?_⟩
    · intro command path rest hwords
      rw [hw, List.cons.injEq] at hwords
      obtain ⟨rfl, -⟩ := hwords
      exact ⟨fun h ↦ absurd h (by decide), fun h ↦ absurd h (by decide)⟩
    · intro verb src dest rest hwords
      simp [hw] at hwords
  have hreach : Reachable (fun s ↦ s = .initial) SafeStep st₂ :=
    .next (.next (.start rfl) (.register h₁)) (.command hsafe h₂)
  exact ⟨st₂, tr₃, 0, st', hreach, h₃, lookup_agrees_with_tries hreach h₃⟩

/-- A refused `mkdir` leaves its path in the cache: afterwards a lookup answers server 0 for a
path that no trie has. -/
theorem refused_mkdir_stays_cached :
    ¬ ∀ st, Reachable (fun s ↦ s = .initial) NsStep st → ∀ path tr k st',
      Exec (searchStorageServer st path) tr (some (k, st')) →
      searchInTries st.roots path = some k := by
  intro hall
  let run : NsProg (Option Nat × Option (Option Nat)) := do
    let st ← registerStorageServer .initial 4 (lit "10.0.0.1") 4000
      [lit "./s\n@!-Finished Indexing-!@\n"]
    let st ← processClient st (lit "mkdir ./s/a")
    let found ← searchStorageServer st (lit "./s/a")
    pure (found.1, searchInTries st.roots (lit "./s/a"))
  have hrun : run.replay [⟨.ping 0, PingResult.up⟩, ⟨.forward 0 (lit "mkdir ./s/a"), true⟩,
      ⟨.recvServer 0, some (lit "Could not create folder @ ./s/a\n")⟩,
      ⟨.sendClient (lit "Could not create folder @ ./s/a\n"), true⟩,
      ⟨.ping 0, PingResult.up⟩] = some (some (some 0, some none)) := by
    decide +kernel
  obtain ⟨st₁, _, _, -, h₁, hrest⟩ := exec_bind_some (exec_of_replay hrun)
  obtain ⟨st₂, _, _, -, h₂, hrest⟩ := exec_bind_some hrest
  obtain ⟨⟨k, st'⟩, _, _, -, h₃, -, hout⟩ := exec_bind_some hrest
  have hagree := hall st₂ (.next (.next (.start rfl) (.register h₁)) (.command h₂)) _ _ _ _ h₃
  obtain ⟨hk, hs⟩ := Prod.mk.inj (Option.some.inj hout)
  have hk : k = some 0 := hk.symm
  rw [← hs, hk] at hagree
  cases hagree

end NetworkFileSystem.Naming
