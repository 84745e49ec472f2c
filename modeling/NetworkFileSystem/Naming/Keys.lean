import NetworkFileSystem.Base.Transition
import NetworkFileSystem.Naming.Recency

/-!
# The keys of the lookup cache

`naming_server.c:295–332,458–483,849–852`. A lookup searches the cache before it adds an
entry; `mkdir` and `touch` add the new path without a search. A deletion takes out the
first entry with its key only, so it relies on keys that are pairwise distinct.
-/

namespace NetworkFileSystem.Naming

open Base Protocol Trie Prog Recency

/-- No two entries of `cache.queue[0..size-1]` have the same key, and they fit the array. -/
structure DistinctKeys (cache : List CacheEntry) : Prop where
  nodup : (cache.map CacheEntry.key).Nodup
  room : cache.length ≤ cacheCapacity

/-- The entries that `add_to_cache` keeps: all, or all but the first of a full array. -/
def keptEntries (cache : List CacheEntry) : List CacheEntry :=
  if cache.length = cacheCapacity then evictLru cache else cache

/-- If the folder for the new path resolves, its lookup and the eviction leave no entry for the
path itself. -/
def CreationFresh (st : NsState) (path : Text) : Prop :=
  isTopPath (beforeLast slash path) = false → st.resolve (beforeLast slash path) ≠ none →
    path ∉ (keptEntries (st.cacheAfter (beforeLast slash path))).map CacheEntry.key

/-- A command that creates nothing, or creates a path that is not cached. -/
def KeysFresh (st : NsState) (line : Text) : Prop :=
  ∀ command path rest, words line = command :: path :: rest →
    (command = lit "mkdir" ∨ command = lit "touch") → CreationFresh st path

section Cache

variable {cache : List CacheEntry} {key : Text}

theorem length_keptEntries (h : cache.length ≤ cacheCapacity) :
    (keptEntries cache).length < cacheCapacity := by
  unfold keptEntries
  split
  · next hfull =>
    rw [evictLru, List.length_tail, hfull]
    decide
  · next hnot => omega

theorem keptEntries_sublist (cache : List CacheEntry) : (keptEntries cache).Sublist cache := by
  unfold keptEntries
  split
  · exact List.tail_sublist cache
  · exact .refl cache

theorem DistinctKeys.sublist {cache' : List CacheEntry} (h : DistinctKeys cache)
    (hsub : cache'.Sublist cache) : DistinctKeys cache' :=
  ⟨h.nodup.sublist (hsub.map CacheEntry.key), hsub.length_le.trans h.room⟩

/-- Adding a key keeps the keys distinct exactly if no kept entry has it. -/
theorem distinctKeys_addToCache (h : DistinctKeys cache) (key : Text) (index : Nat) :
    DistinctKeys (addToCache cache key index) ↔ key ∉ (keptEntries cache).map CacheEntry.key := by
  have hadd : addToCache cache key index = keptEntries cache ++ [⟨key, index⟩] := rfl
  have hkept := h.sublist (keptEntries_sublist cache)
  have hlen := length_keptEntries h.room
  constructor
  · intro hadded
    have hnodup := hadded.nodup
    rw [hadd, List.map_append, List.nodup_append] at hnodup
    exact fun hmem ↦ hnodup.2.2 _ hmem _ (by simp) rfl
  · intro hkey
    refine ⟨?_, ?_⟩
    · rw [hadd, List.map_append, List.nodup_append]
      refine ⟨hkept.nodup, by simp, fun k hk k' hk' ↦ ?_⟩
      rw [List.map_singleton, List.mem_singleton] at hk'
      rintro rfl
      subst hk'
      exact hkey hk
    · rw [hadd, List.length_append, List.length_singleton]
      omega

/-- Over distinct keys a deletion leaves no entry behind. -/
theorem DistinctKeys.deleteFromCache (h : DistinctKeys cache) (key : Text) :
    DistinctKeys (deleteFromCache cache key) ∧
      key ∉ (Naming.deleteFromCache cache key).map CacheEntry.key := by
  rw [deleteFromCache_eq h.nodup]
  refine ⟨h.sublist (without_sublist key cache), ?_⟩
  simp [mem_without]

/-- A lookup searches before it adds. -/
theorem DistinctKeys.cacheAfter {st : NsState} (h : DistinctKeys st.cache) (path : Text) :
    DistinctKeys (st.cacheAfter path) := by
  rw [cacheAfter_eq h.nodup h.room]
  cases st.resolve path with
  | none => exact h
  | some index =>
    change DistinctKeys (use CacheEntry.key cacheCapacity st.cache ⟨path, index⟩)
    refine ⟨?_, length_rtake_le _⟩
    apply List.Nodup.sublist ((rtake_suffix _).sublist.map CacheEntry.key)
    rw [List.map_append, List.nodup_append]
    refine ⟨h.nodup.sublist ((without_sublist path _).map CacheEntry.key), by simp, ?_⟩
    intro k hk k' hk'
    obtain ⟨e, he, rfl⟩ := List.mem_map.mp hk
    rw [List.mem_singleton.mp hk']
    exact (mem_without.mp he).2

end Cache

/-! ### Commands -/

section Commands

variable {st st' : NsState} {line path : Text} {tr : List NsEvent}

theorem LooksUp.distinctKeys (hl : Relation.ReflTransGen LooksUp st st')
    (h : DistinctKeys st.cache) : DistinctKeys st'.cache := by
  induction hl with
  | refl => exact h
  | tail _ hstep ih =>
    rcases hstep.2 with hcache | ⟨q, hcache⟩
    · rw [hcache]
      exact ih
    · rw [hcache]
      exact ih.cacheAfter q

/-- The cache behind an entry command: as before, looked up, or changed behind the lookup. -/
theorem EntryResult.distinctKeys {c : EntryChange} (hr : EntryResult c st tr st')
    (h : DistinctKeys st.cache)
    (hop : isTopPath c.lookup = false → ∀ i, st.resolve c.lookup = some i →
      DistinctKeys (c.cacheOp (st.cacheAfter c.lookup) i)) : DistinctKeys st'.cache := by
  cases hr with
  | invalid _ hcache =>
    rw [hcache]
    exact h
  | unknown _ _ hcache =>
    rw [hcache]
    exact h.cacheAfter c.lookup
  | failed htop hk _ hcache _ =>
    rw [hcache]
    exact hop htop _ hk
  | done htop hk _ _ _ hcache _ =>
    rw [hcache]
    exact hop htop _ hk

/-- A command that creates no cached path keeps the keys distinct. -/
theorem ClientResult.distinctKeys (hr : ClientResult st line tr st') (h : DistinctKeys st.cache)
    (hfresh : KeysFresh st line) : DistinctKeys st'.cache := by
  cases hr with
  | looked hl => exact LooksUp.distinctKeys hl h
  | @made command path rest hw hc hr =>
    apply hr.distinctKeys h
    intro htop i hi
    apply (distinctKeys_addToCache (h.cacheAfter _) path i).mpr
    have hfound : st.resolve (beforeLast slash path) = some i := hi
    exact hfresh command path rest hw hc htop (by simp [hfound])
  | @removed command path rest _ _ hr =>
    apply hr.distinctKeys h
    intro _ _ _
    exact ((h.cacheAfter path).deleteFromCache path).1
  | @copied _ src dest _ st₁ st₂ _ _ _ _ _ _ _ hc₁ _ hc₂ _ _ _ _ hcache =>
    rw [hcache, hc₂]
    apply DistinctKeys.cacheAfter
    rw [hc₁]
    exact h.cacheAfter src

end Commands

/-! ### Runs -/

/-- A registration, a write notification, or a client command that creates no cached path. -/
inductive FreshStep : NsState → NsState → Prop where
  | register {st st' : NsState} {ip : Text} {socket portClient : Nat} {segments : List Text}
      {tr : List NsEvent} :
      Exec (registerStorageServer st socket ip portClient segments) tr (some st') → FreshStep st st'
  | command {st st' : NsState} {line : Text} {tr : List NsEvent} : KeysFresh st line →
      Exec (processClient st line) tr (some st') → FreshStep st st'
  | notify {st st' : NsState} {line : Text} {tr : List NsEvent} :
      Exec (listenAsync st line) tr (some st') → FreshStep st st'

theorem FreshStep.distinctKeys {st st' : NsState} (hs : FreshStep st st')
    (h : DistinctKeys st.cache) : DistinctKeys st'.cache := by
  cases hs with
  | register hx =>
    rw [(exec_registerStorageServer hx).1]
    exact h
  | command hfresh hx => exact (exec_processClient hx).result.distinctKeys h hfresh
  | notify hx => exact LooksUp.distinctKeys (listenAsync_result hx) h

/-- In every run whose creations are of paths that are not cached, the cached keys are pairwise
distinct, and one deletion leaves no entry for its path behind. -/
theorem cache_keys_distinct {st : NsState} (h : Reachable (fun s ↦ s = .initial) FreshStep st) :
    (st.cache.map CacheEntry.key).Nodup ∧
      ∀ path, path ∉ (deleteFromCache st.cache path).map CacheEntry.key := by
  have hkeys : DistinctKeys st.cache := by
    refine h.invariant (I := fun s ↦ DistinctKeys s.cache) ?_ (fun _ _ hi hs ↦ hs.distinctKeys hi)
    rintro s rfl
    exact ⟨.nil, Nat.zero_le _⟩
  exact ⟨hkeys.nodup, fun path ↦ (hkeys.deleteFromCache path).2⟩

/-- A server exporting `./s` registers, and a first `mkdir ./s/a` is refused. -/
theorem cache_keys_distinct_after_mkdir :
    ∃ st, Reachable (fun s ↦ s = .initial) FreshStep st ∧
      st.cache = [⟨lit "./s", 0⟩, ⟨lit "./s/a", 0⟩] ∧
      (st.cache.map CacheEntry.key).Nodup := by
  let run : NsProg (List CacheEntry × Option Nat × List CacheEntry) := do
    let st ← registerStorageServer .initial 4 (lit "10.0.0.1") 4000
      [lit "./s\n@!-Finished Indexing-!@\n"]
    let found := (keptEntries (st.cacheAfter (lit "./s")), st.resolve (lit "./s"))
    let st ← processClient st (lit "mkdir ./s/a")
    pure (found.1, found.2, st.cache)
  have hrun : run.replay [⟨.ping 0, PingResult.up⟩, ⟨.forward 0 (lit "mkdir ./s/a"), true⟩,
      ⟨.recvServer 0, some (lit "Could not create folder @ ./s/a\n")⟩,
      ⟨.sendClient (lit "Could not create folder @ ./s/a\n"), true⟩] =
      some (some ([⟨lit "./s", 0⟩], some 0, [⟨lit "./s", 0⟩, ⟨lit "./s/a", 0⟩])) := by
    decide +kernel
  obtain ⟨st₁, _, _, -, h₁, hrest⟩ := exec_bind_some (exec_of_replay hrun)
  obtain ⟨st₂, _, _, -, h₂, -, hout⟩ := exec_bind_some hrest
  obtain ⟨hkept, -, hcache⟩ := by simpa using Option.some.inj hout
  have hfresh : KeysFresh st₁ (lit "mkdir ./s/a") := by
    intro command path rest hw _ _ _
    have hwords : words (lit "mkdir ./s/a") = [lit "mkdir", lit "./s/a"] := by decide
    rw [hwords] at hw
    obtain ⟨rfl, rfl, rfl⟩ := by simpa using hw
    have hbefore : beforeLast slash (lit "./s/a") = lit "./s" := by decide
    rw [hbefore, ← hkept]
    decide
  have hreach : Reachable (fun s ↦ s = .initial) FreshStep st₂ :=
    .next (.next (.start rfl) (.register h₁)) (.command hfresh h₂)
  exact ⟨st₂, hreach, hcache.symm, (cache_keys_distinct hreach).1⟩

/-- A second `mkdir` of the same path adds a second entry for it. -/
theorem repeated_mkdir_is_cached_twice :
    ¬ ∀ st, Reachable (fun s ↦ s = .initial) NsStep st →
      (st.cache.map CacheEntry.key).Nodup := by
  intro hall
  let run : NsProg (List CacheEntry) := do
    let st ← registerStorageServer .initial 4 (lit "10.0.0.1") 4000
      [lit "./s\n@!-Finished Indexing-!@\n"]
    let st ← processClient st (lit "mkdir ./s/a")
    let st ← processClient st (lit "mkdir ./s/a")
    pure st.cache
  have hrun : run.replay [⟨.ping 0, PingResult.up⟩, ⟨.forward 0 (lit "mkdir ./s/a"), true⟩,
      ⟨.recvServer 0, some (lit "Created folder @ ./s/a\n")⟩,
      ⟨.sendClient (lit "Created folder @ ./s/a\n"), true⟩,
      ⟨.ping 0, PingResult.up⟩, ⟨.forward 0 (lit "mkdir ./s/a"), true⟩,
      ⟨.recvServer 0, some (lit "Could not create folder @ ./s/a\n")⟩,
      ⟨.sendClient (lit "Could not create folder @ ./s/a\n"), true⟩] =
      some (some [⟨lit "./s/a", 0⟩, ⟨lit "./s", 0⟩, ⟨lit "./s/a", 0⟩]) := by
    decide +kernel
  obtain ⟨st₁, _, _, -, h₁, hrest⟩ := exec_bind_some (exec_of_replay hrun)
  obtain ⟨st₂, _, _, -, h₂, hrest⟩ := exec_bind_some hrest
  obtain ⟨st₃, _, _, -, h₃, -, hout⟩ := exec_bind_some hrest
  have hnodup := hall st₃ (.next (.next (.next (.start rfl) (.register h₁)) (.command h₂))
    (.command h₃))
  rw [← Option.some.inj hout] at hnodup
  exact absurd hnodup (by decide)

end NetworkFileSystem.Naming
