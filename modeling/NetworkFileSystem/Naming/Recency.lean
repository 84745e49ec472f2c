import NetworkFileSystem.Base.Recency
import NetworkFileSystem.Naming.Reach

/-!
# The lookup cache as an LRU cache

`naming_server.c:26–35,286–332,458–519`. The array with its loops holds the list that the
tables have for it; and the list is a queue in order of last use: a lookup that returns an
index uses its key, and `delete_from_cache` drops it. The tries may change between the calls.
-/

namespace NetworkFileSystem.Naming

open Base Protocol Trie Prog Recency

/-! ### The array -/

/-- `naming_server.c:31–35`: an entry that was never written is `none`. -/
structure LruCache where
  queue : List (Option CacheEntry)
  size : Nat

namespace LruCache

/-- `naming_server.c:286–292`. -/
def initializeCache : LruCache := ⟨List.replicate cacheCapacity none, 0⟩

/-- `n` rounds of `cache.queue[i] = cache.queue[i + 1]` from `i` on. -/
def shiftLeft (queue : List (Option CacheEntry)) (i : Nat) : Nat → List (Option CacheEntry)
  | 0 => queue
  | n + 1 => shiftLeft (queue.set i (queue.getD (i + 1) none)) (i + 1) n

/-- `naming_server.c:295–302`. -/
def searchCache (c : LruCache) (key : Text) : Option Nat :=
  (List.range c.size).find? (fun i ↦ (c.queue.getD i none).any (fun e ↦ e.key == key))

/-- `naming_server.c:305–313`. -/
def evictLru (c : LruCache) : LruCache :=
  if 0 < c.size then ⟨shiftLeft c.queue 0 (c.size - 1), c.size - 1⟩ else c

/-- `naming_server.c:316–323`. -/
def addToCache (c : LruCache) (key : Text) (index : Nat) : LruCache :=
  let c := if c.size = cacheCapacity then c.evictLru else c
  ⟨c.queue.set c.size (some ⟨key, index⟩), c.size + 1⟩

/-- `naming_server.c:326–332`. -/
def moveToBack (c : LruCache) (index : Nat) : LruCache :=
  let temp := c.queue.getD index none
  { c with queue := (shiftLeft c.queue index (c.size - 1 - index)).set (c.size - 1) temp }

/-- `naming_server.c:458–483`. -/
def deleteFromCache (c : LruCache) (key : Text) : LruCache :=
  match c.searchCache key with
  | none => c
  | some index => ⟨shiftLeft c.queue index (c.size - 1 - index), c.size - 1⟩

/-- What `naming_server.c:486–519` does to the array. -/
def afterSearch (c : LruCache) (roots : List TrieNode) (key : Text) : LruCache :=
  match c.searchCache key with
  | some index => c.moveToBack index
  | none =>
    match searchInTries roots key with
    | some (some found) => c.addToCache key found
    | _ => c

/-- The array holds the entries `cache` in the places below `size`. -/
structure Holds (c : LruCache) (cache : List CacheEntry) : Prop where
  length : c.queue.length = cacheCapacity
  room : cache.length ≤ cacheCapacity
  size : c.size = cache.length
  entries : ∀ i < c.size, c.queue[i]? = some cache[i]?

theorem holds_initializeCache : initializeCache.Holds [] :=
  ⟨rfl, Nat.zero_le _, rfl, fun _ hi ↦ absurd hi (Nat.not_lt_zero _)⟩

theorem length_shiftLeft (queue : List (Option CacheEntry)) (i n : Nat) :
    (shiftLeft queue i n).length = queue.length := by
  induction n generalizing queue i with
  | zero => rfl
  | succ n ih => rw [shiftLeft, ih, List.length_set]

/-- The loop moves the places behind `i` one to the left. -/
theorem getElem?_shiftLeft {queue : List (Option CacheEntry)} {i n : Nat}
    (h : i + n < queue.length) (j : Nat) :
    (shiftLeft queue i n)[j]? = if i ≤ j ∧ j < i + n then queue[j + 1]? else queue[j]? := by
  induction n generalizing queue i with
  | zero =>
    rw [if_neg (by omega)]
    rfl
  | succ n ih =>
    have hnext : i + 1 < queue.length := by omega
    rw [shiftLeft, ih (by rw [List.length_set]; omega)]
    by_cases hj : i = j
    · subst hj
      rw [if_neg (by omega), if_pos (by omega), List.getElem?_set_self (by omega),
        List.getElem?_eq_getElem hnext]
      simp [hnext]
    · by_cases hin : i + 1 ≤ j ∧ j < i + 1 + n
      · rw [if_pos hin, if_pos (by omega), List.getElem?_set_ne (by omega)]
      · rw [if_neg hin, if_neg (by omega), List.getElem?_set_ne hj]

variable {c : LruCache} {cache : List CacheEntry}

theorem Holds.getD (h : c.Holds cache) {i : Nat} (hi : i < c.size) :
    c.queue.getD i none = cache[i]? := by
  rw [List.getD_eq_getElem?_getD, h.entries i hi, Option.getD_some]

theorem Holds.searchCache (h : c.Holds cache) (key : Text) :
    c.searchCache key = Naming.searchCache cache key := by
  apply Option.ext
  intro i
  rw [LruCache.searchCache, List.find?_range_eq_some, Naming.searchCache,
    List.findIdx?_eq_some_iff_getElem, h.size]
  constructor
  · rintro ⟨hkey, hi, hno⟩
    have hlt := List.mem_range.mp hi
    rw [h.getD (h.size ▸ hlt), List.getElem?_eq_getElem hlt] at hkey
    refine ⟨hlt, hkey, fun j hj ↦ ?_⟩
    have hj' := hno j hj
    rw [h.getD (by rw [h.size]; omega), List.getElem?_eq_getElem (by omega)] at hj'
    simpa using hj'
  · rintro ⟨hlt, hkey, hno⟩
    refine ⟨?_, List.mem_range.mpr hlt, fun j hj ↦ ?_⟩
    · rw [h.getD (h.size ▸ hlt), List.getElem?_eq_getElem hlt]
      exact hkey
    · rw [h.getD (by rw [h.size]; omega), List.getElem?_eq_getElem (by omega)]
      simpa using hno j hj

/-- Shifting the places behind `index` erases the entry there. -/
theorem Holds.erase (h : c.Holds cache) {index : Nat} (hi : index < c.size) :
    Holds ⟨shiftLeft c.queue index (c.size - 1 - index), c.size - 1⟩ (cache.eraseIdx index) := by
  obtain ⟨hlen, hroom, hsize, hentries⟩ := h
  have hcount : (cache.eraseIdx index).length = cache.length - 1 :=
    List.length_eraseIdx_of_lt (by omega)
  refine ⟨?_, by omega, ?_, fun j hj ↦ ?_⟩
  · rw [length_shiftLeft, hlen]
  · rw [hcount, ← hsize]
  · change j < c.size - 1 at hj
    rw [getElem?_shiftLeft (by omega), List.getElem?_eraseIdx]
    by_cases hji : j < index
    · rw [if_neg (by omega), if_pos hji, hentries j (by omega)]
    · rw [if_neg hji, if_pos (by omega), hentries (j + 1) (by omega)]

/-- Writing behind the last entry appends. -/
theorem Holds.push (h : c.Holds cache) (hroom : cache.length < cacheCapacity) (e : CacheEntry) :
    Holds ⟨c.queue.set c.size (some e), c.size + 1⟩ (cache ++ [e]) := by
  obtain ⟨hlen, -, hsize, hentries⟩ := h
  refine ⟨?_, ?_, ?_, fun j hj ↦ ?_⟩
  · rw [List.length_set, hlen]
  · rw [List.length_append, List.length_singleton]
    omega
  · rw [List.length_append, List.length_singleton, hsize]
  · change j < c.size + 1 at hj
    by_cases hlast : c.size = j
    · subst hlast
      rw [List.getElem?_set_self (by omega), hsize, List.getElem?_concat_length]
    · rw [List.getElem?_set_ne hlast, hentries j (by omega),
        List.getElem?_append_left (by omega)]

theorem Holds.evictLru (h : c.Holds cache) : c.evictLru.Holds (Naming.evictLru cache) := by
  unfold LruCache.evictLru Naming.evictLru
  split
  · next hpos =>
    rw [← List.eraseIdx_zero]
    exact h.erase hpos
  · next hempty =>
    have hnil : cache = [] := List.length_eq_zero_iff.mp (by have := h.size; omega)
    rw [hnil] at h ⊢
    exact h

theorem Holds.addToCache (h : c.Holds cache) (key : Text) (index : Nat) :
    (c.addToCache key index).Holds (Naming.addToCache cache key index) := by
  have hroom := h.room
  unfold LruCache.addToCache Naming.addToCache
  rw [h.size]
  split
  · next hfull =>
    refine h.evictLru.push ?_ _
    rw [Naming.evictLru, List.length_tail, hfull]
    decide
  · next hnot => exact h.push (by omega) _

theorem Holds.moveToBack (h : c.Holds cache) {index : Nat} (hi : index < c.size) :
    (c.moveToBack index).Holds (Naming.moveToBack cache index) := by
  have hroom := h.room
  have hsize := h.size
  have hlt : index < cache.length := hsize ▸ hi
  have hcount : (cache.eraseIdx index).length = cache.length - 1 :=
    List.length_eraseIdx_of_lt hlt
  have hback := (h.erase hi).push (by omega) cache[index]
  rw [Nat.sub_add_cancel (by omega)] at hback
  unfold LruCache.moveToBack Naming.moveToBack
  rw [h.getD hi, List.getElem?_eq_getElem hlt]
  exact hback

theorem Holds.deleteFromCache (h : c.Holds cache) (key : Text) :
    (c.deleteFromCache key).Holds (Naming.deleteFromCache cache key) := by
  unfold LruCache.deleteFromCache Naming.deleteFromCache
  rw [h.searchCache key]
  cases hfound : Naming.searchCache cache key with
  | none => exact h
  | some index =>
    obtain ⟨e, he, -⟩ := searchCache_eq_some hfound
    exact h.erase (h.size ▸ (List.getElem?_eq_some_iff.mp he).1)

theorem Holds.afterSearch {st : NsState} (h : c.Holds st.cache) (key : Text) :
    (c.afterSearch st.roots key).Holds (st.cacheAfter key) := by
  unfold LruCache.afterSearch NsState.cacheAfter
  rw [h.searchCache key]
  cases hfound : Naming.searchCache st.cache key with
  | some index =>
    obtain ⟨e, he, -⟩ := searchCache_eq_some hfound
    exact h.moveToBack (h.size ▸ (List.getElem?_eq_some_iff.mp he).1)
  | none =>
    cases searchInTries st.roots key with
    | none => exact h
    | some found =>
      cases found with
      | none => exact h
      | some k => exact h.addToCache key k

end LruCache

/-! ### Runs -/

/-- A call that changed the cache: a lookup with the index it returned, or a deletion. -/
abbrev CacheCall : Type := Call CacheEntry Text

/-- What a lookup of `key` does to the cache if it returned `found`. -/
def lookupCalls (key : Text) : Option Nat → List CacheCall
  | none => []
  | some index => [.use ⟨key, index⟩]

/-- Sequences of lookups and deletions with the array they leave; between them the tables of
servers may change. -/
inductive CacheRun : List CacheCall → NsState → LruCache → Prop where
  | start {st : NsState} : st.cache = [] → CacheRun [] st .initializeCache
  | tables {calls : List CacheCall} {st st' : NsState} {c : LruCache} :
      CacheRun calls st c → st'.cache = st.cache → CacheRun calls st' c
  | search {calls : List CacheCall} {st st' : NsState} {c : LruCache} {key : Text}
      {tr : List NsEvent} {found : Option Nat} : CacheRun calls st c →
      Exec (searchStorageServer st key) tr (some (found, st')) →
      CacheRun (calls ++ lookupCalls key found) st' (c.afterSearch st.roots key)
  | delete {calls : List CacheCall} {st : NsState} {c : LruCache} (key : Text) :
      CacheRun calls st c →
      CacheRun (calls ++ [.drop key]) { st with cache := deleteFromCache st.cache key }
        (c.deleteFromCache key)

/-- The queue that the calls leave in a cache of `cacheCapacity` entries. -/
abbrev lruQueue (calls : List CacheCall) : List CacheEntry :=
  held CacheEntry.key cacheCapacity calls

/-! ### The queue -/

section Queue

variable {cache : List CacheEntry} {key : Text} {index : Nat}

theorem searchCache_eq_none : searchCache cache key = none ↔ key ∉ cache.map CacheEntry.key := by
  simp [searchCache, List.findIdx?_eq_none_iff]

/-- Deleting a key drops it. -/
theorem deleteFromCache_eq (hnodup : (cache.map CacheEntry.key).Nodup) (key : Text) :
    deleteFromCache cache key = without CacheEntry.key key cache := by
  unfold deleteFromCache
  cases hc : searchCache cache key with
  | none => exact (without_of_notMem (searchCache_eq_none.mp hc)).symm
  | some index =>
    obtain ⟨e, he, rfl, -⟩ := searchCache_eq_some hc
    exact (without_eq_eraseIdx hnodup he).symm

/-- A hit uses the entry. -/
theorem moveToBack_eq (hnodup : (cache.map CacheEntry.key).Nodup)
    (hlen : cache.length ≤ cacheCapacity) {e : CacheEntry} (he : cache[index]? = some e) :
    moveToBack cache index = use CacheEntry.key cacheCapacity cache e := by
  have hlt := (List.getElem?_eq_some_iff.mp he).1
  have hroom : (without CacheEntry.key e.key cache ++ [e]).length ≤ cacheCapacity := by
    rw [without_eq_eraseIdx hnodup he, List.length_append, List.length_eraseIdx_of_lt hlt,
      List.length_singleton]
    omega
  rw [use, rtake_of_length_le hroom, without_eq_eraseIdx hnodup he, moveToBack, he]
  rfl

/-- A miss that finds the key in the tries uses a new entry. -/
theorem addToCache_eq (hkey : key ∉ cache.map CacheEntry.key)
    (hlen : cache.length ≤ cacheCapacity) (index : Nat) :
    addToCache cache key index = use CacheEntry.key cacheCapacity cache ⟨key, index⟩ := by
  have hsame : without CacheEntry.key key cache = cache := without_of_notMem hkey
  unfold addToCache use
  rw [hsame]
  split
  · next hfull =>
    rw [List.rtake, List.length_append, List.length_singleton, hfull, Nat.add_sub_cancel_left,
      List.drop_append_of_le_length (by simp [hfull, cacheCapacity]), List.drop_one]
    rfl
  · next hnot =>
    rw [rtake_of_length_le]
    rw [List.length_append, List.length_singleton]
    omega

end Queue

/-- A lookup uses its key with the index it returns, if it returns one. -/
theorem cacheAfter_eq {st : NsState} {key : Text} (hnodup : (st.cache.map CacheEntry.key).Nodup)
    (hlen : st.cache.length ≤ cacheCapacity) :
    st.cacheAfter key = (lookupCalls key (st.resolve key)).foldl
      (after CacheEntry.key cacheCapacity) st.cache := by
  unfold NsState.cacheAfter NsState.resolve
  cases hc : searchCache st.cache key with
  | some index =>
    obtain ⟨e, he, rfl, -⟩ := searchCache_eq_some hc
    simp only [he, Option.map_some, lookupCalls, List.foldl_cons, List.foldl_nil, after]
    exact moveToBack_eq hnodup hlen he
  | none =>
    have hkey := searchCache_eq_none.mp hc
    cases searchInTries st.roots key with
    | none => rfl
    | some found =>
      cases found with
      | none => rfl
      | some k => exact addToCache_eq hkey hlen k

/-! ### Results -/

/-- The cache is the queue of the calls. -/
theorem CacheRun.cache {calls : List CacheCall} {st : NsState} {c : LruCache}
    (h : CacheRun calls st c) : st.cache = lruQueue calls := by
  induction h with
  | start hst => exact hst
  | tables _ hc ih => exact hc.trans ih
  | @search calls st st' c key tr found _ hx ih =>
    obtain ⟨-, rfl, -, hc⟩ := exec_lookup hx
    rw [hc, cacheAfter_eq (ih ▸ nodup_held calls) (ih ▸ length_held_le calls), ih]
    simp [lruQueue, held]
  | @delete calls st c key _ ih =>
    have hdrop := deleteFromCache_eq (ih ▸ nodup_held calls : (st.cache.map _).Nodup) key
    rw [lruQueue, held_concat]
    exact hdrop.trans (by rw [ih]; rfl)

/-- The array holds the cache. -/
theorem CacheRun.holds {calls : List CacheCall} {st : NsState} {c : LruCache}
    (h : CacheRun calls st c) : c.Holds st.cache := by
  induction h with
  | start hst =>
    rw [hst]
    exact LruCache.holds_initializeCache
  | tables _ hc ih =>
    rw [hc]
    exact ih
  | search _ hx ih =>
    rw [(exec_lookup hx).2.2.2]
    exact ih.afterSearch _
  | delete key _ ih => exact ih.deleteFromCache key

/-- After any lookups the array holds, below its size, the `cacheCapacity` most recently
looked-up keys that were found, each with the index last returned, the least recent one first.
With deletions it still holds distinct keys in order of last lookup, no more than
`cacheCapacity`, a deleted key is absent until it is looked up again, and a deletion leaves all
other entries as they are. -/
theorem cache_is_lru {calls : List CacheCall} {st : NsState} {c : LruCache}
    (h : CacheRun calls st c) :
    c.Holds st.cache ∧
    ((∀ key, .drop key ∉ calls) →
      st.cache = (lastUses CacheEntry.key (uses calls)).rtake cacheCapacity) ∧
    st.cache.length ≤ cacheCapacity ∧ (st.cache.map CacheEntry.key).Nodup ∧
    st.cache.Sublist (lastUses CacheEntry.key (uses calls)) ∧
    (∀ earlier later key, calls = earlier ++ .drop key :: later →
      (∀ index, .use ⟨key, index⟩ ∉ later) → key ∉ st.cache.map CacheEntry.key) ∧
    ∀ key, (c.deleteFromCache key).Holds (st.cache.filter (fun e ↦ e.key ≠ key)) := by
  have hnodup : (st.cache.map CacheEntry.key).Nodup := h.cache ▸ nodup_held calls
  refine ⟨h.holds, fun hno ↦ ?_, h.holds.room, hnodup, ?_, ?_, fun key ↦ ?_⟩
  · rw [h.cache]
    exact held_of_uses hno
  · rw [h.cache]
    exact held_sublist calls
  · rintro earlier later key rfl hlater
    rw [h.cache]
    refine notMem_held (fun e he hkey ↦ ?_)
    subst hkey
    exact hlater e.index he
  · have hdeleted := h.holds.deleteFromCache key
    rwa [deleteFromCache_eq hnodup] at hdeleted

/-- The paths are looked up one after the other. -/
private def searchAll (st : NsState) : List Text → NsProg (List (Option Nat) × NsState)
  | [] => pure ([], st)
  | path :: paths => do
    let (found, st) ← searchStorageServer st path
    let (rest, st) ← searchAll st paths
    pure (found :: rest, st)

private theorem CacheRun.searchAll {paths : List Text} {calls : List CacheCall} {st st' : NsState}
    {c : LruCache} {founds : List (Option Nat)} {tr : List NsEvent} (h : CacheRun calls st c)
    (hx : Exec (searchAll st paths) tr (some (founds, st'))) :
    ∃ c', CacheRun (calls ++ (List.zipWith lookupCalls paths founds).flatten) st' c' := by
  induction paths generalizing calls st c founds tr with
  | nil =>
    obtain ⟨-, hout⟩ := exec_pure.mp hx
    cases hout
    exact ⟨c, by simpa using h⟩
  | cons path paths ih =>
    obtain ⟨⟨found, st₁⟩, _, _, -, h₁, hrest⟩ := exec_bind_some hx
    obtain ⟨⟨rest, st₂⟩, _, _, -, h₂, h₃⟩ := exec_bind_some hrest
    obtain ⟨-, hout⟩ := exec_pure.mp h₃
    cases hout
    obtain ⟨c', hc'⟩ := ih (h.search h₁) h₂
    exact ⟨c', by simpa using hc'⟩

/-- Four paths are looked up, the first of them twice, so that the array is full and the second
one has to go. -/
private def fivePaths : List Text :=
  [lit "./s/a", lit "./s/b", lit "./s", lit "./s/a", lit "./s/c"]

/-- The first path is deleted again, from the middle of the array. -/
theorem cache_is_lru_after_deletion :
    ∃ (st : NsState) (c : LruCache),
      CacheRun (fivePaths.map (fun path ↦ .use ⟨path, 0⟩) ++ [.drop (lit "./s/a")])
        { st with cache := deleteFromCache st.cache (lit "./s/a") }
        (c.deleteFromCache (lit "./s/a")) ∧
      c.Holds [⟨lit "./s", 0⟩, ⟨lit "./s/a", 0⟩, ⟨lit "./s/c", 0⟩] ∧
      (c.deleteFromCache (lit "./s/a")).Holds [⟨lit "./s", 0⟩, ⟨lit "./s/c", 0⟩] ∧
      lit "./s/a" ∉ (deleteFromCache st.cache (lit "./s/a")).map CacheEntry.key := by
  let run : NsProg (List (Option Nat) × NsState) := do
    let st ← registerStorageServer .initial 4 (lit "10.0.0.1") 4000
      [lit "./s\n./s/a\n./s/b\n./s/c\n@!-Finished Indexing-!@\n"]
    searchAll st fivePaths
  have hrun : (run.replay (List.replicate 5 ⟨.ping 0, PingResult.up⟩)).map
      (fun out ↦ out.map Prod.fst) = some (some (List.replicate 5 (some 0))) := by
    decide +kernel
  obtain ⟨out, hout, hk⟩ := Option.map_eq_some_iff.mp hrun
  obtain ⟨⟨founds, st⟩, rfl, rfl⟩ := Option.map_eq_some_iff.mp hk
  obtain ⟨st₁, _, _, -, h₁, h₂⟩ := exec_bind_some (exec_of_replay hout)
  have hstart : CacheRun [] NsState.initial .initializeCache := .start rfl
  obtain ⟨c, hc⟩ := (hstart.tables (exec_registerStorageServer h₁).1).searchAll h₂
  have hcalls : [] ++ (List.zipWith lookupCalls fivePaths (List.replicate 5 (some 0))).flatten =
      fivePaths.map (fun path ↦ (.use ⟨path, 0⟩ : CacheCall)) := rfl
  change CacheRun ([] ++ (List.zipWith lookupCalls fivePaths (List.replicate 5 (some 0))).flatten)
    st c at hc
  rw [hcalls] at hc
  obtain ⟨hholds, hlast, -, -, -, -, hdeleted⟩ := cache_is_lru hc
  have hcache : st.cache = [⟨lit "./s", 0⟩, ⟨lit "./s/a", 0⟩, ⟨lit "./s/c", 0⟩] :=
    (hlast (by simp)).trans (by decide)
  have hrest : st.cache.filter (fun e ↦ e.key ≠ lit "./s/a") =
      [⟨lit "./s", 0⟩, ⟨lit "./s/c", 0⟩] := by
    rw [hcache]
    decide
  obtain ⟨-, -, -, -, -, habsent, -⟩ := cache_is_lru (hc.delete (lit "./s/a"))
  exact ⟨st, c, hc.delete _, hcache ▸ hholds, hrest ▸ hdeleted (lit "./s/a"),
    habsent _ [] _ rfl (by simp)⟩

end NetworkFileSystem.Naming
