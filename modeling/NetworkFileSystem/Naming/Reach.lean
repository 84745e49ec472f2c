import NetworkFileSystem.Naming.Registration
import NetworkFileSystem.Naming.Runs
import NetworkFileSystem.Trie.Refinement

/-!
# Reachable tables

`naming_server.c:38–41,127–221,286–292`. The naming server starts with empty tables;
registrations and client commands change them one at a time. Here: what a registration
can do, and that siblings stay distinct in every trie.
-/

namespace NetworkFileSystem.Naming

open Base Protocol Trie Prog TrieNode

/-- The tables at the start, `naming_server.c:39–40,286–292`. -/
def NsState.initial : NsState := ⟨[], 0, []⟩

/-! ### Lookups -/

theorem length_of_searchInTries {roots : List TrieNode} {q : Text} {k : Option Nat}
    (h : searchInTries roots q = some k) : (components q).length < maxPath := by
  by_contra hlen
  simp [searchInTries, parsePath, hlen] at h

/-- The index of the first trie that has `q`. -/
theorem searchInTries_iff {roots : List TrieNode} {q : Text}
    (h : (components q).length < maxPath) (k : Nat) :
    searchInTries roots q = some (some k) ↔
      (∃ n, roots[k]? = some n ∧ components q ∈ n.paths) ∧
        ∀ j < k, ∀ n, roots[j]? = some n → components q ∉ n.paths := by
  rw [searchInTries_eq_some h]
  simp only [List.getElem?_map, Option.map_eq_some_iff]
  grind

theorem mem_addToCache {cache : List CacheEntry} {key : Text} {index : Nat} {e : CacheEntry}
    (h : e ∈ addToCache cache key index) : e ∈ cache ∨ e = ⟨key, index⟩ := by
  unfold addToCache evictLru at h
  split_ifs at h
  · obtain h | h := List.mem_append.mp h
    · exact .inl (List.mem_of_mem_tail h)
    · exact .inr (List.mem_singleton.mp h)
  · simpa using h

theorem mem_moveToBack {cache : List CacheEntry} {index : Nat} {e : CacheEntry}
    (h : e ∈ moveToBack cache index) : e ∈ cache.eraseIdx index ∨ cache[index]? = some e := by
  unfold moveToBack at h
  simpa using h

theorem searchCache_eq_some {cache : List CacheEntry} {key : Text} {index : Nat}
    (h : searchCache cache key = some index) :
    ∃ e, cache[index]? = some e ∧ e.key = key ∧ e ∈ cache := by
  obtain ⟨hlt, hkey, -⟩ := List.findIdx?_eq_some_iff_getElem.mp h
  exact ⟨cache[index], by simp [hlt], by simpa using hkey, List.getElem_mem hlt⟩

theorem mem_cacheAfter {st : NsState} {path : Text} {e : CacheEntry}
    (h : e ∈ st.cacheAfter path) :
    e ∈ st.cache ∨ (e.key = path ∧ searchInTries st.roots path = some (some e.index)) := by
  unfold NsState.cacheAfter at h
  split at h
  · obtain h | h := mem_moveToBack h
    · exact .inl (List.mem_of_mem_eraseIdx h)
    · exact .inl (List.mem_of_getElem? h)
  · split at h
    · next found hfound =>
      obtain h | rfl := mem_addToCache h
      · exact .inl h
      · exact .inr ⟨rfl, hfound⟩
    · exact .inl h

theorem mem_deleteFromCache {cache : List CacheEntry} {key : Text} {e : CacheEntry}
    (h : e ∈ deleteFromCache cache key) : e ∈ cache := by
  unfold deleteFromCache at h
  split at h
  · exact h
  · exact List.mem_of_mem_eraseIdx h

/-! ### Registration -/

private theorem map_root_modify {f : StorageServerInfo → StorageServerInfo}
    (hf : ∀ info, (f info).root = info.root) (l : List StorageServerInfo) (i : Nat) :
    (l.modify i f).map StorageServerInfo.root = l.map StorageServerInfo.root := by
  apply List.ext_getElem?
  intro j
  simp only [List.getElem?_map, List.getElem?_modify]
  cases l[j]? with
  | none => rfl
  | some info => by_cases hij : i = j <;> simp [hij, hf]

/-- Changes of a server's other data keep the tries. -/
theorem roots_modifyServer_of {f : StorageServerInfo → StorageServerInfo}
    (hf : ∀ info, (f info).root = info.root) (st : NsState) (i : Nat) :
    (st.modifyServer i f).roots = st.roots :=
  map_root_modify hf _ i

@[simp] theorem roots_setBackups (st : NsState) (i b₁ b₂ : Nat) :
    (st.setBackups i b₁ b₂).roots = st.roots := by
  apply roots_modifyServer_of
  intro info
  rfl

@[simp] theorem cache_setBackups (st : NsState) (i b₁ b₂ : Nat) :
    (st.setBackups i b₁ b₂).cache = st.cache := rfl

@[simp] theorem storageServerIndex_setBackups (st : NsState) (i b₁ b₂ : Nat) :
    (st.setBackups i b₁ b₂).storageServerIndex = st.storageServerIndex := rfl

theorem assignBackups_spec (st : NsState) (n : Nat) :
    (assignBackups st n).roots = st.roots ∧ (assignBackups st n).cache = st.cache := by
  unfold assignBackups
  split_ifs <;> simp

/-- A registration revives a known server, finds the table full, or appends a server. -/
theorem exec_registerStorageServer {st st' : NsState} {ip : Text} {socket portClient : Nat}
    {segments : List Text} {tr : List NsEvent}
    (h : Exec (registerStorageServer st socket ip portClient segments) tr (some st')) :
    st'.cache = st.cache ∧ (st'.roots = st.roots ∨
      ∃ root finished, indexHelper segments [] (createNode (lit ".")) = some (root, finished) ∧
        st'.roots = st.roots ++ [root]) := by
  unfold registerStorageServer at h
  obtain ⟨-, -, hout⟩ | ⟨⟨root, finished⟩, hi, h₁⟩ := exec_ofOption_bind.mp h
  · cases hout
  obtain ⟨-, -, hout⟩ | ⟨found, -, h₂⟩ := exec_ofOption_bind.mp h₁
  · cases hout
  cases found with
  | some i =>
    obtain ⟨rfl, hst⟩ := h₂
    cases hst
    refine ⟨rfl, .inl ?_⟩
    apply roots_modifyServer_of
    intro info
    rfl
  | none =>
    simp only at h₂
    split at h₂
    · obtain ⟨rfl, hst⟩ := h₂
      cases hst
      exact ⟨rfl, .inl rfl⟩
    · obtain ⟨-, hout⟩ | ⟨_, t₁, t₂, rfl, -, rfl, hst⟩ := exec_bind.mp h₂
      · cases hout
      · cases hst
        obtain ⟨hr, hc⟩ := assignBackups_spec { st with storageServers := st.storageServers ++
          [⟨socket, ip, portClient, root, none, none, true⟩] } st.storageServerIndex
        refine ⟨hc, .inr ⟨root, finished, hi, ?_⟩⟩
        exact hr.trans (by simp [NsState.roots])

/-! ### Entry commands -/

/-- A storage server answered a command, and did not report a failure. -/
def Confirmed (tr : List NsEvent) : Prop :=
  ∃ i bytes, (⟨.recvServer i, some bytes⟩ : NsEvent) ∈ tr ∧ couldNot (cstr bytes) = false

/-- What a completed entry command leaves behind. -/
inductive EntryResult (c : EntryChange) (st : NsState) (tr : List NsEvent) (st' : NsState) :
    Prop where
  | invalid : st'.roots = st.roots → st'.cache = st.cache → EntryResult c st tr st'
  | unknown : st'.roots = st.roots → st.resolve c.lookup = none →
      st'.cache = st.cacheAfter c.lookup → EntryResult c st tr st'
  | failed {i : Nat} : isTopPath c.lookup = false → st.resolve c.lookup = some i →
      st'.roots = st.roots → st'.cache = c.cacheOp (st.cacheAfter c.lookup) i → ¬ Confirmed tr →
      EntryResult c st tr st'
  | done {i : Nat} {n m : TrieNode} : isTopPath c.lookup = false →
      st.resolve c.lookup = some i → st.roots[i]? = some n → c.trieOp n = some m →
      st'.roots = st.roots.set i m → st'.cache = c.cacheOp (st.cacheAfter c.lookup) i →
      Confirmed tr → EntryResult c st tr st'

theorem not_confirmed_of_pings {t rest : List NsEvent} (h : Pings t)
    (hrest : ¬ Confirmed rest) : ¬ Confirmed (t ++ rest) := by
  rintro ⟨i, bytes, hmem, hb⟩
  obtain hmem | hmem := List.mem_append.mp hmem
  · cases h _ hmem
  · exact hrest ⟨i, bytes, hmem, hb⟩

theorem roots_withRoot (st : NsState) (i : Nat) (m : TrieNode) :
    (st.withRoot i m).roots = st.roots.set i m := by
  apply List.ext_getElem?
  intro j
  simp only [NsState.withRoot, NsState.modifyServer, NsState.roots, List.getElem?_map,
    List.getElem?_modify, List.getElem?_set]
  by_cases hij : i = j
  · subst hij
    by_cases hlt : i < st.storageServers.length
    · simp [hlt]
    · simp [hlt]
  · simp [hij]

/-- A trie update that is defined replaces one trie. -/
theorem updateRoot_eq_some {st st' : NsState} {i : Nat} {f : TrieNode → Option TrieNode}
    (h : st.updateRoot i f = some st') :
    ∃ n m, st.roots[i]? = some n ∧ f n = some m ∧ st'.roots = st.roots.set i m ∧
      st'.cache = st.cache := by
  unfold NsState.updateRoot at h
  simp only [Option.pure_def, Option.bind_eq_bind, Option.bind_eq_some_iff,
    Option.some.injEq] at h
  obtain ⟨info, hinfo, m, hm, rfl⟩ := h
  exact ⟨info.root, m, by simp [NsState.roots, hinfo], hm, roots_withRoot st i m, rfl⟩

theorem storageServerIndex_updateRoot {st st' : NsState} {i : Nat}
    {f : TrieNode → Option TrieNode} (h : st.updateRoot i f = some st') :
    st'.storageServerIndex = st.storageServerIndex := by
  unfold NsState.updateRoot at h
  simp only [Option.pure_def, Option.bind_eq_bind, Option.bind_eq_some_iff,
    Option.some.injEq] at h
  obtain ⟨-, -, -, -, rfl⟩ := h
  rfl

/-- The runs of an entry command by their result. -/
theorem EntryRun.result {c : EntryChange} {st st' : NsState} {line command path : Text}
    {tr : List NsEvent} (h : EntryRun c st line command path tr (some st')) :
    EntryResult c st tr st' := by
  generalize hout : some st' = out at h
  cases h with
  | invalid _ =>
    cases hout
    exact .invalid rfl rfl
  | overruns _ _ => cases hout
  | overlong _ _ _ => cases hout
  | unknown _ hl =>
    cases hout
    obtain ⟨-, hk, hf, hc⟩ := exec_lookup hl
    exact .unknown (roots_of_frozen hf) hk.symm hc
  | down htop hl _ =>
    cases hout
    obtain ⟨hp, hk, hf, hc⟩ := exec_lookup hl
    exact .failed htop hk.symm (roots_of_frozen hf) (by simp [hc])
      (not_confirmed_of_pings hp (by simp [Confirmed]))
  | unsent htop hl =>
    cases hout
    obtain ⟨hp, hk, hf, hc⟩ := exec_lookup hl
    exact .failed htop hk.symm (roots_of_frozen hf) (by simp [hc])
      (not_confirmed_of_pings hp (by simp [Confirmed]))
  | unanswered htop hl =>
    cases hout
    obtain ⟨hp, hk, hf, hc⟩ := exec_lookup hl
    exact .failed htop hk.symm (roots_of_frozen hf) (by simp [hc])
      (not_confirmed_of_pings hp (by simp [Confirmed]))
  | refused htop hl _ hcould =>
    cases hout
    obtain ⟨hp, hk, hf, hc⟩ := exec_lookup hl
    refine .failed htop hk.symm (roots_of_frozen hf) (by simp [hc]) (not_confirmed_of_pings hp ?_)
    rintro ⟨j, bytes', hmem, hb⟩
    simp only [List.mem_cons, Sigma.mk.injEq, reduceCtorEq, false_and, NsOp.recvServer.injEq,
      List.not_mem_nil, or_false, false_or] at hmem
    obtain ⟨rfl, hmem⟩ := hmem
    simp only [heq_eq_eq, Option.some.injEq] at hmem
    rw [hmem, hcould] at hb
    cases hb
  | @carriedOut _ _ i _ _ bytes _ htop hl _ hcould hr =>
    obtain ⟨hp, hk, hf, hc⟩ := exec_lookup hl
    obtain ⟨-, st₃, hst₃, hf₃, hc₃⟩ := exec_replicateCommand hr
    cases hst₃
    obtain ⟨n, m, hn, hm, hroots, hcache⟩ := updateRoot_eq_some hout.symm
    rw [roots_of_frozen hf₃] at hn hroots
    refine .done htop hk.symm (n := n) (m := m) ?_ hm ?_ ?_ ⟨i, bytes, by simp, hcould⟩
    · rw [← roots_of_frozen hf]
      exact hn
    · rw [hroots, ← roots_of_frozen hf]
      rfl
    · rw [hcache, hc₃, ← hc]

/-! ### All commands -/

/-- The tries stay, and the cache is at most touched by one lookup. -/
def LooksUp (st st' : NsState) : Prop :=
  st'.roots = st.roots ∧ (st'.cache = st.cache ∨ ∃ path, st'.cache = st.cacheAfter path)

/-- What a completed client command leaves behind. -/
inductive ClientResult (st : NsState) (line : Text) (tr : List NsEvent) (st' : NsState) :
    Prop where
  | looked : Relation.ReflTransGen LooksUp st st' → ClientResult st line tr st'
  | made {command path : Text} {rest : List Text} : words line = command :: path :: rest →
      (command = lit "mkdir" ∨ command = lit "touch") →
      EntryResult (makeChange path) st tr st' → ClientResult st line tr st'
  | removed {command path : Text} {rest : List Text} : words line = command :: path :: rest →
      (command = lit "rmdir" ∨ command = lit "rm") →
      EntryResult (removeChange path) st tr st' → ClientResult st line tr st'
  | copied {verb src dest : Text} {rest : List Text} {st₁ st₂ : NsState} {j : Nat}
      {segments : List Text} {root : TrieNode} {finished : Bool} :
      words line = verb :: src :: dest :: rest → startsWith (lit "copy") line = true →
      st₁.roots = st.roots → st₁.cache = st.cacheAfter src →
      st₂.roots = st.roots → st₂.cache = st₁.cacheAfter dest →
      st₁.resolve dest = some j → (⟨.recvIndex j, segments⟩ : NsEvent) ∈ tr →
      indexHelper segments [] (createNode (lit ".")) = some (root, finished) →
      st'.roots = st.roots.set j root → st'.cache = st₂.cache → ClientResult st line tr st'

theorem LooksUp.of_exec {st st' : NsState} {path : Text} {tr : List NsEvent} {k : Option Nat}
    (h : Exec (searchStorageServer st path) tr (some (k, st'))) : LooksUp st st' := by
  obtain ⟨-, -, hf, hc⟩ := exec_lookup h
  exact ⟨roots_of_frozen hf, .inr ⟨path, hc⟩⟩

private theorem LooksUp.of_frozen {st st' : NsState} (hf : st'.frozen = st.frozen)
    (hc : st'.cache = st.cache) : LooksUp st st' :=
  ⟨roots_of_frozen hf, .inl hc⟩

/-- A lookup for a client touches the cache only. -/
theorem LocateRun.tables {st st' : NsState} {path : Text} {tr : List NsEvent}
    (h : LocateRun st path tr (some st')) :
    st'.frozen = st.frozen ∧ st'.cache = st.cacheAfter path := by
  generalize hout : some st' = out at h
  cases h with
  | overruns _ => cases hout
  | rootless _ _ _ _ _ => cases hout
  | lost _ _ _ => cases hout
  | unknown hl =>
    cases hout
    exact (exec_lookup hl).2.2
  | found hl _ =>
    cases hout
    exact (exec_lookup hl).2.2
  | backAgain hl _ hr =>
    cases hout
    obtain ⟨-, _, _, hst, hf, hc, -⟩ := exec_redundantSs hr
    cases hst
    obtain ⟨-, -, hf₁, hc₁⟩ := exec_lookup hl
    exact ⟨hf.trans hf₁, hc.trans hc₁⟩
  | replica hl _ hr _ _ =>
    cases hout
    obtain ⟨-, _, _, hst, hf, hc, -⟩ := exec_redundantSs hr
    cases hst
    obtain ⟨-, -, hf₁, hc₁⟩ := exec_lookup hl
    exact ⟨hf.trans hf₁, hc.trans hc₁⟩

theorem LocateRun.looksUp {st st' : NsState} {path : Text} {tr : List NsEvent}
    (h : LocateRun st path tr (some st')) : LooksUp st st' := by
  obtain ⟨hf, hc⟩ := h.tables
  exact ⟨roots_of_frozen hf, .inr ⟨path, hc⟩⟩

theorem WriteRun.tables {st st' : NsState} {flag : Text} {path : Option Text}
    {tr : List NsEvent} (h : WriteRun st flag path tr (some st')) :
    st'.frozen = st.frozen ∧ ∃ p, path = some p ∧ st'.cache = st.cacheAfter p := by
  generalize hout : some st' = out at h
  cases h with
  | pathless => cases hout
  | overruns _ => cases hout
  | unknown hl _ =>
    cases hout
    obtain ⟨-, -, hf, hc⟩ := exec_lookup hl
    exact ⟨hf, _, rfl, hc⟩
  | found hl _ =>
    cases hout
    obtain ⟨-, -, hf, hc⟩ := exec_lookup hl
    exact ⟨hf, _, rfl, hc⟩

theorem WriteRun.looksUp {st st' : NsState} {flag : Text} {path : Option Text}
    {tr : List NsEvent} (h : WriteRun st flag path tr (some st')) : LooksUp st st' := by
  obtain ⟨hf, p, -, hc⟩ := h.tables
  exact ⟨roots_of_frozen hf, .inr ⟨p, hc⟩⟩

/-- Listing changes nothing. -/
theorem listAll_result {st st' : NsState} {tr : List NsEvent}
    (h : Exec (listAll st) tr (some st')) : st' = st := by
  unfold listAll at h
  split at h
  · obtain ⟨-, hout⟩ | ⟨_, t₁, t₂, rfl, -, h₁⟩ := exec_bind.mp h
    · cases hout
    · obtain ⟨ok, rest, rfl, rfl, hst⟩ := exec_reply.mp h₁
      cases hst
      rfl
  · cases h.2

theorem replicated_tables {st st' : NsState} {receiver : Nat → Nat}
    {msg : Nat → Option Text} {b₁ b₂ : Option Nat} {t : List NsEvent}
    (h : Exec (do
      let st₁ ← replicateTo st receiver msg b₁
      replicateTo st₁ receiver msg b₂) t (some st')) :
    st'.frozen = st.frozen ∧ st'.cache = st.cache := by
  obtain ⟨-, hout⟩ | ⟨st₁, t₁, t₂, rfl, h₁, h₂⟩ := exec_bind.mp h
  · cases hout
  obtain ⟨-, ⟨_, -, -, -, hout⟩ | ⟨_, hout, hf₁, hc₁, -⟩⟩ := exec_replicateTo h₁
  · cases hout
  cases hout
  obtain ⟨-, ⟨_, -, -, -, hout⟩ | ⟨_, hout, hf₂, hc₂, -⟩⟩ := exec_replicateTo h₂
  · cases hout
  cases hout
  exact ⟨hf₂.trans hf₁, hc₂.trans hc₁⟩

/-- A copy leaves the tables alone, or gives its receiver the trie of a new index. -/
theorem PerformCopyRun.tables {st st' : NsState} {line src dest : Text} {i j : Nat}
    {tr : List NsEvent} (h : PerformCopyRun st line src dest i j tr (some st')) :
    st' = st ∨ ∃ segments root finished, (⟨.recvIndex j, segments⟩ : NsEvent) ∈ tr ∧
      indexHelper segments [] (createNode (lit ".")) = some (root, finished) ∧
      st'.frozen = (st.withRoot j root).frozen ∧ st'.cache = st.cache := by
  generalize hout : some st' = out at h
  cases h with
  | overlong _ => cases hout
  | unterminated _ _ => cases hout
  | badIndex _ _ _ => cases hout
  | unsent _ =>
    cases hout
    exact .inl rfl
  | unanswered _ =>
    cases hout
    exact .inl rfl
  | clientGone _ _ =>
    cases hout
    exact .inl rfl
  | reindexed _ _ hi hr =>
    cases hout
    exact .inr ⟨_, _, _, by simp, hi, replicated_tables hr⟩

theorem CopyRun.result {st st' : NsState} {line : Text} {tr : List NsEvent}
    (hcopy : startsWith (lit "copy") line = true) (h : CopyRun st line tr (some st')) :
    ClientResult st line tr st' := by
  generalize hout : some st' = out at h
  cases h with
  | incomplete _ =>
    cases hout
    exact .looked .refl
  | invalid _ _ =>
    cases hout
    exact .looked .refl
  | overrunsSrc _ _ _ => cases hout
  | overrunsDest _ _ _ _ => cases hout
  | unknown _ _ hs hd _ =>
    cases hout
    exact .looked (.tail (.single (.of_exec hs)) (.of_exec hd))
  | performed hw _ hs hd _ hp =>
    subst hout
    obtain rfl | ⟨segments, root, finished, hmem, hi, hf, hc⟩ := hp.tables
    · exact .looked (.tail (.single (.of_exec hs)) (.of_exec hd))
    · obtain ⟨-, -, hf₁, hc₁⟩ := exec_lookup hs
      obtain ⟨-, hj, hf₂, hc₂⟩ := exec_lookup hd
      refine .copied hw hcopy (roots_of_frozen hf₁) hc₁ (roots_of_frozen (hf₂.trans hf₁)) hc₂
        hj.symm (List.mem_append_right _ hmem) hi ?_ hc
      rw [roots_of_frozen hf, roots_withRoot, roots_of_frozen (hf₂.trans hf₁)]

/-- The completed client commands by their result. -/
theorem ClientRun.result {st st' : NsState} {line : Text} {tr : List NsEvent}
    (h : ClientRun st line tr (some st')) : ClientResult st line tr st' := by
  generalize hout : some st' = out at h
  cases h with
  | listing _ hx =>
    subst hout
    rw [listAll_result hx]
    exact .looked .refl
  | copy _ hcopy hr =>
    subst hout
    exact hr.result hcopy
  | pathless _ _ _ =>
    cases hout
    exact .looked .refl
  | writeStops _ _ _ _ _ _ => cases hout
  | write _ _ _ _ _ hw hl =>
    subst hout
    exact .looked (.tail (.single hw.looksUp) hl.looksUp)
  | make _ _ hw _ _ hc hr =>
    subst hout
    exact .made hw hc hr.result
  | remove _ _ hw _ _ hc hr =>
    subst hout
    exact .removed hw hc hr.result
  | read _ _ _ _ _ _ _ hr =>
    subst hout
    exact .looked (.single hr.looksUp)

private theorem exec_copyTo {st st' : NsState} {path : Text} {i : Nat} {backup : Option Nat}
    {tr : List NsEvent} (h : Exec (backupWritten.copyTo path i st backup) tr (some st')) :
    st'.frozen = st.frozen ∧ st'.cache = st.cache := by
  cases backup with
  | none =>
    obtain ⟨-, hst⟩ := h
    cases hst
    exact ⟨rfl, rfl⟩
  | some b =>
    obtain ⟨r, rest, rfl, h₁⟩ := exec_isSsUp.mp h
    simp only at h₁
    split at h₁
    · obtain ⟨name, t₁, t₂, rfl, -, h₂⟩ := exec_bind_some h₁
      obtain ⟨_, t₃, t₄, rfl, -, -, hst⟩ := exec_bind_some h₂
      cases hst
      exact ⟨by simp, by simp⟩
    · obtain ⟨-, hst⟩ := h₁
      cases hst
      exact ⟨by simp, by simp⟩

private theorem exec_backupWritten {st st' : NsState} {path : Text} {i : Nat}
    {tr : List NsEvent} (h : Exec (backupWritten st path i) tr (some st')) :
    st'.frozen = st.frozen ∧ st'.cache = st.cache := by
  obtain ⟨st₁, t₁, t₂, rfl, h₁, h₂⟩ := exec_bind_some h
  obtain ⟨hf₁, hc₁⟩ := exec_copyTo h₁
  obtain ⟨hf₂, hc₂⟩ := exec_copyTo h₂
  exact ⟨hf₂.trans hf₁, hc₂.trans hc₁⟩

/-- A write notification is a lookup and copies between storage servers. -/
theorem exec_listenAsync {st st' : NsState} {line : Text} {tr : List NsEvent}
    (h : Exec (listenAsync st line) tr (some st')) :
    st' = st ∨ ∃ (path : Text) (t : List NsEvent) (k : Option Nat) (st₁ : NsState),
      Exec (searchStorageServer st path) t (some (k, st₁)) ∧ st'.frozen = st₁.frozen ∧
        st'.cache = st₁.cache := by
  unfold listenAsync at h
  split at h
  · obtain ⟨path, t₁, t₂, rfl, -, h₁⟩ := exec_bind_some h
    obtain ⟨⟨k, st₁⟩, t₃, t₄, rfl, hl, h₂⟩ := exec_bind_some h₁
    cases k with
    | none => cases h₂.2
    | some i => exact .inr ⟨path, t₃, _, st₁, hl, exec_backupWritten h₂⟩
  · split at h
    · obtain ⟨path, t₁, t₂, rfl, -, h₁⟩ := exec_bind_some h
      obtain ⟨⟨k, st₁⟩, t₃, t₄, rfl, hl, h₂⟩ := exec_bind_some h₁
      cases k with
      | none => cases h₂.2
      | some i =>
        obtain ⟨st₂, t₅, t₆, rfl, hb, h₃⟩ := exec_bind_some h₂
        obtain ⟨_, t₇, t₈, rfl, -, h₄⟩ := exec_bind_some h₃
        obtain ⟨_, t₉, t₁₀, rfl, -, h₅⟩ := exec_bind_some h₄
        obtain ⟨_, _, rfl, -, hst⟩ := exec_call_bind.mp h₅
        cases hst
        exact .inr ⟨path, t₃, _, st₁, hl, exec_backupWritten hb⟩
    · obtain ⟨-, hst⟩ := h
      cases hst
      exact .inl rfl

theorem listenAsync_result {st st' : NsState} {line : Text} {tr : List NsEvent}
    (h : Exec (listenAsync st line) tr (some st')) : Relation.ReflTransGen LooksUp st st' := by
  obtain rfl | ⟨_, _, _, st₁, hl, hf, hc⟩ := exec_listenAsync h
  · exact .refl
  · exact .tail (.single (.of_exec hl)) (.of_frozen hf hc)

/-! ### Distinct siblings -/

/-- In every trie the siblings carry different names. -/
def NsState.DistinctRoots (st : NsState) : Prop :=
  ∀ (i : Nat) (n : TrieNode), st.roots[i]? = some n → n.Distinct

theorem distinct_addLines {ls : List Text} {n m : TrieNode} {finished : Bool} (h : n.Distinct)
    (hm : addLines ls n = some (m, finished)) : m.Distinct := by
  induction ls generalizing n with
  | nil =>
    cases hm
    exact h
  | cons l ls ih =>
    unfold addLines at hm
    split at hm
    · cases hm
      exact h
    · split at hm
      · exact ih h hm
      · obtain ⟨r, hr, hrest⟩ := Option.bind_eq_some_iff.mp hm
        exact ih (addPathToTrie_spec h hr).2.1 hrest

theorem distinct_indexHelper {segments : List Text} {buffer : Text} {n m : TrieNode}
    {finished : Bool} (h : n.Distinct) (hm : indexHelper segments buffer n = some (m, finished)) :
    m.Distinct := by
  induction segments generalizing buffer n with
  | nil =>
    cases hm
    exact h
  | cons s segments ih =>
    unfold indexHelper at hm
    obtain ⟨⟨r, fin⟩, hr, hrest⟩ := Option.bind_eq_some_iff.mp hm
    have hd := distinct_addLines h hr
    simp only at hrest
    split at hrest
    · cases hrest
      exact hd
    · exact ih hd hrest

private theorem distinctRoots_of_eq {st st' : NsState} (h : st.DistinctRoots)
    (he : st'.roots = st.roots) : st'.DistinctRoots := by
  unfold NsState.DistinctRoots
  rw [he]
  exact h

private theorem distinctRoots_of_set {st st' : NsState} (h : st.DistinctRoots) {i : Nat}
    {m : TrieNode} (hm : m.Distinct) (he : st'.roots = st.roots.set i m) : st'.DistinctRoots := by
  intro j n hj
  rw [he, List.getElem?_set] at hj
  split at hj
  · split at hj
    · cases hj
      exact hm
    · cases hj
  · exact h j n hj

theorem LooksUp.distinctRoots {st st' : NsState} (hl : Relation.ReflTransGen LooksUp st st')
    (h : st.DistinctRoots) : st'.DistinctRoots := by
  induction hl with
  | refl => exact h
  | tail _ hstep ih => exact distinctRoots_of_eq ih hstep.1

private theorem EntryResult.distinctRoots {c : EntryChange} {st st' : NsState}
    {tr : List NsEvent} (hr : EntryResult c st tr st')
    (hop : ∀ n m, n.Distinct → c.trieOp n = some m → m.Distinct) (h : st.DistinctRoots) :
    st'.DistinctRoots := by
  cases hr with
  | invalid he _ => exact distinctRoots_of_eq h he
  | unknown he _ _ => exact distinctRoots_of_eq h he
  | failed _ _ he _ _ => exact distinctRoots_of_eq h he
  | done _ _ hn hm he _ _ => exact distinctRoots_of_set h (hop _ _ (h _ _ hn) hm) he

theorem ClientResult.distinctRoots {st st' : NsState} {line : Text} {tr : List NsEvent}
    (hr : ClientResult st line tr st') (h : st.DistinctRoots) : st'.DistinctRoots := by
  cases hr with
  | looked hl => exact LooksUp.distinctRoots hl h
  | made _ _ hr => exact hr.distinctRoots (fun _ _ hn hm ↦ (addPathToTrie_spec hn hm).2.1) h
  | removed _ _ hr => exact hr.distinctRoots (fun _ _ hn hm ↦ (deletePath_spec hn hm).2.2.1) h
  | copied _ _ _ _ _ _ _ _ hi he _ =>
    exact distinctRoots_of_set h (distinct_indexHelper (distinct_createNode _) hi) he

theorem distinctRoots_register {st st' : NsState} {ip : Text} {socket portClient : Nat}
    {segments : List Text} {tr : List NsEvent}
    (hr : Exec (registerStorageServer st socket ip portClient segments) tr (some st'))
    (h : st.DistinctRoots) : st'.DistinctRoots := by
  obtain ⟨-, he | ⟨root, _, hi, he⟩⟩ := exec_registerStorageServer hr
  · exact distinctRoots_of_eq h he
  · intro j n hj
    rw [he, List.getElem?_append] at hj
    split at hj
    · exact h j n hj
    · obtain ⟨-, rfl⟩ : _ ∧ root = n := by simpa [List.getElem?_singleton] using hj
      exact distinct_indexHelper (distinct_createNode _) hi

/-! ### Cached indices -/

/-- Every cached index is one of a registered server. -/
def NsState.Indexed (st : NsState) : Prop := ∀ e ∈ st.cache, e.index < st.roots.length

theorem lt_of_searchInTries {roots : List TrieNode} {q : Text} {k : Nat}
    (h : searchInTries roots q = some (some k)) : k < roots.length := by
  obtain ⟨⟨n, hn, -⟩, -⟩ := (searchInTries_iff (length_of_searchInTries h) k).mp h
  exact (List.getElem?_eq_some_iff.mp hn).1

theorem NsState.Indexed.cacheAfter {st : NsState} (h : st.Indexed) {path : Text} {e : CacheEntry}
    (he : e ∈ st.cacheAfter path) : e.index < st.roots.length := by
  obtain he | ⟨-, he⟩ := mem_cacheAfter he
  · exact h e he
  · exact lt_of_searchInTries he

/-- A lookup answers with a registered server. -/
theorem NsState.Indexed.resolve {st : NsState} (h : st.Indexed) {path : Text} {k : Nat}
    (hk : st.resolve path = some k) : k < st.roots.length := by
  unfold NsState.resolve at hk
  split at hk
  · next index hindex =>
    obtain ⟨e, he, -, hmem⟩ := searchCache_eq_some hindex
    rw [he, Option.map_some, Option.some.injEq] at hk
    exact hk ▸ h e hmem
  · exact lt_of_searchInTries (Option.join_eq_some_iff.mp hk)

theorem LooksUp.indexed {st st' : NsState} (hl : Relation.ReflTransGen LooksUp st st')
    (h : st.Indexed) : st'.Indexed := by
  induction hl with
  | refl => exact h
  | tail _ hstep ih =>
    obtain ⟨hroots, hcache | ⟨path, hcache⟩⟩ := hstep
    · intro e he
      rw [hroots]
      exact ih e (hcache ▸ he)
    · intro e he
      rw [hroots]
      exact ih.cacheAfter (hcache ▸ he)

private theorem EntryResult.indexed {c : EntryChange} {st st' : NsState} {tr : List NsEvent}
    (hr : EntryResult c st tr st')
    (hop : ∀ cache i e, e ∈ c.cacheOp cache i → e ∈ cache ∨ e.index = i) (h : st.Indexed) :
    st'.Indexed := by
  have hcached : ∀ i, st.resolve c.lookup = some i →
      ∀ e ∈ c.cacheOp (st.cacheAfter c.lookup) i, e.index < st.roots.length := by
    intro i hi e he
    obtain he | rfl := hop _ _ e he
    · exact h.cacheAfter he
    · exact h.resolve hi
  cases hr with
  | invalid hroots hcache =>
    intro e he
    rw [hroots]
    exact h e (hcache ▸ he)
  | unknown hroots _ hcache =>
    intro e he
    rw [hroots]
    exact h.cacheAfter (hcache ▸ he)
  | failed _ hk hroots hcache _ =>
    intro e he
    rw [hroots]
    exact hcached _ hk e (hcache ▸ he)
  | done _ hk _ _ hroots hcache _ =>
    intro e he
    rw [hroots, List.length_set]
    exact hcached _ hk e (hcache ▸ he)

theorem ClientResult.indexed {st st' : NsState} {line : Text} {tr : List NsEvent}
    (hr : ClientResult st line tr st') (h : st.Indexed) : st'.Indexed := by
  cases hr with
  | looked hl => exact LooksUp.indexed hl h
  | made _ _ hr =>
    refine hr.indexed (fun cache i e he ↦ ?_) h
    obtain he | rfl := mem_addToCache he
    · exact .inl he
    · exact .inr rfl
  | removed _ _ hr => exact hr.indexed (fun cache i e he ↦ .inl (mem_deleteFromCache he)) h
  | copied _ _ hr₁ hc₁ hr₂ hc₂ _ _ _ hroots hcache =>
    have h₂ := LooksUp.indexed (.tail (.single ⟨hr₁, .inr ⟨_, hc₁⟩⟩)
      ⟨hr₂.trans hr₁.symm, .inr ⟨_, hc₂⟩⟩) h
    intro e he
    rw [hroots, List.length_set, ← hr₂]
    exact h₂ e (hcache ▸ he)

theorem indexed_register {st st' : NsState} {ip : Text} {socket portClient : Nat}
    {segments : List Text} {tr : List NsEvent}
    (hr : Exec (registerStorageServer st socket ip portClient segments) tr (some st'))
    (h : st.Indexed) : st'.Indexed := by
  obtain ⟨hcache, hroots | ⟨root, _, -, hroots⟩⟩ := exec_registerStorageServer hr
  · intro e he
    rw [hroots]
    exact h e (hcache ▸ he)
  · intro e he
    rw [hroots, List.length_append]
    exact Nat.lt_add_right _ (h e (hcache ▸ he))

/-! ### Steps -/

/-- One completed registration, client command or write notification. -/
inductive NsStep : NsState → NsState → Prop where
  | register {st st' : NsState} {ip : Text} {socket portClient : Nat} {segments : List Text}
      {tr : List NsEvent} :
      Exec (registerStorageServer st socket ip portClient segments) tr (some st') → NsStep st st'
  | command {st st' : NsState} {line : Text} {tr : List NsEvent} :
      Exec (processClient st line) tr (some st') → NsStep st st'
  | notify {st st' : NsState} {line : Text} {tr : List NsEvent} :
      Exec (listenAsync st line) tr (some st') → NsStep st st'

/-- In every reachable table siblings are distinct and cached indices are registered. -/
theorem NsStep.keeps {st st' : NsState} (hs : NsStep st st')
    (h : st.DistinctRoots ∧ st.Indexed) : st'.DistinctRoots ∧ st'.Indexed := by
  cases hs with
  | register hx => exact ⟨distinctRoots_register hx h.1, indexed_register hx h.2⟩
  | command hx =>
    have hr := (exec_processClient hx).result
    exact ⟨hr.distinctRoots h.1, hr.indexed h.2⟩
  | notify hx =>
    have hl := listenAsync_result hx
    exact ⟨LooksUp.distinctRoots hl h.1, LooksUp.indexed hl h.2⟩

theorem NsState.initial_keeps : NsState.initial.DistinctRoots ∧ NsState.initial.Indexed := by
  constructor
  · simp [NsState.DistinctRoots, NsState.initial, NsState.roots]
  · simp [NsState.Indexed, NsState.initial]

/-- The registration of a first server, exporting `./s`. -/
def sampleRegistration : NsProg NsState :=
  registerStorageServer .initial 4 (lit "10.0.0.1") 4000 [lit "./s\n@!-Finished Indexing-!@\n"]

/-- Everybody answers, and every send succeeds. -/
def agreeable : (o : NsOp) → o.Res
  | .ping _ => .up
  | .forward _ _ => true
  | .replicate _ _ => true
  | .reindex _ => true
  | .recvServer _ => some (lit "Finished Copying\n")
  | .recvIndex _ => []
  | .sendClient _ => true
  | .sendAck _ _ _ => true

end NetworkFileSystem.Naming
