import NetworkFileSystem.Naming.Reach
import NetworkFileSystem.Base.Transition
import NetworkFileSystem.Storage.Path

/-!
# Which commands stay inside the folders of the servers

`naming_server.c:486–519,605–656,829–860,917–945`, `tries.c:115–131`. The naming server
looks at the components of a path, without slashes and `~`, or at a cached string, while
the storage server hands the string to the operating system. Every path that is found for a
server lies above or below the server's root folder; commands whose strings add nothing the
components hide, and that do not aim above a root, are forwarded with paths inside it.
-/

namespace NetworkFileSystem.Naming

open Base Base.PrefixSet Protocol Storage Trie Prog TrieNode

/-- The naming server's tables and, for each entry, the `ROOT_PATH` of its server. -/
structure Deployment where
  tables : NsState
  rootPaths : List Text

/-- The lines of an index are the root folder and paths below it. -/
def ReportsBelow (rootPath : Text) (segments : List Text) : Prop :=
  ∀ l ∈ indexedLines segments [], l = rootPath ∨ rootPath ++ [slash] <+: l

/-- A root path that `validate_path` accepts, `storage_server.c:680–683`, without a `~`, which
the tries drop. -/
structure ProperRoot (rootPath : Text) : Prop where
  relative : lit "./" <+: rootPath
  noTilde : lit "~" ∉ tokens slash rootPath

/-- A path whose components say where it leads: relative, without `~`, and without `..` behind
the root folder of a server. -/
structure PlainPath (rootPaths : List Text) (path : Text) : Prop where
  relative : path.head? ≠ some slash
  noTilde : lit "~" ∉ tokens slash path
  noUp : ∀ r ∈ rootPaths, tokens slash r <+: tokens slash path →
    lit ".." ∉ (tokens slash path).drop (tokens slash r).length

/-- The looked-up path does not name a folder strictly above a server's root. -/
def NotAbove (rootPaths : List Text) (path : Text) : Prop :=
  ∀ r ∈ rootPaths, components path <+: tokens slash r → components path = tokens slash r

/-- The commands that keep to the folders. Reads and writes are not forwarded. -/
structure PathSafe (rootPaths : List Text) (line : Text) : Prop where
  make : ∀ command path rest, words line = command :: path :: rest →
    (command = lit "mkdir" ∨ command = lit "touch") →
    PlainPath rootPaths path ∧ NotAbove rootPaths (beforeLast slash path)
  remove : ∀ command path rest, words line = command :: path :: rest →
    (command = lit "rmdir" ∨ command = lit "rm") →
    PlainPath rootPaths path ∧ NotAbove rootPaths path
  copy : ∀ verb src dest rest, words line = verb :: src :: dest :: rest →
    startsWith (lit "copy") line = true →
    verb = lit "copy" ∧ (∀ p ∈ [src, dest], PlainPath rootPaths p ∧ NotAbove rootPaths p ∧
      ∀ b ∈ p, isSpace b = false)

/-! ### Invariant -/

/-- Two component lists on one branch. -/
def Comparable (p q : List Text) : Prop := p <+: q ∨ q <+: p

/-- Everything found for a server lies above or below its root. -/
structure Deployment.Bounded (c : Deployment) : Prop where
  length : c.rootPaths.length = c.tables.roots.length
  proper : ∀ r ∈ c.rootPaths, ProperRoot r
  tries : ∀ (i : Nat) (r : Text) (n : TrieNode), c.rootPaths[i]? = some r → c.tables.roots[i]? = some n →
    ∀ ws ∈ n.paths, Comparable ws (tokens slash r)
  cache : ∀ e ∈ c.tables.cache, ∃ r, c.rootPaths[e.index]? = some r ∧
    Comparable (components e.key) (tokens slash r)

theorem components_of_noTilde {p : Text} (h : lit "~" ∉ tokens slash p) :
    components p = tokens slash p := by
  unfold components
  rw [List.filter_eq_self]
  intro w hw
  simpa using fun he : w = lit "~" ↦ h (he ▸ hw)

theorem ProperRoot.head {r : Text} (h : ProperRoot r) : r.head? ≠ some slash := by
  obtain ⟨t, rfl⟩ := h.relative
  have hhead : (lit "./" ++ t).head? = some 46 := rfl
  rw [hhead]
  decide

/-- What a lookup finds for a server lies above or below its root. -/
theorem Deployment.Bounded.found {d : Deployment} (h : d.Bounded) {path : Text} {i : Nat}
    (hi : searchInTries d.tables.roots path = some (some i)) :
    ∃ r, d.rootPaths[i]? = some r ∧ Comparable (components path) (tokens slash r) := by
  obtain ⟨⟨n, hn, hin⟩, -⟩ := (searchInTries_iff (length_of_searchInTries hi) i).mp hi
  have hlt : i < d.rootPaths.length := by
    rw [h.length]
    exact (List.getElem?_eq_some_iff.mp hn).1
  exact ⟨d.rootPaths[i], by simp [hlt], h.tries i _ n (by simp [hlt]) hn _ hin⟩

theorem Deployment.Bounded.resolve {d : Deployment} (h : d.Bounded) {path : Text} {i : Nat}
    (hi : d.tables.resolve path = some i) :
    ∃ r, d.rootPaths[i]? = some r ∧ Comparable (components path) (tokens slash r) := by
  unfold NsState.resolve at hi
  split at hi
  · next index hindex =>
    obtain ⟨e, he, rfl, hmem⟩ := searchCache_eq_some hindex
    rw [he, Option.map_some, Option.some.injEq] at hi
    exact hi ▸ h.cache e hmem
  · exact h.found (Option.join_eq_some_iff.mp hi)

/-- Tables with the same tries, and with cache entries that are bounded too. -/
theorem Deployment.Bounded.keep {d : Deployment} (h : d.Bounded) {st' : NsState}
    (hroots : st'.roots = d.tables.roots)
    (hcache : ∀ e ∈ st'.cache, e ∈ d.tables.cache ∨
      ∃ r, d.rootPaths[e.index]? = some r ∧ Comparable (components e.key) (tokens slash r)) :
    Deployment.Bounded ⟨st', d.rootPaths⟩ where
  length := by
    rw [h.length]
    exact congrArg List.length hroots.symm
  proper := h.proper
  tries := by
    intro i r n hr hn
    exact h.tries i r n hr (hroots ▸ hn)
  cache := by
    intro e he
    obtain he | he := hcache e he
    · exact h.cache e he
    · exact he

theorem Deployment.Bounded.cacheAfter {d : Deployment} (h : d.Bounded) {path : Text}
    {e : CacheEntry} (he : e ∈ d.tables.cacheAfter path) : e ∈ d.tables.cache ∨
      ∃ r, d.rootPaths[e.index]? = some r ∧ Comparable (components e.key) (tokens slash r) := by
  obtain he | ⟨rfl, he⟩ := mem_cacheAfter he
  · exact .inl he
  · exact .inr (h.found he)

theorem Deployment.Bounded.looksUp {d : Deployment} {st' : NsState}
    (hl : Relation.ReflTransGen LooksUp d.tables st') (h : d.Bounded) :
    Deployment.Bounded ⟨st', d.rootPaths⟩ := by
  induction hl with
  | refl => exact h
  | tail _ hstep ih =>
    obtain ⟨hroots, hcache | ⟨path, hcache⟩⟩ := hstep
    · exact ih.keep hroots (fun e he ↦ .inl (hcache ▸ he))
    · exact ih.keep hroots (fun e he ↦ ih.cacheAfter (hcache ▸ he))

/-- Replacing a trie by one whose paths are bounded by the same root. -/
theorem Deployment.Bounded.setRoot {d : Deployment} (h : d.Bounded) {st' : NsState} {i : Nat}
    {m : TrieNode} (hroots : st'.roots = d.tables.roots.set i m)
    (hm : ∀ r, d.rootPaths[i]? = some r → ∀ ws ∈ m.paths, Comparable ws (tokens slash r))
    (hcache : ∀ e ∈ st'.cache, e ∈ d.tables.cache ∨
      ∃ r, d.rootPaths[e.index]? = some r ∧ Comparable (components e.key) (tokens slash r)) :
    Deployment.Bounded ⟨st', d.rootPaths⟩ where
  length := by
    simp [hroots, h.length]
  proper := h.proper
  tries := by
    intro j r n hr hn
    rw [hroots, List.getElem?_set] at hn
    split at hn
    · next hij =>
      subst hij
      split at hn
      · cases hn
        exact hm r hr
      · cases hn
    · exact h.tries j r n hr hn
  cache := by
    intro e he
    obtain he | he := hcache e he
    · exact h.cache e he
    · exact he

/-- Prefixes of a list that goes on from `q` are comparable with `q`. -/
theorem Comparable.of_common {p q l : List Text} (hp : p <+: l) (hq : q <+: l) : Comparable p q :=
  List.prefix_or_prefix_of_prefix hp hq

/-- What does not lie strictly above the root lies below it. -/
theorem Comparable.below {rootPaths : List Text} {path r : Text} (hr : r ∈ rootPaths)
    (h : Comparable (components path) (tokens slash r)) (habove : NotAbove rootPaths path) :
    tokens slash r <+: components path := by
  obtain h | h := h
  · rw [habove r hr h]
  · exact h

theorem prefix_components_beforeLast (path : Text) :
    components (beforeLast slash path) <+: components path := by
  obtain h | ⟨name, h⟩ := components_beforeLast path
  · rw [h]
  · rw [h]
    exact List.prefix_append _ _

/-- A trie made of an index of the root folder is bounded by the root. -/
theorem comparable_of_addPaths {ls : List Text} {root : List Text} {n m : TrieNode}
    (hn : n.Distinct) (hm : addPaths ls n = some m) (hls : ∀ l ∈ ls, root <+: components l)
    (h : ∀ ws ∈ n.paths, Comparable ws root) : ∀ ws ∈ m.paths, Comparable ws root := by
  induction ls generalizing n with
  | nil =>
    cases hm
    exact h
  | cons l ls ih =>
    rw [addPaths_cons] at hm
    obtain ⟨n', hn', hm⟩ := Option.bind_eq_some_iff.mp hm
    obtain ⟨-, hd, hp⟩ := addPathToTrie_spec hn hn'
    refine ih hd hm (fun l' hl' ↦ hls l' (by simp [hl'])) (fun ws hws ↦ ?_)
    rw [hp] at hws
    obtain hws | hws := mem_insertPath hws
    · exact h ws hws
    · exact .of_common hws (hls l (by simp))

theorem comparable_of_index {rootPath : Text} {segments : List Text} {root : TrieNode}
    {finished : Bool} (hr : ProperRoot rootPath) (hseg : ReportsBelow rootPath segments)
    (hi : indexHelper segments [] (createNode (lit ".")) = some (root, finished)) :
    ∀ ws ∈ root.paths, Comparable ws (tokens slash rootPath) := by
  have hadd : addPaths (indexedLines segments []) (createNode (lit ".")) = some root := by
    rw [← indexHelper_eq, hi]
    rfl
  refine comparable_of_addPaths (distinct_createNode _) hadd (fun l hl ↦ ?_) (fun ws hws ↦ ?_)
  · rw [← components_of_noTilde hr.noTilde]
    obtain rfl | ⟨t, rfl⟩ := hseg l hl
    · exact List.prefix_refl _
    · rw [List.append_assoc, List.singleton_append, components_append_cons]
      exact List.prefix_append _ _
  · rw [paths_createNode, Set.mem_singleton_iff] at hws
    exact .inl (hws ▸ List.nil_prefix)

/-! ### Steps -/

/-- A registration, a write notification, or a client command that `ok` admits. A server that comes back has the
root path it had; the index that a server sends on `reindex` is one of its own root folder. -/
inductive Deployment.Step (ok : List Text → Text → Prop) : Deployment → Deployment → Prop where
  | enroll {d : Deployment} {st' : NsState} {rootPath ip : Text} {socket portClient : Nat}
      {segments : List Text} {tr : List NsEvent} :
      Exec (registerStorageServer d.tables socket ip portClient segments) tr (some st') →
      d.tables.roots.length < st'.roots.length → ProperRoot rootPath →
      ReportsBelow rootPath segments → Step ok d ⟨st', d.rootPaths ++ [rootPath]⟩
  | comeBack {d : Deployment} {st' : NsState} {ip : Text} {socket portClient : Nat}
      {segments : List Text} {tr : List NsEvent} :
      Exec (registerStorageServer d.tables socket ip portClient segments) tr (some st') →
      st'.roots.length = d.tables.roots.length → Step ok d ⟨st', d.rootPaths⟩
  | command {d : Deployment} {st' : NsState} {line : Text} {tr : List NsEvent} :
      ok d.rootPaths line →
      (∀ j segments r, (⟨.recvIndex j, segments⟩ : NsEvent) ∈ tr → d.rootPaths[j]? = some r →
        ReportsBelow r segments) →
      Exec (processClient d.tables line) tr (some st') → Step ok d ⟨st', d.rootPaths⟩
  | notify {d : Deployment} {st' : NsState} {line : Text} {tr : List NsEvent} :
      Exec (listenAsync d.tables line) tr (some st') → Step ok d ⟨st', d.rootPaths⟩

/-- The naming server before any registration. -/
def Deployment.initial : Deployment := ⟨.initial, []⟩

private theorem bounded_of_made {d : Deployment} {st' : NsState} {path : Text}
    {tr : List NsEvent} (hd : d.tables.DistinctRoots) (h : d.Bounded)
    (habove : NotAbove d.rootPaths (beforeLast slash path))
    (hr : EntryResult (makeChange path) d.tables tr st') :
    Deployment.Bounded ⟨st', d.rootPaths⟩ := by
  have hbelow : ∀ i, d.tables.resolve (beforeLast slash path) = some i →
      ∃ r, d.rootPaths[i]? = some r ∧ tokens slash r <+: components path := by
    intro i hi
    obtain ⟨r, hr, hcomp⟩ := h.resolve hi
    exact ⟨r, hr, (hcomp.below (List.mem_of_getElem? hr) habove).trans
      (prefix_components_beforeLast path)⟩
  have hcached : ∀ i e, d.tables.resolve (beforeLast slash path) = some i →
      e ∈ addToCache (d.tables.cacheAfter (beforeLast slash path)) path i →
      e ∈ d.tables.cache ∨ ∃ r, d.rootPaths[e.index]? = some r ∧
        Comparable (components e.key) (tokens slash r) := by
    intro i e hi he
    obtain he | rfl := mem_addToCache he
    · exact h.cacheAfter he
    · obtain ⟨r, hr, hpre⟩ := hbelow i hi
      exact .inr ⟨r, hr, .inr hpre⟩
  cases hr with
  | invalid hroots hcache => exact h.keep hroots (fun e he ↦ .inl (hcache ▸ he))
  | unknown hroots _ hcache => exact h.keep hroots (fun e he ↦ h.cacheAfter (hcache ▸ he))
  | failed _ hk hroots hcache _ =>
    exact h.keep hroots (fun e he ↦ hcached _ e hk (by rw [hcache] at he; exact he))
  | done _ hk hn hm hroots hcache _ =>
    refine h.setRoot hroots (fun r hr ws hws ↦ ?_)
      (fun e he ↦ hcached _ e hk (by rw [hcache] at he; exact he))
    rw [(addPathToTrie_spec (hd _ _ hn) hm).2.2] at hws
    obtain hws | hws := mem_insertPath hws
    · exact h.tries _ r _ hr hn ws hws
    · obtain ⟨r', hr', hpre⟩ := hbelow _ hk
      cases hr'.symm.trans hr
      exact .of_common hws hpre

private theorem bounded_of_removed {d : Deployment} {st' : NsState} {path : Text}
    {tr : List NsEvent} (hd : d.tables.DistinctRoots) (h : d.Bounded)
    (hr : EntryResult (removeChange path) d.tables tr st') :
    Deployment.Bounded ⟨st', d.rootPaths⟩ := by
  have hcached : ∀ e, e ∈ deleteFromCache (d.tables.cacheAfter path) path →
      e ∈ d.tables.cache ∨ ∃ r, d.rootPaths[e.index]? = some r ∧
        Comparable (components e.key) (tokens slash r) :=
    fun e he ↦ h.cacheAfter (mem_deleteFromCache he)
  cases hr with
  | invalid hroots hcache => exact h.keep hroots (fun e he ↦ .inl (hcache ▸ he))
  | unknown hroots _ hcache => exact h.keep hroots (fun e he ↦ h.cacheAfter (hcache ▸ he))
  | failed _ _ hroots hcache _ =>
    exact h.keep hroots (fun e he ↦ hcached e (by rw [hcache] at he; exact he))
  | done _ _ hn hm hroots hcache _ =>
    refine h.setRoot hroots (fun r hr ws hws ↦ ?_)
      (fun e he ↦ hcached e (by rw [hcache] at he; exact he))
    rw [(deletePath_spec (hd _ _ hn) hm).2.2.2] at hws
    exact h.tries _ r _ hr hn ws (mem_deletePath hws)

/-- A command with safe paths keeps everything found for a server on the branch of its root. -/
theorem ClientResult.bounded {d : Deployment} {st' : NsState} {line : Text} {tr : List NsEvent}
    (hd : d.tables.DistinctRoots) (h : d.Bounded) (hsafe : PathSafe d.rootPaths line)
    (hindex : ∀ j segments r, (⟨.recvIndex j, segments⟩ : NsEvent) ∈ tr →
      d.rootPaths[j]? = some r → ReportsBelow r segments)
    (hr : ClientResult d.tables line tr st') : Deployment.Bounded ⟨st', d.rootPaths⟩ := by
  cases hr with
  | looked hl => exact h.looksUp hl
  | made hw hc hr => exact bounded_of_made hd h (hsafe.make _ _ _ hw hc).2 hr
  | removed _ _ hr => exact bounded_of_removed hd h hr
  | @copied _ src dest _ st₁ st₂ j segments root _ hw _ hr₁ hc₁ hr₂ hc₂ hj hseg hi hroots hcache =>
    have h₁ : Deployment.Bounded ⟨st₁, d.rootPaths⟩ :=
      h.looksUp (.single ⟨hr₁, .inr ⟨src, hc₁⟩⟩)
    refine h.setRoot hroots (fun r hr ↦ ?_) (fun e he ↦ ?_)
    · exact comparable_of_index (h.proper r (List.mem_of_getElem? hr)) (hindex j segments r hseg hr) hi
    · rw [hcache, hc₂] at he
      obtain he | he := h₁.cacheAfter he
      · exact .inr (h₁.cache e he)
      · exact .inr he

/-- In every reachable deployment, what is found for a server lies on the branch of its root. -/
theorem bounded_of_reachable {d : Deployment}
    (h : Reachable (fun s ↦ s = Deployment.initial) (Deployment.Step PathSafe) d) :
    d.tables.DistinctRoots ∧ d.Bounded := by
  refine h.invariant (I := fun s ↦ s.tables.DistinctRoots ∧ s.Bounded) ?_ ?_
  · rintro s rfl
    refine ⟨by simp [NsState.DistinctRoots, Deployment.initial, NsState.initial, NsState.roots], ?_⟩
    constructor <;> simp [Deployment.initial, NsState.initial, NsState.roots]
  · rintro s t ⟨hd, hb⟩ hst
    cases hst with
    | enroll hx hlen hproper hseg =>
      refine ⟨distinctRoots_register hx hd, ?_⟩
      obtain ⟨hcache, hroots | ⟨root, _, hi, hroots⟩⟩ := exec_registerStorageServer hx
      · rw [hroots] at hlen
        exact absurd hlen (Nat.lt_irrefl _)
      · constructor
        · simp [hroots, hb.length]
        · intro r hr
          obtain hr | hr := List.mem_append.mp hr
          · exact hb.proper r hr
          · exact List.mem_singleton.mp hr ▸ hproper
        · intro i r n hr hn
          simp only [hroots, List.getElem?_append, hb.length] at hr hn
          split at hr
          · next hlt =>
            rw [if_pos hlt] at hn
            exact hb.tries i r n hr hn
          · next hlt =>
            rw [if_neg hlt] at hn
            obtain ⟨-, rfl⟩ : _ ∧ root = n := by simpa [List.getElem?_singleton] using hn
            obtain ⟨-, rfl⟩ : _ ∧ _ = r := by simpa [List.getElem?_singleton] using hr
            exact comparable_of_index hproper hseg hi
        · intro e he
          obtain ⟨r, hr, hcomp⟩ := hb.cache e (hcache ▸ he)
          exact ⟨r, List.getElem?_append_left (List.getElem?_eq_some_iff.mp hr).1 ▸ hr, hcomp⟩
    | comeBack hx hlen =>
      refine ⟨distinctRoots_register hx hd, ?_⟩
      obtain ⟨hcache, hroots | ⟨root, _, hi, hroots⟩⟩ := exec_registerStorageServer hx
      · exact hb.keep hroots (fun e he ↦ .inl (hcache ▸ he))
      · simp [hroots] at hlen
    | command hok hindex hx =>
      have hr := (exec_processClient hx).result
      exact ⟨hr.distinctRoots hd, hr.bounded hd hb hok hindex⟩
    | notify hx =>
      have hl := listenAsync_result hx
      exact ⟨LooksUp.distinctRoots hl hd, hb.looksUp hl⟩

/-! ### Forwarded commands -/

/-- Why a command is forwarded to server `i`. -/
inductive Forwards (st : NsState) (line : Text) (i : Nat) : Text → Prop where
  | make {command path : Text} {rest : List Text} : startsWith (lit "copy") line = false →
      words line = command :: path :: rest → (command = lit "mkdir" ∨ command = lit "touch") →
      st.resolve (beforeLast slash path) = some i → Forwards st line i line
  | remove {command path : Text} {rest : List Text} : startsWith (lit "copy") line = false →
      words line = command :: path :: rest → (command = lit "rmdir" ∨ command = lit "rm") →
      st.resolve path = some i → Forwards st line i line
  | copy {verb src dest msg : Text} {rest : List Text} {st₁ st₂ : NsState} {j : Nat} :
      startsWith (lit "copy") line = true → words line = verb :: src :: dest :: rest →
      st.resolve src = some i → LooksUp st st₁ → st₁.resolve dest = some j →
      st₂.frozen = st.frozen → copyCommand st₂ line i j = some msg → Forwards st line i msg

/-- A send that is not an answered command. -/
theorem not_forward_of_offLink {t : List NsEvent} (h : OffLink t) {i : Nat} {msg : Text}
    {ok : Bool} : (⟨.forward i msg, ok⟩ : NsEvent) ∉ t :=
  fun hm ↦ by cases h _ hm

theorem not_forward_of_pings {t : List NsEvent} (h : Pings t) {i : Nat} {msg : Text}
    {ok : Bool} : (⟨.forward i msg, ok⟩ : NsEvent) ∉ t :=
  not_forward_of_offLink h.offLink

theorem not_forward_of_replicates {receiver : Nat → Nat} {m : Nat → Option Text}
    {t : List NsEvent} (h : Replicates receiver m t) (i : Nat) (msg : Text) (ok : Bool) :
    (⟨.forward i msg, ok⟩ : NsEvent) ∉ t := by
  intro hm
  obtain h | ⟨_, _, -, h⟩ := h _ hm
  · cases h
  · cases h

/-- An entry command forwards its line to the server of the looked-up path. -/
theorem EntryRun.forward {c : EntryChange} {st : NsState} {line command path : Text}
    {tr : List NsEvent} {out : Option NsState} (h : EntryRun c st line command path tr out)
    {i : Nat} {msg : Text} {ok : Bool} (hm : (⟨.forward i msg, ok⟩ : NsEvent) ∈ tr) :
    msg = line ∧ st.resolve c.lookup = some i := by
  have hlookup : ∀ {t : List NsEvent} {k : Option Nat} {st₁ : NsState},
      Exec (searchStorageServer st c.lookup) t (some (k, st₁)) →
      (⟨.forward i msg, ok⟩ : NsEvent) ∉ t ∧ k = st.resolve c.lookup := by
    intro t k st₁ hl
    obtain ⟨hp, hk, -⟩ := exec_lookup hl
    exact ⟨not_forward_of_pings hp, hk⟩
  cases h with
  | invalid _ => simp at hm
  | overruns _ _ => simp at hm
  | unknown _ hl => simp [(hlookup hl).1] at hm
  | down _ hl _ => simp [(hlookup hl).1] at hm
  | unsent _ hl =>
    obtain ⟨hno, hk⟩ := hlookup hl
    simp only [List.mem_append, hno, List.mem_singleton, Sigma.mk.injEq, NsOp.forward.injEq,
      false_or] at hm
    exact ⟨hm.1.2, by rw [← hk, hm.1.1]⟩
  | unanswered _ hl =>
    obtain ⟨hno, hk⟩ := hlookup hl
    simp [hno] at hm
    exact ⟨hm.1.2, by rw [← hk, hm.1.1]⟩
  | overlong _ hl _ =>
    obtain ⟨hno, hk⟩ := hlookup hl
    simp [hno] at hm
    exact ⟨hm.1.2, by rw [← hk, hm.1.1]⟩
  | refused _ hl _ _ =>
    obtain ⟨hno, hk⟩ := hlookup hl
    simp [hno] at hm
    exact ⟨hm.1.2, by rw [← hk, hm.1.1]⟩
  | carriedOut _ hl _ _ hr =>
    obtain ⟨hno, hk⟩ := hlookup hl
    have hno₂ := not_forward_of_replicates (exec_replicateCommand hr).1 i msg ok
    simp [hno, hno₂] at hm
    exact ⟨hm.1.2, by rw [← hk, hm.1.1]⟩

private theorem replicates_both {st : NsState} {receiver : Nat → Nat} {msg : Nat → Option Text}
    {b₁ b₂ : Option Nat} {t : List NsEvent} {out : Option NsState}
    (h : Exec (do
      let st₁ ← replicateTo st receiver msg b₁
      replicateTo st₁ receiver msg b₂) t out) : Replicates receiver msg t := by
  obtain ⟨h₁, -⟩ | ⟨st₁, t₁, t₂, rfl, h₁, h₂⟩ := exec_bind.mp h
  · exact (exec_replicateTo h₁).1
  · exact (exec_replicateTo h₁).1.append (exec_replicateTo h₂).1

/-- A copy forwards the rewritten command to the server of the source. -/
theorem PerformCopyRun.forward {st : NsState} {line src dest : Text} {i j : Nat}
    {tr : List NsEvent} {out : Option NsState} (h : PerformCopyRun st line src dest i j tr out)
    {k : Nat} {msg : Text} {ok : Bool} (hm : (⟨.forward k msg, ok⟩ : NsEvent) ∈ tr) :
    k = i ∧ copyCommand st line i j = some msg := by
  cases h with
  | overlong _ => simp at hm
  | unsent hc =>
    simp at hm
    exact ⟨hm.1.1, by rw [hc, hm.1.2]⟩
  | unanswered hc =>
    simp at hm
    exact ⟨hm.1.1, by rw [hc, hm.1.2]⟩
  | unterminated hc _ =>
    simp at hm
    exact ⟨hm.1.1, by rw [hc, hm.1.2]⟩
  | clientGone hc _ =>
    simp at hm
    exact ⟨hm.1.1, by rw [hc, hm.1.2]⟩
  | badIndex hc _ _ =>
    simp at hm
    exact ⟨hm.1.1, by rw [hc, hm.1.2]⟩
  | reindexed hc _ _ hr =>
    simp [not_forward_of_replicates (replicates_both hr)] at hm
    exact ⟨hm.1.1, by rw [hc, hm.1.2]⟩

theorem CopyRun.forward {st : NsState} {line : Text} {tr : List NsEvent} {out : Option NsState}
    (hcopy : startsWith (lit "copy") line = true) (h : CopyRun st line tr out) {i : Nat}
    {msg : Text} {ok : Bool} (hm : (⟨.forward i msg, ok⟩ : NsEvent) ∈ tr) :
    Forwards st line i msg := by
  cases h with
  | incomplete _ => simp at hm
  | invalid _ _ => simp at hm
  | overrunsSrc _ _ _ => simp at hm
  | overrunsDest _ _ hs _ => exact absurd hm (not_forward_of_pings (exec_lookup hs).1)
  | unknown _ _ hs hd _ =>
    simp [not_forward_of_pings (exec_lookup hs).1, not_forward_of_pings (exec_lookup hd).1] at hm
  | performed hw _ hs hd _ hp =>
    simp only [List.mem_append, not_forward_of_pings (exec_lookup hs).1,
      not_forward_of_pings (exec_lookup hd).1, false_or] at hm
    obtain ⟨rfl, hmsg⟩ := hp.forward hm
    obtain ⟨-, hi, hf₁, -⟩ := exec_lookup hs
    obtain ⟨-, hj, hf₂, -⟩ := exec_lookup hd
    exact .copy hcopy hw hi.symm (.of_exec hs) hj.symm (hf₂.trans hf₁) hmsg

/-- Every forwarded command has one of the three reasons. -/
theorem ClientRun.forward {st : NsState} {line : Text} {tr : List NsEvent}
    {out : Option NsState} (h : ClientRun st line tr out) {i : Nat} {msg : Text} {ok : Bool}
    (hm : (⟨.forward i msg, ok⟩ : NsEvent) ∈ tr) : Forwards st line i msg := by
  cases h with
  | listing _ hx => exact absurd hm (not_forward_of_offLink (listAll_offLink hx))
  | copy _ hcopy hr => exact hr.forward hcopy hm
  | pathless _ _ _ => simp at hm
  | writeStops _ _ _ _ _ hr => exact absurd hm (not_forward_of_offLink hr.offLink)
  | write _ _ _ _ _ hw hl => exact absurd hm (not_forward_of_offLink (hw.offLink.append hl.offLink))
  | make _ hcopy hw _ _ hc hr =>
    obtain ⟨rfl, hi⟩ := hr.forward hm
    exact .make hcopy hw hc hi
  | remove _ hcopy hw _ _ hc hr =>
    obtain ⟨rfl, hi⟩ := hr.forward hm
    exact .remove hcopy hw hc hi
  | read _ _ _ _ _ _ _ hr => exact absurd hm (not_forward_of_offLink hr.offLink)

/-! ### Containment -/

/-- The server on which the second path argument of `msg` is resolved: the receiver of a copy
between servers, else the server that gets the command. -/
def Receives (st : NsState) (i j : Nat) (msg : Text) : Prop :=
  if startsWith (lit "copydifferent") msg then receiverAddress st j <:+ msg else j = i

/-- Every path argument of every forwarded command lies inside the root folder of the server on
which it is resolved, for any working directories of the servers. -/
def Contained (d : Deployment) (tr : List NsEvent) : Prop :=
  ∀ i msg ok, (⟨.forward i msg, ok⟩ : NsEvent) ∈ tr →
    ∃ j, Receives d.tables i j msg ∧
      ∀ arg server, (arg, server) ∈ (pathArguments msg).zip [i, j] →
        ∃ r, d.rootPaths[server]? = some r ∧ ∀ cwd, Inside cwd r arg

private theorem inside_of_below {rootPaths : List Text} {r path : Text} (hr : r ∈ rootPaths)
    (hproper : ProperRoot r) (hplain : PlainPath rootPaths path)
    (hbelow : tokens slash r <+: components path) (cwd : List Text) : Inside cwd r path := by
  rw [components_of_noTilde hplain.noTilde] at hbelow
  exact inside_of_tokens cwd hproper.head hplain.relative hbelow (hplain.noUp r hr hbelow)

/-- The words behind the verb `copy`. -/
private theorem words_drop_copy {line : Text} {ws : List Text}
    (hcopy : startsWith (lit "copy") line = true) (hw : words line = lit "copy" :: ws) :
    (line.drop 4 = [] ∧ ws = []) ∨ ∃ t, line.drop 4 = blank :: t ∧ words t = ws := by
  obtain ⟨g, t, hg, hdrop, ht⟩ :=
    tokens_eq_cons_of_prefix (by decide) (by decide) (List.isPrefixOf_iff_prefix.mp hcopy) hw
  have hnil : g = [] := by simpa using hg
  have hlength : (lit "copy").length = 4 := rfl
  rw [hlength, hnil, List.nil_append] at hdrop
  rw [hdrop]
  exact ht

theorem copyCommand_eq_some {st : NsState} {line msg : Text} {i j : Nat}
    (h : copyCommand st line i j = some msg) :
    msg = if i = j then lit "copysame" ++ line.drop 4
      else lit "copydifferent" ++ line.drop 4 ++ receiverAddress st j := by
  unfold copyCommand at h
  dsimp only at h
  generalize (if i = j then lit "copysame" ++ line.drop 4
    else lit "copydifferent" ++ line.drop 4 ++ receiverAddress st j) = m at h ⊢
  split at h
  · exact (Option.some.inj h).symm
  · cases h

/-- The arguments of a rewritten copy command are those of the client's line. -/
theorem pathArguments_copyCommand {st : NsState} {line src dest msg : Text} {rest : List Text}
    {i j : Nat} (hcopy : startsWith (lit "copy") line = true)
    (hw : words line = lit "copy" :: src :: dest :: rest)
    (hsrc : ∀ b ∈ src, isSpace b = false) (hdest : ∀ b ∈ dest, isSpace b = false)
    (hmsg : copyCommand st line i j = some msg) :
    pathArguments msg = [src, dest] ∧ Receives st i j msg := by
  obtain ⟨-, hws⟩ | ⟨t, ht, hwords⟩ := words_drop_copy hcopy hw
  · cases hws
  have hmsg := copyCommand_eq_some hmsg
  rw [ht] at hmsg
  by_cases hij : i = j
  · rw [if_pos hij] at hmsg
    subst hmsg
    obtain ⟨more, hf⟩ := fields_of_words hwords hsrc hdest (.inl (rfl : ([] : Text) = []))
    rw [List.append_nil] at hf
    have hdrop : (lit "copysame" ++ blank :: t).drop 8 = blank :: t := rfl
    have hcp : startsWith (lit "copy") (lit "copysame" ++ blank :: t) = true := rfl
    have hsame : startsWith (lit "copysame") (lit "copysame" ++ blank :: t) = true := rfl
    constructor
    · rw [pathArguments, if_pos hcp, copyArguments, if_pos hsame, hdrop, fields_blank_cons, hf]
      rfl
    · exact hij.symm
  · rw [if_neg hij] at hmsg
    subst hmsg
    have haddr : ∃ a, receiverAddress st j = blank :: a := ⟨_, rfl⟩
    obtain ⟨more, hf⟩ := fields_of_words hwords hsrc hdest (.inr haddr)
    have hfirst : fields (lit "copydifferent" ++ blank :: t ++ receiverAddress st j) =
        lit "copydifferent" :: fields (t ++ receiverAddress st j) := by
      rw [List.append_assoc, List.cons_append, ← fields_blank_cons (t ++ receiverAddress st j)]
      exact fields_first (u := lit "copydifferent") 0 (by decide +kernel) (by decide)
        (.inr ⟨_, rfl⟩)
    have hcp : startsWith (lit "copy")
        (lit "copydifferent" ++ blank :: t ++ receiverAddress st j) = true := rfl
    have hsame : startsWith (lit "copysame")
        (lit "copydifferent" ++ blank :: t ++ receiverAddress st j) = false := rfl
    constructor
    · rw [pathArguments, if_pos hcp, copyArguments, hsame, if_neg Bool.false_ne_true, hfirst, hf]
      rfl
    · exact List.suffix_append _ _

private theorem startsWith_of_startsWith {p q s : Text} (hpq : p <+: q)
    (h : startsWith q s = true) : startsWith p s = true :=
  List.isPrefixOf_iff_prefix.mpr (hpq.trans (List.isPrefixOf_iff_prefix.mp h))

private theorem receives_line {st : NsState} {line : Text}
    (hcopy : startsWith (lit "copy") line = false) (i : Nat) : Receives st i i line := by
  unfold Receives
  rw [if_neg]
  intro hd
  have hc := startsWith_of_startsWith (p := lit "copy") (by decide) hd
  rw [hcopy] at hc
  cases hc

/-- The one argument of an entry command is its second word. -/
private theorem mem_zip_pathArguments {line command path arg : Text} {rest : List Text}
    {i server : Nat} (hcopy : startsWith (lit "copy") line = false)
    (hw : words line = command :: path :: rest)
    (h : (arg, server) ∈ (pathArguments line).zip [i, i]) : path = arg ∧ i = server := by
  unfold pathArguments at h
  rw [hcopy, hw] at h
  simp only [Bool.false_eq_true, if_false, List.drop_succ_cons, List.drop_zero, List.take_succ_cons,
    List.take_zero, List.zip_cons_cons, List.zip_nil_left, List.mem_singleton, Prod.mk.injEq] at h
  exact ⟨h.1.symm, h.2.symm⟩

private theorem sample_root : ProperRoot (lit "./s") :=
  ⟨by decide, by decide⟩

private theorem sample_index : ReportsBelow (lit "./s") [lit "./s\n@!-Finished Indexing-!@\n"] := by
  have hl : indexedLines [lit "./s\n@!-Finished Indexing-!@\n"] [] = [lit "./s"] := by decide
  intro l hmem
  rw [hl, List.mem_singleton] at hmem
  exact .inl hmem

private theorem sample_reachable (ok : List Text → Text → Prop) {st : NsState}
    (h : Exec sampleRegistration [] (some st)) (hlen : st.roots.length = 1) :
    Reachable (fun s ↦ s = Deployment.initial) (Deployment.Step ok) ⟨st, [lit "./s"]⟩ := by
  refine .next (.start rfl) (.enroll h ?_ sample_root sample_index)
  rw [hlen]
  decide

end NetworkFileSystem.Naming
