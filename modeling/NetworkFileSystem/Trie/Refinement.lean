import NetworkFileSystem.Trie.Paths

/-!
# Tries implement bounded prefix-closed sets

`tries.c:115–164,226–279`, `naming_server.c:335–363`. A history of insertions and
deletions runs on a trie and, step by step, on an abstract set of component lists.
The set found by searches in the trie is the abstract set after every history, and
a lookup over several tries answers with the first set that has the query.
-/

namespace NetworkFileSystem.Trie

open Base Base.PrefixSet TrieNode

/-- One call on a trie. -/
inductive TrieOp where
  | add (path : Text)
  | delete (path : Text)

namespace TrieOp

/-- The calls whose components fit `path_arr`; a deletion needs something to delete. -/
def Valid : TrieOp → Prop
  | .add p => (components p).length < maxPath
  | .delete p => (components p).length < maxPath ∧ components p ≠ []

/-- `AddPathToTrie` or `DeletePath`. -/
def run : TrieOp → TrieNode → Option TrieNode
  | .add p => addPathToTrie p
  | .delete p => deletePath p

/-- The same call on a set of component lists. -/
noncomputable def runAbstract : TrieOp → Set (List Text) → Set (List Text)
  | .add p, S => insertPath maxFolders S (components p)
  | .delete p, S => PrefixSet.deletePath S (components p)

end TrieOp

/-- A history on a trie started by `CreateNode(data)`. -/
def runTrie (data : Text) (ops : List TrieOp) : Option TrieNode :=
  ops.foldlM (fun n o ↦ o.run n) (createNode data)

/-- The same history on the abstract set, started from the empty component list alone. -/
noncomputable def runSet (ops : List TrieOp) : Set (List Text) :=
  ops.foldl (fun S o ↦ o.runAbstract S) {[]}

theorem parsePath_of_lt {p : Text} (h : (components p).length < maxPath) :
    parsePath p = some (components p) := by
  simp [parsePath, h]

theorem length_of_parsePath {p : Text} {ws : List Text} (h : parsePath p = some ws) :
    (components p).length < maxPath ∧ ws = components p := by
  unfold parsePath at h
  split at h
  · next hlen => exact ⟨hlen, (Option.some.inj h).symm⟩
  · cases h

/-- An insertion that is defined is bounded prefix insertion. -/
theorem addPathToTrie_spec {p : Text} {n m : TrieNode} (h : n.Distinct)
    (hm : addPathToTrie p n = some m) :
    (components p).length < maxPath ∧ m.Distinct ∧
      m.paths = insertPath maxFolders n.paths (components p) := by
  obtain ⟨ws, hws, rfl⟩ := Option.map_eq_some_iff.mp hm
  obtain ⟨hlen, rfl⟩ := length_of_parsePath hws
  exact ⟨hlen, distinct_addLoop _ h, paths_addLoop _ h⟩

/-- A deletion that is defined has something to delete, and deletes it if it is there. -/
theorem deletePath_spec {p : Text} {n m : TrieNode} (h : n.Distinct)
    (hm : deletePath p n = some m) :
    (components p).length < maxPath ∧ components p ≠ [] ∧ m.Distinct ∧
      m.paths = PrefixSet.deletePath n.paths (components p) := by
  obtain ⟨ws, hws, hdel⟩ := Option.bind_eq_some_iff.mp hm
  obtain ⟨hlen, rfl⟩ := length_of_parsePath hws
  by_cases hin : components p ∈ n.paths
  · have hs : searchPathHelper (components p) n = true := hin
    rw [if_pos hs] at hdel
    have hne : components p ≠ [] := by
      intro he
      rw [he] at hdel
      cases hdel
    obtain ⟨m', hm', hd, -, hp⟩ := deleteLoop_spec h hne hin
    cases hm'.symm.trans hdel
    exact ⟨hlen, hne, hd, hp⟩
  · have hs : ¬ searchPathHelper (components p) n = true := hin
    rw [if_neg hs] at hdel
    cases hdel
    have hne : components p ≠ [] := by
      intro he
      exact hin (he ▸ n.nil_mem_paths)
    exact ⟨hlen, hne, h, by simp [PrefixSet.deletePath, hin]⟩

/-- One valid call on a trie with distinct siblings refines the abstract call. -/
theorem TrieOp.run_refines {o : TrieOp} (hv : o.Valid) {n : TrieNode} (h : n.Distinct) :
    ∃ m, o.run n = some m ∧ m.Distinct ∧ m.paths = o.runAbstract n.paths := by
  cases o with
  | add p =>
    have hm : addPathToTrie p n = some (addLoop (components p) n) := by
      simp [addPathToTrie, parsePath_of_lt hv]
    obtain ⟨-, hd, hp⟩ := addPathToTrie_spec h hm
    exact ⟨_, hm, hd, hp⟩
  | delete p =>
    obtain ⟨m, hm⟩ : ∃ m, deletePath p n = some m := by
      simp only [deletePath, parsePath_of_lt hv.1, Option.bind_some]
      split
      · next hin =>
        obtain ⟨m, hm, -⟩ := deleteLoop_spec h hv.2 hin
        exact ⟨m, hm⟩
      · exact ⟨n, rfl⟩
    obtain ⟨-, -, hd, hp⟩ := deletePath_spec h hm
    exact ⟨m, hm, hd, hp⟩

/-- Only valid calls return. -/
theorem TrieOp.valid_of_run {o : TrieOp} {n m : TrieNode} (h : o.run n = some m) : o.Valid := by
  cases o with
  | add p =>
    obtain ⟨ws, hws, -⟩ := Option.map_eq_some_iff.mp h
    exact (length_of_parsePath hws).1
  | delete p =>
    obtain ⟨ws, hws, hdel⟩ := Option.bind_eq_some_iff.mp h
    obtain ⟨hlt, rfl⟩ := length_of_parsePath hws
    refine ⟨hlt, fun hnil ↦ ?_⟩
    rw [hnil, searchPathHelper, if_pos rfl, deleteLoop] at hdel
    cases hdel

/-- A history of valid calls runs through and ends in the abstract set. -/
theorem runTrie_refines (data : Text) {ops : List TrieOp} (hv : ∀ o ∈ ops, o.Valid) :
    ∃ n, runTrie data ops = some n ∧ n.Distinct ∧ n.paths = runSet ops := by
  suffices hall : ∀ (ops : List TrieOp) (n : TrieNode) (S : Set (List Text)),
      (∀ o ∈ ops, o.Valid) → n.Distinct → n.paths = S →
      ∃ m, ops.foldlM (fun n o ↦ o.run n) n = some m ∧ m.Distinct ∧
        m.paths = ops.foldl (fun S o ↦ o.runAbstract S) S from
    hall ops (createNode data) {[]} hv (distinct_createNode data) (paths_createNode data)
  intro ops
  induction ops with
  | nil => exact fun n S _ hd hp ↦ ⟨n, rfl, hd, hp⟩
  | cons o ops ih =>
    intro n S hv hd hp
    obtain ⟨m, hm, hmd, hmp⟩ := TrieOp.run_refines (hv o (by simp)) hd
    obtain ⟨r, hr, hrd, hrp⟩ := ih m _ (fun o' ho' ↦ hv o' (by simp [ho'])) hmd hmp
    refine ⟨r, ?_, hrd, ?_⟩
    · simp [List.foldlM_cons, hm, hr]
    · rw [hrp, hp, List.foldl_cons]

theorem valid_of_runTrie {data : Text} {ops : List TrieOp} {n : TrieNode}
    (h : runTrie data ops = some n) : ∀ o ∈ ops, o.Valid := by
  unfold runTrie at h
  induction ops using List.reverseRecOn generalizing n with
  | nil => simp
  | append_singleton ops o ih =>
    rw [List.foldlM_append] at h
    obtain ⟨m, hm, hlast⟩ := Option.bind_eq_some_iff.mp h
    rw [List.foldlM_cons] at hlast
    obtain ⟨m', hm', -⟩ := Option.bind_eq_some_iff.mp hlast
    intro o' ho'
    obtain ho' | ho' := List.mem_append.mp ho'
    · exact ih hm o' ho'
    · rw [List.mem_singleton.mp ho']
      exact TrieOp.valid_of_run hm'

/-- Siblings are distinct behind every history that returns. -/
theorem distinct_of_runTrie {data : Text} {ops : List TrieOp} {n : TrieNode}
    (h : runTrie data ops = some n) : n.Distinct := by
  obtain ⟨n', hn', hd, -⟩ := runTrie_refines data (valid_of_runTrie h)
  obtain rfl := Option.some.inj (hn'.symm.trans h)
  exact hd

theorem searchPath_eq_one {n : TrieNode} {q : Text} (h : (components q).length < maxPath) :
    searchPath n q = some 1 ↔ components q ∈ n.paths := by
  simp only [searchPath, parsePath_of_lt h, Option.map_some, Option.some.injEq]
  change _ ↔ searchPathHelper (components q) n = true
  split_ifs with hs <;> simp [hs]

/-- A lookup over several tries answers the index of the first one that has the query. -/
theorem searchInTries_eq_some {roots : List TrieNode} {q : Text}
    (h : (components q).length < maxPath) (k : Nat) :
    searchInTries roots q = some (some k) ↔
      ∃ S, (roots.map paths)[k]? = some S ∧ components q ∈ S ∧
        ∀ j < k, ∀ R, (roots.map paths)[j]? = some R → components q ∉ R := by
  simp only [searchInTries, parsePath_of_lt h, Option.map_some, Option.some.injEq]
  rw [List.findIdx?_eq_some_iff_getElem]
  constructor
  · rintro ⟨hk, hin, hbefore⟩
    refine ⟨roots[k].paths, by simp [hk], hin, ?_⟩
    intro j hj R hR
    have hjl : j < roots.length := hj.trans hk
    simp only [List.getElem?_map, List.getElem?_eq_getElem hjl, Option.map_some,
      Option.some.injEq] at hR
    exact hR ▸ hbefore j hj
  · rintro ⟨S, hS, hin, hbefore⟩
    simp only [List.getElem?_map, Option.map_eq_some_iff] at hS
    obtain ⟨n, hn, rfl⟩ := hS
    obtain ⟨hk, rfl⟩ := List.getElem?_eq_some_iff.mp hn
    refine ⟨hk, hin, fun j hj ↦ ?_⟩
    have hjl : j < roots.length := hj.trans hk
    exact hbefore j hj roots[j].paths (by simp [hjl])

/-- A lookup over several tries fails exactly if none of them has the query. -/
theorem searchInTries_eq_none {roots : List TrieNode} {q : Text}
    (h : (components q).length < maxPath) :
    searchInTries roots q = some none ↔ ∀ S ∈ roots.map paths, components q ∉ S := by
  simp only [searchInTries, parsePath_of_lt h, Option.map_some, Option.some.injEq]
  rw [List.findIdx?_eq_none_iff]
  simp [paths]

private theorem roots_of_histories (data : Text) {hs : List (List TrieOp)}
    (hv : ∀ h ∈ hs, ∀ o ∈ h, o.Valid) :
    ∃ roots, List.Forall₂ (fun h n ↦ runTrie data h = some n) hs roots ∧
      roots.map paths = hs.map runSet := by
  induction hs with
  | nil => exact ⟨[], .nil, rfl⟩
  | cons h hs ih =>
    obtain ⟨n, hn, -, hp⟩ := runTrie_refines data (hv h (by simp))
    obtain ⟨roots, hr, hrp⟩ := ih (fun h' hh' ↦ hv h' (by simp [hh']))
    exact ⟨n :: roots, .cons hn hr, by simp [hp, hrp]⟩

/-- For any number of tries, each grown by its own history of valid insertions and
deletions: every search answers membership in the abstract prefix-closed set of that
history, and the lookup over all tries answers the least index whose set has the query,
or `-1` (the inner `none`) if there is none. -/
theorem tries_implement_prefix_sets (data : Text) (hs : List (List TrieOp))
    (hv : ∀ h ∈ hs, ∀ o ∈ h, o.Valid) :
    ∃ roots, List.Forall₂ (fun h n ↦ runTrie data h = some n) hs roots ∧
      (∀ h ∈ hs, PrefixClosed (runSet h)) ∧
      ∀ q, (components q).length < maxPath →
        List.Forall₂ (fun h n ↦ searchPath n q = some 1 ↔ components q ∈ runSet h) hs roots ∧
        (∀ k : Nat, searchInTries roots q = some (some k) ↔
          ∃ S, (hs.map runSet)[k]? = some S ∧ components q ∈ S ∧
            ∀ j < k, ∀ R, (hs.map runSet)[j]? = some R → components q ∉ R) ∧
        (searchInTries roots q = some none ↔ ∀ S ∈ hs.map runSet, components q ∉ S) := by
  obtain ⟨roots, hr, hp⟩ := roots_of_histories data hv
  refine ⟨roots, hr, ?_, ?_⟩
  · intro h hh
    have hmem : runSet h ∈ roots.map paths := hp ▸ List.mem_map_of_mem hh
    obtain ⟨n, -, hn⟩ := List.mem_map.mp hmem
    exact hn ▸ n.paths_prefixClosed
  · intro q hq
    refine ⟨?_, ?_, ?_⟩
    · have hpaths : List.Forall₂ (fun h n ↦ n.paths = runSet h) hs roots := by
        rw [← List.forall₂_map_left_iff (f := runSet) (R := fun S (n : TrieNode) ↦ n.paths = S),
          ← hp, List.forall₂_map_left_iff]
        exact List.forall₂_same.mpr (fun _ _ ↦ rfl)
      exact hpaths.imp (fun h n hhn ↦ hhn ▸ searchPath_eq_one hq)
    · exact fun k ↦ hp ▸ searchInTries_eq_some hq k
    · exact hp ▸ searchInTries_eq_none hq

/-- Two tries: the first lost `./a` again, the second still finds `./a/b`. -/
theorem tries_implement_prefix_sets_two :
    ∃ roots, List.Forall₂ (fun h n ↦ runTrie (lit ".") h = some n)
      [[.add (lit "./a/b"), .delete (lit "./a")], [.add (lit "./a/b")]] roots ∧
      (searchInTries roots (lit "./a/b") = some (some 1) ↔
        ∃ S, ([[TrieOp.add (lit "./a/b"), .delete (lit "./a")],
            [.add (lit "./a/b")]].map runSet)[1]? = some S ∧ components (lit "./a/b") ∈ S ∧
          ∀ j < 1, ∀ R, ([[TrieOp.add (lit "./a/b"), .delete (lit "./a")],
            [.add (lit "./a/b")]].map runSet)[j]? = some R → components (lit "./a/b") ∉ R) := by
  obtain ⟨roots, hr, -, hq⟩ := tries_implement_prefix_sets (lit ".")
    [[.add (lit "./a/b"), .delete (lit "./a")], [.add (lit "./a/b")]]
    (by simp only [List.mem_cons, List.not_mem_nil, or_false, forall_eq_or_imp, forall_eq,
          TrieOp.Valid]; decide)
  exact ⟨roots, hr, (hq (lit "./a/b") (by decide)).2.1 1⟩

end NetworkFileSystem.Trie
