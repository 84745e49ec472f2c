import NetworkFileSystem.Trie.Picture

/-!
# The names of the nodes

`tries.c:115–164,256–279`. A node stands for the names on the way to it. Where siblings carry
different names this is a one-to-one correspondence between the nodes and what a search finds,
and what is known of the path set of a history is known of the names in its trie.
-/

namespace NetworkFileSystem.Trie

open Base Base.PrefixSet TrieNode

/-- The names on the way to the node at `a`. -/
def namesAt : TrieNode → Pointer → List Text
  | _, [] => []
  | n, j :: a =>
    match n.childeren j with
    | some c => c.data :: namesAt c a
    | none => []

section Names

variable {n m c : TrieNode} {a : Pointer} {j : Fin maxFolders}

theorem namesAt_cons (h : n.childeren j = some c) (a : Pointer) :
    namesAt n (j :: a) = c.data :: namesAt c a := by
  rw [namesAt, h]

/-- The way to a node starts with a used slot. -/
theorem childeren_of_nodeAt (h : nodeAt n (j :: a) = some m) :
    ∃ c, n.childeren j = some c ∧ nodeAt c a = some m := by
  rw [nodeAt] at h
  cases hc : n.childeren j with
  | none =>
    rw [hc] at h
    cases h
  | some c =>
    rw [hc] at h
    exact ⟨c, rfl, h⟩

theorem nodeAt_append (h : nodeAt n a = some m) (b : Pointer) :
    nodeAt n (a ++ b) = nodeAt m b := by
  induction a generalizing n with
  | nil =>
    cases h
    rfl
  | cons j a ih =>
    obtain ⟨c, hc, ha⟩ := childeren_of_nodeAt h
    rw [List.cons_append, nodeAt_cons hc]
    exact ih ha

/-- The last name on the way is that of the node. -/
theorem data_mem_namesAt (h : nodeAt n a = some m) (ha : a ≠ []) : m.data ∈ namesAt n a := by
  induction a generalizing n with
  | nil => exact absurd rfl ha
  | cons j a ih =>
    obtain ⟨c, hc, hm⟩ := childeren_of_nodeAt h
    rw [namesAt_cons hc]
    cases a with
    | nil =>
      cases hm
      exact List.mem_cons_self
    | cons k b => exact List.mem_cons_of_mem _ (ih hm (by simp))

theorem TrieNode.Distinct.nodeAt (hn : n.Distinct) (h : nodeAt n a = some m) : m.Distinct := by
  induction a generalizing n with
  | nil =>
    cases h
    exact hn
  | cons j a ih =>
    obtain ⟨c, hc, hm⟩ := childeren_of_nodeAt h
    exact ih (hn.childeren hc) hm

theorem TrieNode.Distinct.child_of_childeren (hn : n.Distinct) (h : n.childeren j = some c) :
    n.child c.data = some c :=
  (hn.child_eq_some _ _).mpr ⟨⟨j, h⟩, rfl⟩

/-- Behind the names of a node a search finds what it finds from that node on. -/
theorem TrieNode.Distinct.append_mem_paths (hn : n.Distinct) (h : Trie.nodeAt n a = some m)
    (t : List Text) : namesAt n a ++ t ∈ n.paths ↔ t ∈ m.paths := by
  induction a generalizing n with
  | nil =>
    cases h
    rfl
  | cons j a ih =>
    obtain ⟨c, hc, hm⟩ := childeren_of_nodeAt h
    rw [namesAt_cons hc, List.cons_append, cons_mem_paths, hn.child_of_childeren hc]
    simp only [Option.some.injEq, exists_eq_left']
    exact ih (hn.childeren hc) hm

theorem TrieNode.Distinct.namesAt_mem_paths (hn : n.Distinct) (h : Trie.nodeAt n a = some m) :
    namesAt n a ∈ n.paths := by
  have happ := hn.append_mem_paths h []
  rw [List.append_nil] at happ
  exact happ.mpr m.nil_mem_paths

/-- What a search finds are the names of a node. -/
theorem TrieNode.Distinct.exists_nodeAt (hn : n.Distinct) {p : List Text} (hp : p ∈ n.paths) :
    ∃ a m, Trie.nodeAt n a = some m ∧ namesAt n a = p := by
  induction p generalizing n with
  | nil => exact ⟨[], n, rfl, rfl⟩
  | cons w p ih =>
    obtain ⟨c, hc, hpc⟩ := (n.cons_mem_paths w p).mp hp
    obtain ⟨⟨j, hj⟩, hw⟩ := (hn.child_eq_some w c).mp hc
    obtain ⟨a, m, ha, hnames⟩ := ih (hn.child hc) hpc
    exact ⟨j :: a, m, (nodeAt_cons hj a).trans ha, by rw [namesAt_cons hj, hw, hnames]⟩

/-- Different nodes have different names on the way to them. -/
theorem TrieNode.Distinct.namesAt_inj (hn : n.Distinct) {b : Pointer} {m' : TrieNode}
    (ha : Trie.nodeAt n a = some m) (hb : Trie.nodeAt n b = some m')
    (heq : namesAt n a = namesAt n b) : a = b := by
  induction a generalizing n b with
  | nil =>
    cases b with
    | nil => rfl
    | cons k b =>
      obtain ⟨d, hd, -⟩ := childeren_of_nodeAt hb
      rw [namesAt_cons hd] at heq
      cases heq
  | cons j a ih =>
    obtain ⟨c, hc, ham⟩ := childeren_of_nodeAt ha
    cases b with
    | nil =>
      rw [namesAt_cons hc] at heq
      cases heq
    | cons k b =>
      obtain ⟨d, hd, hbm⟩ := childeren_of_nodeAt hb
      rw [namesAt_cons hc, namesAt_cons hd] at heq
      obtain ⟨hdata, hrest⟩ := List.cons_eq_cons.mp heq
      obtain rfl := hn.inj hc hd hdata
      obtain rfl := Option.some.inj (hc.symm.trans hd)
      rw [ih (hn.childeren hc) ham hbm hrest]

end Names

/-! ### The names of a history -/

/-- A component is a word of the path other than `~`. -/
theorem of_mem_components {p w : Text} (h : w ∈ components p) :
    w ≠ [] ∧ slash ∉ w ∧ w ≠ lit "~" := by
  obtain ⟨hw, htilde⟩ := List.mem_filter.mp h
  exact ⟨ne_nil_of_mem_tokens hw, notMem_of_mem_tokens hw, by simpa using htilde⟩

/-- What a history leaves in the abstract set is made of components of inserted paths. -/
theorem components_of_mem_runSet {ops : List TrieOp} {x : List Text} (hx : x ∈ runSet ops)
    {w : Text} (hw : w ∈ x) : ∃ p, .add p ∈ ops ∧ w ∈ components p := by
  induction ops using List.reverseRecOn generalizing x with
  | nil =>
    obtain rfl : x = [] := hx
    cases hw
  | append_singleton ops o ih =>
    have hbefore : x ∈ runSet ops → ∃ p, .add p ∈ ops ++ [o] ∧ w ∈ components p := by
      intro hx
      obtain ⟨p, hp, hwp⟩ := ih hx hw
      exact ⟨p, List.mem_append_left _ hp, hwp⟩
    rw [runSet, List.foldl_concat] at hx
    cases o with
    | add p =>
      obtain hx | hx := mem_insertPath hx
      · exact hbefore hx
      · exact ⟨p, by simp, hx.subset hw⟩
    | delete p => exact hbefore (mem_deletePath hx)

/-- The name of every node but the top one is a component of a path that was inserted. -/
theorem data_of_runTrie {data : Text} {ops : List TrieOp} (hv : ∀ o ∈ ops, o.Valid)
    {n m : TrieNode} (hn : runTrie data ops = some n) {a : Pointer} (ha : nodeAt n a = some m)
    (hne : a ≠ []) : ∃ p, .add p ∈ ops ∧ m.data ∈ components p := by
  obtain ⟨n', hn', hd, hpaths⟩ := runTrie_refines data hv
  obtain rfl := Option.some.inj (hn'.symm.trans hn)
  have hnames : namesAt n' a ∈ runSet ops := hpaths ▸ hd.namesAt_mem_paths ha
  exact components_of_mem_runSet hnames (data_mem_namesAt ha hne)

/-- After any history of valid calls, the children of every node carry different names, and
every name below the top is a word without slashes other than `~`. -/
theorem sibling_names_unique (ops : List TrieOp) (hv : ∀ o ∈ ops, o.Valid) :
    ∃ n, runTrie (lit ".") ops = some n ∧ ∀ a m, nodeAt n a = some m →
      (∀ i j c d, i ≠ j → m.childeren i = some c → m.childeren j = some d → c.data ≠ d.data) ∧
      (a ≠ [] → m.data ≠ [] ∧ slash ∉ m.data ∧ m.data ≠ lit "~") := by
  obtain ⟨n, hn, hd, -⟩ := runTrie_refines (lit ".") hv
  refine ⟨n, hn, fun a m ha ↦ ⟨?_, ?_⟩⟩
  · intro i j c d hij hc hd' hdata
    exact hij ((hd.nodeAt ha).inj hc hd' hdata)
  · intro hne
    obtain ⟨p, -, hp⟩ := data_of_runTrie hv hn ha hne
    exact of_mem_components hp

/-- A hole is filled again, and a folder that is not there is deleted. -/
theorem sibling_names_unique_reused :
    ∃ n, runTrie (lit ".") [.add (lit "./a/b"), .add (lit "./a/~/c"), .delete (lit "./a/b"),
        .add (lit "./a/d"), .delete (lit "./e")] = some n ∧ ∀ a m, nodeAt n a = some m →
      (∀ i j c d, i ≠ j → m.childeren i = some c → m.childeren j = some d → c.data ≠ d.data) ∧
      (a ≠ [] → m.data ≠ [] ∧ slash ∉ m.data ∧ m.data ≠ lit "~") :=
  sibling_names_unique _
    (by simp only [List.mem_cons, List.not_mem_nil, or_false, forall_eq_or_imp, forall_eq,
          TrieOp.Valid]; decide)

end NetworkFileSystem.Trie
