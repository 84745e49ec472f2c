import NetworkFileSystem.Trie.Siblings

/-!
# Leaf flags

`tries.c:5–12,81–95,136–164,256–279`. An insertion clears the flag of a node that it gives a
child. A deletion leaves all flags as they are, so that a folder which loses its last entry goes
on as a folder. Until that happens the flags are a matter of the path set alone, and with them
the counts and the colours.
-/

namespace NetworkFileSystem.Trie

open Base Base.PrefixSet TrieNode

mutual

/-- `tries.c:81–95`, with what `*dirs` and `*files` hold before and after. -/
def countItems : TrieNode → Nat × Nat → Nat × Nat
  | .node childeren isLeaf _, (dirs, files) =>
    (List.finRange maxFolders).foldl (fun count j ↦ countSlot (childeren j) count)
      (if isLeaf then (dirs, files + 1) else (dirs + 1, files))

/-- The body of the loop at `tries.c:90–94`. -/
def countSlot : Option TrieNode → Nat × Nat → Nat × Nat
  | none, count => count
  | some n, count => countItems n count

end

namespace TrieNode

/-- What holds at a node and at every node below it. -/
def Everywhere (P : TrieNode → Prop) (n : TrieNode) : Prop := ∀ a m, nodeAt n a = some m → P m

/-- The leaf flag tells whether all slots are empty. -/
def Honest (m : TrieNode) : Prop := m.isLeaf = true ↔ ∀ j, m.childeren j = none

end TrieNode

/-! ### Flags and calls -/

section Everywhere

variable {P : TrieNode → Prop} {n : TrieNode}

theorem everywhere_iff :
    n.Everywhere P ↔ P n ∧ ∀ j c, n.childeren j = some c → c.Everywhere P := by
  constructor
  · intro h
    refine ⟨h [] n rfl, fun j c hc a m hm ↦ h (j :: a) m ?_⟩
    rw [nodeAt_cons hc, hm]
  · rintro ⟨hn, hbelow⟩ a m hm
    cases a with
    | nil =>
      cases hm
      exact hn
    | cons j a =>
      obtain ⟨c, hc, hm⟩ := childeren_of_nodeAt hm
      exact hbelow j c hc a m hm

theorem everywhere_markFolder :
    n.markFolder.Everywhere P ↔ P n.markFolder ∧ ∀ j c, n.childeren j = some c → c.Everywhere P :=
  everywhere_iff

/-- A store brings in what holds below the stored child and keeps the rest. -/
theorem childeren_everywhere_setChild (h : ∀ i c, n.childeren i = some c → c.Everywhere P)
    {j : Fin maxFolders} {o : Option TrieNode} (ho : ∀ c ∈ o, c.Everywhere P) :
    ∀ i c, (n.setChild j o).childeren i = some c → c.Everywhere P := by
  intro i c hc
  rw [childeren_setChild, Function.update_apply] at hc
  split_ifs at hc with hij
  · exact ho c hc
  · exact h i c hc

end Everywhere

section Honest

variable {n c : TrieNode} {j : Fin maxFolders}

theorem honest_createNode (w : Text) : (createNode w).Honest := by
  simp [Honest, createNode, isLeaf, childeren]

/-- A node with a child has its flag cleared. -/
theorem TrieNode.Honest.isLeaf_eq_false (h : n.Honest) (hc : n.childeren j = some c) :
    n.isLeaf = false := by
  rw [← Bool.not_eq_true, h.not, not_forall]
  exact ⟨j, by simp [hc]⟩

theorem honest_of_childeren (hflag : n.isLeaf = false) (hc : n.childeren j = some c) :
    n.Honest := by
  rw [Honest, hflag]
  refine ⟨fun h ↦ absurd h (by simp), fun h ↦ ?_⟩
  rw [h j] at hc
  cases hc

/-- Another child in place of one leaves a flag right. -/
theorem TrieNode.Honest.setChild (h : n.Honest) (hc : n.childeren j = some c) (d : TrieNode) :
    (n.setChild j (some d)).Honest :=
  honest_of_childeren (c := d) (j := j) (h.isLeaf_eq_false hc) (by simp)

/-- An insertion keeps all flags right. -/
theorem honest_addLoop (ws : List Text) (h : n.Everywhere Honest) :
    (addLoop ws n).Everywhere Honest := by
  induction ws generalizing n with
  | nil => exact h
  | cons w ws ih =>
    obtain ⟨hn, hbelow⟩ := everywhere_iff.mp h
    simp only [addLoop]
    split
    · next j hf =>
      obtain ⟨c, hc, -⟩ := findSlot_some hf
      rw [hc, Option.map_some]
      refine everywhere_iff.mpr ⟨hn.setChild hc _, childeren_everywhere_setChild hbelow ?_⟩
      simp only [Option.mem_some_iff, forall_eq']
      exact ih (hbelow j c hc)
    · split
      · next j hj =>
        refine everywhere_markFolder.mpr ⟨?_, childeren_everywhere_setChild hbelow ?_⟩
        · apply honest_of_childeren (j := j) rfl
          rw [childeren_markFolder, childeren_setChild, Function.update_self]
        · simp only [Option.mem_some_iff, forall_eq']
          refine ih (everywhere_iff.mpr ⟨honest_createNode w, fun i d hd ↦ ?_⟩)
          rw [childeren_createNode] at hd
          cases hd
      · exact h

/-- A deletion keeps all flags right exactly if the folder has another entry. -/
theorem honest_deleteLoop_iff {ws : List Text} {m : TrieNode} (hd : n.Distinct)
    (h : n.Everywhere Honest) (hin : ws ∈ n.paths) (hm : deleteLoop ws n = some m) :
    m.Everywhere Honest ↔ HasSibling n.paths ws := by
  induction ws generalizing n m with
  | nil => cases hm
  | cons w ws ih =>
    obtain ⟨hn, hbelow⟩ := everywhere_iff.mp h
    obtain ⟨c, hc, hws⟩ := (n.cons_mem_paths w ws).mp hin
    obtain ⟨⟨j, hj⟩, hw⟩ := (hd.child_eq_some w c).mp hc
    have hf : n.findSlot w = some j := (hd.findSlot_eq_some w j).mpr ⟨c, hj, hw⟩
    cases ws with
    | nil =>
      rw [deleteLoop, hf, Option.some.injEq] at hm
      subst hm
      have hflag : (n.setChild j none).isLeaf = false := hn.isLeaf_eq_false hj
      constructor
      · intro hm
        obtain ⟨hm, -⟩ := everywhere_iff.mp hm
        rw [Honest, hflag] at hm
        have hsome : ∃ i, (n.setChild j none).childeren i ≠ none := by
          by_contra hnone
          push Not at hnone
          cases hm.mpr hnone
        obtain ⟨i, hi⟩ := hsome
        obtain ⟨d, hdi⟩ := Option.ne_none_iff_exists'.mp hi
        rw [childeren_setChild, Function.update_apply] at hdi
        split_ifs at hdi with hij
        refine ⟨d.data, (n.singleton_mem_paths _).mpr ?_, ?_⟩
        · simp [hd.child_of_childeren hdi]
        · intro heq
          obtain rfl : d.data = w := by simpa using heq
          exact hij (hd.inj hdi hj hw.symm)
      · rintro ⟨v, hv, hne⟩
        obtain ⟨d, hdv⟩ := Option.ne_none_iff_exists'.mp ((n.singleton_mem_paths v).mp hv)
        obtain ⟨⟨i, hi⟩, hdata⟩ := (hd.child_eq_some v d).mp hdv
        have hij : i ≠ j := by
          rintro rfl
          obtain rfl := Option.some.inj (hi.symm.trans hj)
          exact hne (by simp [← hdata, hw])
        refine everywhere_iff.mpr ⟨honest_of_childeren (c := d) (j := i) hflag ?_,
          childeren_everywhere_setChild hbelow (by simp)⟩
        rw [childeren_setChild, Function.update_of_ne hij, hi]
    | cons w' ws =>
      obtain ⟨d, hdel, rfl⟩ : ∃ d, deleteLoop (w' :: ws) c = some d ∧
          n.setChild j (some d) = m := by
        rw [deleteLoop, hf] at hm
        · simpa [hj, Option.map_eq_some_iff] using hm
        · simp
      rw [hasSibling_cons_cons, after_paths hc, ← ih (hd.child hc) (hbelow j c hj) hws hdel]
      constructor
      · intro hm
        exact (everywhere_iff.mp hm).2 j d (by simp)
      · intro hdown
        exact everywhere_iff.mpr ⟨hn.setChild hj d,
          childeren_everywhere_setChild hbelow (by simpa using hdown)⟩

end Honest

/-- A deletion leaves the folder of what it deletes another entry. -/
def TrieOp.KeepsSibling (n : TrieNode) : TrieOp → Prop
  | .add _ => True
  | .delete p => components p ∈ n.paths → HasSibling n.paths (components p)

/-- One call keeps all flags right exactly if it does not empty a folder. -/
theorem TrieOp.honest_iff {o : TrieOp} {n m : TrieNode} (hd : n.Distinct)
    (h : n.Everywhere Honest) (hm : o.run n = some m) :
    m.Everywhere Honest ↔ o.KeepsSibling n := by
  cases o with
  | add p =>
    obtain ⟨ws, -, rfl⟩ := Option.map_eq_some_iff.mp hm
    exact ⟨fun _ ↦ trivial, fun _ ↦ honest_addLoop ws h⟩
  | delete p =>
    obtain ⟨ws, hws, hdel⟩ := Option.bind_eq_some_iff.mp hm
    obtain ⟨-, rfl⟩ := length_of_parsePath hws
    by_cases hin : components p ∈ n.paths
    · have hs : searchPathHelper (components p) n = true := hin
      rw [if_pos hs] at hdel
      rw [honest_deleteLoop_iff hd h hin hdel]
      exact ⟨fun hsib _ ↦ hsib, fun hsib ↦ hsib hin⟩
    · have hs : ¬ searchPathHelper (components p) n = true := hin
      rw [if_neg hs] at hdel
      cases hdel
      exact ⟨fun _ hin' ↦ absurd hin' hin, fun _ ↦ h⟩

/-! ### What is counted -/

/-- The node at `a` has this flag. -/
def flagAt (n : TrieNode) (isLeaf : Bool) (a : Pointer) : Bool :=
  (nodeAt n a).any (·.isLeaf == isLeaf)

private theorem foldl_counts {α : Type} (l : List α) {f : α → Nat × Nat → Nat × Nat}
    {dirs files : α → Nat} (hf : ∀ x count, f x count = (count.1 + dirs x, count.2 + files x))
    (count : Nat × Nat) :
    l.foldl (fun count x ↦ f x count) count =
      (count.1 + (l.map dirs).sum, count.2 + (l.map files).sum) := by
  induction l generalizing count with
  | nil => rfl
  | cons x l ih =>
    rw [List.foldl_cons, ih, hf, List.map_cons, List.map_cons, List.sum_cons, List.sum_cons,
      Nat.add_assoc, Nat.add_assoc]

/-- The nodes below a slot with this flag. -/
private def slotFlags (j : Fin maxFolders) (isLeaf : Bool) (o : Option TrieNode) : Nat :=
  (childPointers j o).countP (fun a ↦ o.any (flagAt · isLeaf a.tail))

private theorem countP_flagAt (childeren : Fin maxFolders → Option TrieNode) (leaf : Bool)
    (data : Text) (isLeaf : Bool) :
    (pointers (.node childeren leaf data)).countP (flagAt (.node childeren leaf data) isLeaf) =
      (if leaf = isLeaf then 1 else 0) +
        ((List.finRange maxFolders).map (fun j ↦ slotFlags j isLeaf (childeren j))).sum := by
  rw [pointers, List.countP_cons, List.countP_flatMap, Nat.add_comm]
  refine congrArg₂ (· + ·) ?_ (congrArg List.sum ?_)
  · simp [flagAt, nodeAt, TrieNode.isLeaf]
  · apply List.map_congr_left
    intro j _
    rw [Function.comp_apply, slotFlags]
    apply List.countP_congr
    intro b hb
    obtain ⟨c, a, hc, rfl, -⟩ := (mem_childPointers j (childeren j) b).mp hb
    simp [flagAt, nodeAt_cons (n := .node childeren leaf data) hc, hc]

mutual

/-- The counts are those of the nodes with either flag. -/
theorem countItems_eq : (n : TrieNode) → (count : Nat × Nat) →
    countItems n count = (count.1 + (pointers n).countP (flagAt n false),
      count.2 + (pointers n).countP (flagAt n true))
  | .node childeren isLeaf data, count => by
    obtain ⟨dirs, files⟩ := count
    rw [countItems, foldl_counts _ (fun j count ↦ countSlot_eq j (childeren j) count),
      countP_flagAt, countP_flagAt]
    cases isLeaf
    · simp [Nat.add_assoc]
    · simp [Nat.add_assoc]

private theorem countSlot_eq (j : Fin maxFolders) : (o : Option TrieNode) → (count : Nat × Nat) →
    countSlot o count = (count.1 + slotFlags j false o, count.2 + slotFlags j true o)
  | none, count => by
    rw [countSlot]
    rfl
  | some n, count => by
    have hflags : ∀ isLeaf, slotFlags j isLeaf (some n) =
        (pointers n).countP (flagAt n isLeaf) := by
      intro isLeaf
      rw [slotFlags, childPointers, List.countP_map]
      rfl
    rw [countSlot, countItems_eq n count, hflags, hflags]

end

section Truth

variable {n m : TrieNode} {a : Pointer}

/-- The nodes of a kind are as many as their names. -/
theorem TrieNode.Distinct.countP_eq_ncard (hd : n.Distinct) {f : Pointer → Bool}
    {S : Set (List Text)} (hS : S ⊆ n.paths)
    (hf : ∀ a m, Trie.nodeAt n a = some m → (f a = true ↔ namesAt n a ∈ S)) :
    (pointers n).countP f = S.ncard := by
  classical
  have hnode : ∀ a ∈ (pointers n).filter f, ∃ m, Trie.nodeAt n a = some m := fun a ha ↦
    Option.isSome_iff_exists.mp ((mem_pointers n a).mp (List.mem_filter.mp ha).1)
  have hnodup : (((pointers n).filter f).map (namesAt n)).Nodup := by
    refine List.Nodup.map_on ?_ ((pairwise_pointers n).nodup.filter f)
    intro a ha b hb heq
    obtain ⟨m, hm⟩ := hnode a ha
    obtain ⟨m', hm'⟩ := hnode b hb
    exact hd.namesAt_inj hm hm' heq
  have hset : S = (((pointers n).filter f).map (namesAt n)).toFinset := by
    ext p
    rw [Finset.mem_coe, List.mem_toFinset, List.mem_map]
    constructor
    · intro hp
      obtain ⟨a, m, hm, rfl⟩ := hd.exists_nodeAt (hS hp)
      refine ⟨a, List.mem_filter.mpr ⟨(mem_pointers n a).mpr ?_, (hf a m hm).mpr hp⟩, rfl⟩
      rw [hm]
      rfl
    · rintro ⟨a, ha, rfl⟩
      obtain ⟨m, hm⟩ := hnode a ha
      exact (hf a m hm).mp (List.mem_filter.mp ha).2
  rw [hset, Set.ncard_coe_finset, List.toFinset_card_of_nodup hnodup, List.length_map,
    List.countP_eq_length_filter]

/-- A node has no children exactly if its names are a leaf of the path set. -/
theorem TrieNode.Distinct.mem_leaves_iff (hd : n.Distinct) (ha : Trie.nodeAt n a = some m) :
    namesAt n a ∈ leaves n.paths ↔ ∀ j, m.childeren j = none := by
  rw [leaves, Set.mem_ofPred_eq, and_iff_right (hd.namesAt_mem_paths ha)]
  simp only [hd.append_mem_paths ha, singleton_mem_paths, not_not]
  constructor
  · intro h j
    cases hj : m.childeren j with
    | none => rfl
    | some c =>
      have hchild := (hd.nodeAt ha).child_of_childeren hj
      rw [h c.data] at hchild
      cases hchild
  · intro h w
    exact (m.child_eq_none w).mpr (fun j c hj ↦ by simp [h j] at hj)

theorem mem_branching_iff {S : Set (List Text)} {p : List Text} (hp : p ∈ S) :
    p ∈ branching S ↔ p ∉ leaves S := by
  simp [branching, leaves, hp]

end Truth

open Classical in
/-- The flags tell whether a node has children, and what is counted and how lines are coloured
is a matter of the path set. -/
structure TellsTruth (n : TrieNode) : Prop where
  flags : ∀ a m, nodeAt n a = some m → (m.isLeaf = true ↔ ∀ j, m.childeren j = none)
  counts : countItems n (0, 0) = ((branching n.paths).ncard, (leaves n.paths).ncard)
  /-- The lines of a drawing from any node `top` of the trie. -/
  colours : ∀ a top b m, nodeAt n a = some top → nodeAt top b = some m →
    lineAt top b = Naming.treeLine (columnsAt top b) (placeAt top b)
      (decide (namesAt n (a ++ b) ∈ leaves n.paths)) m.data

theorem tellsTruth_iff {n : TrieNode} (hd : n.Distinct) :
    TellsTruth n ↔ n.Everywhere Honest := by
  classical
  refine ⟨fun h ↦ h.flags, fun h ↦ ?_⟩
  have hleaf : ∀ a m, nodeAt n a = some m → (m.isLeaf = true ↔ namesAt n a ∈ leaves n.paths) :=
    fun a m ha ↦ (h a m ha).trans (hd.mem_leaves_iff ha).symm
  refine ⟨h, ?_, ?_⟩
  · rw [countItems_eq, Nat.zero_add, Nat.zero_add,
      hd.countP_eq_ncard (f := flagAt n false) (S := branching n.paths) (fun p hp ↦ hp.1) ?_,
      hd.countP_eq_ncard (f := flagAt n true) (S := leaves n.paths) (fun p hp ↦ hp.1) ?_]
    · intro a m ha
      rw [flagAt, ha, ← hleaf a m ha]
      simp
    · intro a m ha
      rw [flagAt, ha, mem_branching_iff (hd.namesAt_mem_paths ha), ← hleaf a m ha]
      simp
  · intro a top b m ha hb
    have hflag : m.isLeaf = decide (namesAt n (a ++ b) ∈ leaves n.paths) := by
      rw [Bool.eq_iff_iff, decide_eq_true_iff]
      exact hleaf (a ++ b) m ((nodeAt_append ha b).trans hb)
    rw [lineAt, hb, ← hflag]

/-! ### Histories -/

theorem runTrie_take_succ {data : Text} {ops : List TrieOp} {k : Nat} {o : TrieOp}
    (h : ops[k]? = some o) :
    runTrie data (ops.take (k + 1)) = (runTrie data (ops.take k)).bind o.run := by
  rw [List.take_add_one, h, runTrie, List.foldlM_append]
  simp [runTrie]

/-- The flags stay right through a history exactly if no deletion in it takes the last entry of a
folder. -/
theorem flags_tell_truth_iff (ops : List TrieOp) :
    (∀ k n, runTrie (lit ".") (ops.take k) = some n → TellsTruth n) ↔
      ∀ k o n, ops[k]? = some o → o.Valid → runTrie (lit ".") (ops.take k) = some n →
        o.KeepsSibling n := by
  constructor
  · intro h k o n ho hv hn
    have hd := distinct_of_runTrie hn
    obtain ⟨m, hm, -⟩ := TrieOp.run_refines hv hd
    have hnext : runTrie (lit ".") (ops.take (k + 1)) = some m := by
      rw [runTrie_take_succ ho, hn]
      exact hm
    exact (TrieOp.honest_iff hd (h k n hn).flags hm).mp (h (k + 1) m hnext).flags
  · intro h k
    induction k with
    | zero =>
      intro n hn
      obtain rfl : createNode (lit ".") = n := Option.some.inj hn
      refine (tellsTruth_iff (distinct_createNode _)).mpr (everywhere_iff.mpr ⟨?_, ?_⟩)
      · exact honest_createNode _
      · intro j c hc
        rw [childeren_createNode] at hc
        cases hc
    | succ k ih =>
      intro m hm
      refine (tellsTruth_iff (distinct_of_runTrie hm)).mpr ?_
      cases ho : ops[k]? with
      | none =>
        rw [List.take_add_one, ho, Option.toList_none, List.append_nil] at hm
        exact (ih m hm).flags
      | some o =>
        obtain ⟨n, hn, hstep⟩ := Option.bind_eq_some_iff.mp (runTrie_take_succ ho ▸ hm)
        exact (TrieOp.honest_iff (distinct_of_runTrie hn) (ih n hn).flags hstep).mpr
          (h k o n ho (TrieOp.valid_of_run hstep) hn)

/-- Of two files in a folder one is deleted. -/
theorem flags_tell_truth_sample :
    ∃ n, runTrie (lit ".") [.add (lit "./a/b"), .add (lit "./a/c"), .delete (lit "./a/b")] =
      some n ∧ TellsTruth n := by
  have hvalid : ∀ o ∈ [TrieOp.add (lit "./a/b"), .add (lit "./a/c"), .delete (lit "./a/b")],
      o.Valid := by
    simp only [List.mem_cons, List.not_mem_nil, or_false, forall_eq_or_imp, forall_eq,
      TrieOp.Valid]
    decide
  obtain ⟨n, hn, -⟩ := runTrie_refines (lit ".") hvalid
  refine ⟨n, hn, (flags_tell_truth_iff [.add (lit "./a/b"), .add (lit "./a/c"),
    .delete (lit "./a/b")]).mpr (fun k o m ho _ hm ↦ ?_) 3 n hn⟩
  rcases k with _ | _ | _ | k
  · cases ho
    trivial
  · cases ho
    trivial
  · cases ho
    have hcheck : ((runTrie (lit ".") [.add (lit "./a/b"), .add (lit "./a/c")]).any
        (fun n ↦ searchPathHelper [lit ".", lit "a", lit "c"] n)) = true := by
      decide +kernel
    rw [List.take_succ_cons, List.take_succ_cons, List.take_zero] at hm
    rw [hm, Option.any_some] at hcheck
    exact fun _ ↦ ⟨lit "c", hcheck, by decide⟩
  · cases ho

/-- A folder that has lost its only entry is counted as a folder, and as a file where it never
had one. -/
theorem emptied_folder_stays_folder :
    ∃ n m, runTrie (lit ".") [.add (lit "./a"), .add (lit "./a/b"), .delete (lit "./a/b")] =
        some n ∧
      runTrie (lit ".") [.add (lit "./a")] = some m ∧ n.paths = m.paths ∧
      (∃ folder, nodeAt n [Naming.firstSlot, Naming.firstSlot] = some folder ∧
        folder.isLeaf = false ∧ ∀ j, folder.childeren j = none) ∧
      countItems n (0, 0) = (3, 0) ∧ countItems m (0, 0) = (2, 1) := by
  have hvalid : ∀ o ∈ [TrieOp.add (lit "./a"), .add (lit "./a/b"), .delete (lit "./a/b")],
      o.Valid := by
    simp only [List.mem_cons, List.not_mem_nil, or_false, forall_eq_or_imp, forall_eq,
      TrieOp.Valid]
    decide
  obtain ⟨n, hn, -, hpaths⟩ := runTrie_refines (lit ".") hvalid
  have hvalidm : ∀ o ∈ [TrieOp.add (lit "./a")], o.Valid :=
    fun o ho ↦ hvalid o (List.mem_singleton.mp ho ▸ List.mem_cons_self)
  obtain ⟨m, hm, hd, hpathsm⟩ := runTrie_refines (lit ".") hvalidm
  have hcheck : ((runTrie (lit ".") [.add (lit "./a"), .add (lit "./a/b"),
      .delete (lit "./a/b")]).any (fun n ↦ countItems n (0, 0) == (3, 0) &&
        (nodeAt n [Naming.firstSlot, Naming.firstSlot]).any (fun folder ↦ !folder.isLeaf &&
          (List.finRange maxFolders).all (fun j ↦ (folder.childeren j).isNone)))) = true := by
    decide +kernel
  have hcheckm : ((runTrie (lit ".") [.add (lit "./a")]).any (fun m ↦
      countItems m (0, 0) == (2, 1) && searchPathHelper (components (lit "./a")) m &&
        (nodeAt m [Naming.firstSlot, Naming.firstSlot]).any (fun file ↦
          namesAt m [Naming.firstSlot, Naming.firstSlot] == components (lit "./a") &&
          (List.finRange maxFolders).all (fun j ↦ (file.childeren j).isNone)))) = true := by
    decide +kernel
  rw [hn] at hcheck
  rw [hm] at hcheckm
  simp only [Option.any_some, Option.any_eq_true, Bool.and_eq_true, beq_iff_eq,
    Bool.not_eq_true', List.all_eq_true, List.mem_finRange, true_imp_iff, Option.isNone_iff_eq_none]
    at hcheck hcheckm
  obtain ⟨hcount, folder, hfolder, hflag, hempty⟩ := hcheck
  obtain ⟨⟨hcountm, hin⟩, file, hfile, hnames, hemptym⟩ := hcheckm
  have hleaf : components (lit "./a") ∈ leaves m.paths :=
    hnames ▸ (hd.mem_leaves_iff hfile).mpr hemptym
  refine ⟨n, m, hn, hm, ?_, ⟨folder, hfolder, hflag, hempty⟩, hcount, hcountm⟩
  calc n.paths = PrefixSet.deletePath (insertPath maxFolders (runSet [.add (lit "./a")])
        (components (lit "./a/b"))) (components (lit "./a/b")) := hpaths
    _ = PrefixSet.deletePath (insertPath maxFolders m.paths (components (lit "./a") ++ [lit "b"]))
        (components (lit "./a") ++ [lit "b"]) := by
          rw [hpathsm, show components (lit "./a/b") = components (lit "./a") ++ [lit "b"] by decide]
    _ = m.paths := by
      refine deletePath_insertPath_snoc m.paths_prefixClosed hin (hleaf.2 _) ?_
      rw [children_eq_empty hleaf, Set.ncard_empty]
      decide

end NetworkFileSystem.Trie
