import NetworkFileSystem.Trie.Node
import NetworkFileSystem.Base.PrefixSet

/-!
# The path set of a trie

`tries.c:136–164,226–279`. In a trie whose siblings carry different names the slot
order does not matter: a node is determined, as far as searches go, by its partial
map from names to children. The three loops are described by what they do to that
map, and from it to the set of component lists a search finds.
-/

namespace NetworkFileSystem.Trie

open Base Base.PrefixSet

/-! ### Components -/

theorem components_append_cons (s t : Text) :
    components (s ++ slash :: t) = components s ++ components t := by
  simp [components, tokens_append_cons]

/-- A text without slashes is at most one component. -/
theorem components_of_notMem {s : Text} (h : slash ∉ s) :
    components s = if s = [] ∨ s = lit "~" then [] else [s] := by
  by_cases hs : s = []
  · simp [hs, components]
  · by_cases ht : s = lit "~"
    · rw [components, tokens_of_notMem h hs]
      simp [ht]
    · simp [components, tokens_of_notMem h hs, ht, hs]

/-- A path has at most one component more than what stands before its last slash. -/
theorem components_beforeLast (p : Text) :
    components p = components (beforeLast slash p) ∨
      ∃ name, components p = components (beforeLast slash p) ++ [name] := by
  by_cases h : slash ∈ p
  · obtain ⟨hp, hafter⟩ := split_last h
    have hcomps : components p = components (beforeLast slash p) ++
        components (afterLast slash p) := by
      rw [← components_append_cons, ← hp]
    rw [hcomps, components_of_notMem hafter]
    split_ifs
    · exact .inl (by simp)
    · exact .inr ⟨_, rfl⟩
  · exact .inl (by rw [beforeLast_of_notMem h])

namespace TrieNode

@[simp] theorem childeren_setChild (n : TrieNode) (j : Fin maxFolders) (c : Option TrieNode) :
    (n.setChild j c).childeren = Function.update n.childeren j c := rfl

@[simp] theorem data_setChild (n : TrieNode) (j : Fin maxFolders) (c : Option TrieNode) :
    (n.setChild j c).data = n.data := rfl

@[simp] theorem childeren_markFolder (n : TrieNode) : n.markFolder.childeren = n.childeren := rfl

@[simp] theorem data_markFolder (n : TrieNode) : n.markFolder.data = n.data := rfl

@[simp] theorem childeren_createNode (d : Text) (j : Fin maxFolders) :
    (createNode d).childeren j = none := rfl

@[simp] theorem data_createNode (d : Text) : (createNode d).data = d := rfl

/-- Siblings carry pairwise different names, at every node. -/
inductive Distinct : TrieNode → Prop where
  | intro {n : TrieNode} :
      (∀ i j c d, n.childeren i = some c → n.childeren j = some d → c.data = d.data → i = j) →
      (∀ i c, n.childeren i = some c → Distinct c) → Distinct n

theorem Distinct.inj {n : TrieNode} (h : n.Distinct) {i j : Fin maxFolders} {c d : TrieNode}
    (hi : n.childeren i = some c) (hj : n.childeren j = some d) (he : c.data = d.data) : i = j := by
  cases h with
  | intro hd _ => exact hd i j c d hi hj he

theorem Distinct.childeren {n : TrieNode} (h : n.Distinct) {i : Fin maxFolders} {c : TrieNode}
    (hi : n.childeren i = some c) : c.Distinct := by
  cases h with
  | intro _ hc => exact hc i c hi

theorem hasName_iff (n : TrieNode) (w : Text) (j : Fin maxFolders) :
    n.hasName w j = true ↔ ∃ c, n.childeren j = some c ∧ c.data = w := by
  unfold hasName
  cases n.childeren j <;> simp

theorem findSlot_eq_none (n : TrieNode) (w : Text) :
    n.findSlot w = none ↔ ∀ j c, n.childeren j = some c → c.data ≠ w := by
  simp only [findSlot, List.find?_eq_none, List.mem_finRange, true_imp_iff, hasName_iff]
  grind

theorem findSlot_some {n : TrieNode} {w : Text} {j : Fin maxFolders} (h : n.findSlot w = some j) :
    ∃ c, n.childeren j = some c ∧ c.data = w :=
  (n.hasName_iff w j).mp (List.find?_some h)

theorem freeSlot_some {n : TrieNode} {j : Fin maxFolders} (h : n.freeSlot = some j) :
    n.childeren j = none := by
  simpa using List.find?_some h

theorem freeSlot_eq_none (n : TrieNode) :
    n.freeSlot = none ↔ ∀ j, ∃ c, n.childeren j = some c := by
  simp [freeSlot, List.find?_eq_none, Option.ne_none_iff_exists']

/-- With distinct siblings the first match is the only one. -/
theorem Distinct.findSlot_eq_some {n : TrieNode} (h : n.Distinct) (w : Text)
    (j : Fin maxFolders) :
    n.findSlot w = some j ↔ ∃ c, n.childeren j = some c ∧ c.data = w := by
  refine ⟨findSlot_some, ?_⟩
  rintro ⟨c, hc, hw⟩
  cases hf : n.findSlot w with
  | none => exact absurd hw ((n.findSlot_eq_none w).mp hf j c hc)
  | some i =>
    obtain ⟨d, hd, hdw⟩ := findSlot_some hf
    rw [h.inj hd hc (hdw.trans hw.symm)]

/-- The children of a node as a partial map from names. -/
theorem Distinct.child_eq_some {n : TrieNode} (h : n.Distinct) (w : Text) (c : TrieNode) :
    n.child w = some c ↔ (∃ j, n.childeren j = some c) ∧ c.data = w := by
  simp only [child, Option.bind_eq_bind, Option.bind_eq_some_iff, h.findSlot_eq_some]
  constructor
  · rintro ⟨j, ⟨d, hd, hw⟩, hj⟩
    rw [hd, Option.some.injEq] at hj
    subst hj
    exact ⟨⟨j, hd⟩, hw⟩
  · rintro ⟨⟨j, hj⟩, hw⟩
    exact ⟨j, ⟨c, hj, hw⟩, hj⟩

theorem child_eq_none (n : TrieNode) (w : Text) :
    n.child w = none ↔ ∀ j c, n.childeren j = some c → c.data ≠ w := by
  rw [← findSlot_eq_none]
  cases hf : n.findSlot w with
  | none => simp [child, hf]
  | some j =>
    obtain ⟨c, hc, -⟩ := findSlot_some hf
    simp [child, hf, hc]

theorem Distinct.child {n : TrieNode} (h : n.Distinct) {w : Text} {c : TrieNode}
    (hc : n.child w = some c) : c.Distinct := by
  obtain ⟨⟨j, hj⟩, -⟩ := (h.child_eq_some w c).mp hc
  exact h.childeren hj

/-- A slot that may take the name `w`: no other slot carries it. -/
def Admits (n : TrieNode) (j : Fin maxFolders) (w : Text) : Prop :=
  ∀ i c, n.childeren i = some c → c.data = w → i = j

/-- Storing a child of an admitted name keeps siblings distinct. -/
theorem Distinct.setChild {n : TrieNode} (h : n.Distinct) {j : Fin maxFolders} {w : Text}
    (ha : n.Admits j w) {c : Option TrieNode} (hd : ∀ d ∈ c, d.data = w ∧ d.Distinct) :
    (n.setChild j c).Distinct := by
  constructor
  · intro i k x y hi hk he
    simp only [childeren_setChild, Function.update_apply] at hi hk
    split_ifs at hi hk with h₁ h₂ h₂
    · rw [h₁, h₂]
    · exact h₁.trans (ha k y hk (he.symm.trans (hd x hi).1)).symm
    · exact (ha i x hi (he.trans (hd y hk).1)).trans h₂.symm
    · exact h.inj hi hk he
  · intro i x hi
    simp only [childeren_setChild, Function.update_apply] at hi
    split_ifs at hi with h₁
    · exact (hd x hi).2
    · exact h.childeren hi

/-- A store changes the map from names at the stored name only. -/
theorem Distinct.child_setChild {n : TrieNode} (h : n.Distinct) {j : Fin maxFolders} {w : Text}
    (ha : n.Admits j w) (hj : ∀ c, n.childeren j = some c → c.data = w) {c : Option TrieNode}
    (hd : ∀ d ∈ c, d.data = w ∧ d.Distinct) (v : Text) :
    (n.setChild j c).child v = if v = w then c else n.child v := by
  have hs := h.setChild ha hd
  apply Option.ext
  intro x
  rw [hs.child_eq_some]
  simp only [childeren_setChild, Function.update_apply]
  split_ifs with hv
  · subst hv
    constructor
    · rintro ⟨⟨i, hi⟩, hx⟩
      split_ifs at hi with h₁
      · exact hi
      · exact absurd (ha i x hi hx) h₁
    · intro hx
      exact ⟨⟨j, by simpa using hx⟩, (hd x hx).1⟩
  · rw [h.child_eq_some]
    constructor
    · rintro ⟨⟨i, hi⟩, hx⟩
      split_ifs at hi with h₁
      · exact absurd (hx.symm.trans (hd x hi).1) hv
      · exact ⟨⟨i, hi⟩, hx⟩
    · rintro ⟨⟨i, hi⟩, hx⟩
      have hij : i ≠ j := by
        intro he
        subst he
        exact hv (hx.symm.trans (hj x hi))
      exact ⟨⟨i, by simpa [hij] using hi⟩, hx⟩

theorem Distinct.markFolder {n : TrieNode} (h : n.Distinct) : n.markFolder.Distinct :=
  ⟨fun _ _ _ _ hi hj ↦ h.inj hi hj, fun _ _ hi ↦ h.childeren hi⟩

theorem distinct_createNode (d : Text) : (createNode d).Distinct :=
  ⟨by simp, by simp⟩

/-- The slot that a name was found in admits that name. -/
theorem Distinct.admits_findSlot {n : TrieNode} (h : n.Distinct) {w : Text}
    {j : Fin maxFolders} (hf : n.findSlot w = some j) : n.Admits j w := by
  obtain ⟨c, hc, hw⟩ := findSlot_some hf
  intro i d hi hd
  exact h.inj hi hc (hd.trans hw.symm)

/-- Every slot admits a name that no child carries. -/
theorem admits_of_findSlot_none {n : TrieNode} {w : Text} (hf : n.findSlot w = none)
    (j : Fin maxFolders) : n.Admits j w :=
  fun i c hi hw ↦ absurd hw ((n.findSlot_eq_none w).mp hf i c hi)

/-- The component lists that a search finds below `n`. -/
def paths (n : TrieNode) : Set (List Text) := {ws | searchPathHelper ws n = true}

theorem nil_mem_paths (n : TrieNode) : [] ∈ n.paths := rfl

theorem cons_mem_paths (n : TrieNode) (w : Text) (ws : List Text) :
    w :: ws ∈ n.paths ↔ ∃ c, n.child w = some c ∧ ws ∈ c.paths := by
  simp only [paths, Set.mem_ofPred_eq, searchPathHelper]
  cases n.child w <;> simp

theorem singleton_mem_paths (n : TrieNode) (w : Text) : [w] ∈ n.paths ↔ n.child w ≠ none := by
  simp [cons_mem_paths, nil_mem_paths, Option.ne_none_iff_exists']

theorem after_paths {n c : TrieNode} {w : Text} (h : n.child w = some c) :
    after w n.paths = c.paths := by
  ext ws
  simp [after, cons_mem_paths, h]

theorem paths_createNode (d : Text) : (createNode d).paths = {[]} := by
  ext ws
  cases ws with
  | nil => simp [nil_mem_paths]
  | cons w ws =>
    have hnone : (createNode d).child w = none := (child_eq_none _ _).mpr (by simp)
    simp [cons_mem_paths, hnone]

/-- A search that finds a path finds each of its prefixes. -/
theorem paths_prefixClosed (n : TrieNode) : PrefixClosed n.paths := by
  intro p q hpq hq
  induction p generalizing n q with
  | nil => exact nil_mem_paths n
  | cons w p ih =>
    obtain ⟨t, rfl⟩ := hpq
    rw [List.cons_append, cons_mem_paths] at hq
    obtain ⟨c, hc, ht⟩ := hq
    exact (n.cons_mem_paths w p).mpr ⟨c, hc, ih c _ ⟨t, rfl⟩ ht⟩

/-- The used slots and the names found below a node are equally many. -/
private theorem ncard_children {n : TrieNode} (h : n.Distinct) :
    (children n.paths []).ncard = {j | n.childeren j ≠ none}.ncard := by
  let name (j : Fin maxFolders) : Text := ((n.childeren j).map data).getD []
  have himage : children n.paths [] = name '' {j | n.childeren j ≠ none} := by
    ext w
    simp only [children, List.nil_append, Set.mem_ofPred_eq, singleton_mem_paths,
      Option.ne_none_iff_exists', h.child_eq_some, Set.mem_image]
    constructor
    · rintro ⟨c, ⟨j, hj⟩, hw⟩
      exact ⟨j, ⟨c, hj⟩, by simp [name, hj, hw]⟩
    · rintro ⟨j, ⟨c, hj⟩, hw⟩
      exact ⟨c, ⟨j, hj⟩, by simpa [name, hj] using hw⟩
  rw [himage]
  apply Set.InjOn.ncard_image
  intro i hi j hj he
  obtain ⟨c, hc⟩ := Option.ne_none_iff_exists'.mp hi
  obtain ⟨d, hd⟩ := Option.ne_none_iff_exists'.mp hj
  exact h.inj hc hd (by simpa [name, hc, hd] using he)

/-- No node of a trie has more names than slots. -/
theorem encard_children_le (n : TrieNode) (q : List Text) :
    (children n.paths q).encard ≤ maxFolders := by
  induction q generalizing n with
  | nil =>
    let name (j : Fin maxFolders) : Text := ((n.childeren j).map data).getD []
    have hsub : children n.paths [] ⊆ Set.range name := by
      intro w hw
      have hchild : n.child w ≠ none := (n.singleton_mem_paths w).mp hw
      rw [Ne, child_eq_none] at hchild
      push Not at hchild
      obtain ⟨j, c, hj, hdata⟩ := hchild
      exact ⟨j, by simp [name, hj, hdata]⟩
    calc (children n.paths []).encard ≤ (Set.range name).encard := Set.encard_le_encard hsub
      _ ≤ (Set.univ : Set (Fin maxFolders)).encard := Set.image_univ ▸ Set.encard_image_le _ _
      _ = maxFolders := by rw [Set.encard_univ, ENat.card_eq_coe_fintype_card, Fintype.card_fin]
  | cons w q ih =>
    cases hc : n.child w with
    | none =>
      have hempty : children n.paths (w :: q) = ∅ := by
        rw [Set.eq_empty_iff_forall_notMem]
        intro v hv
        obtain ⟨c, hsome, -⟩ := (n.cons_mem_paths w (q ++ [v])).mp hv
        rw [hc] at hsome
        cases hsome
      rw [hempty, Set.encard_empty]
      exact zero_le
    | some c =>
      have hbelow : children n.paths (w :: q) = children c.paths q := by
        rw [← after_paths hc]
        rfl
      rw [hbelow]
      exact ih c

/-- A node without a free slot has `MAX_FOLDERS` different names. -/
theorem le_ncard_children_of_full {n : TrieNode} (h : n.Distinct) (hf : n.freeSlot = none) :
    maxFolders ≤ (children n.paths []).ncard := by
  have hall : {j | n.childeren j ≠ none} = Set.univ := by
    ext j
    simpa [Option.ne_none_iff_exists'] using (n.freeSlot_eq_none).mp hf j
  rw [ncard_children h, hall, Set.ncard_univ, Nat.card_fin]

/-- A node with a free slot has fewer than `MAX_FOLDERS` names. -/
theorem ncard_children_lt_of_free {n : TrieNode} (h : n.Distinct) {j : Fin maxFolders}
    (hf : n.freeSlot = some j) : (children n.paths []).ncard < maxFolders := by
  have hsub : {j | n.childeren j ≠ none} ⊂ Set.univ := by
    refine Set.ssubset_univ_iff.mpr (fun hu ↦ ?_)
    have hj : j ∈ {j | n.childeren j ≠ none} := hu ▸ Set.mem_univ j
    exact hj (freeSlot_some hf)
  calc (children n.paths []).ncard = {j | n.childeren j ≠ none}.ncard := ncard_children h
    _ < (Set.univ : Set (Fin maxFolders)).ncard := Set.ncard_lt_ncard hsub
    _ = maxFolders := by rw [Set.ncard_univ, Nat.card_fin]

end TrieNode

open TrieNode

/-! ### Insertion -/

theorem data_addLoop (ws : List Text) (n : TrieNode) : (addLoop ws n).data = n.data := by
  cases ws with
  | nil => rfl
  | cons w ws =>
    simp only [addLoop]
    split
    · rfl
    · split <;> rfl

theorem distinct_addLoop (ws : List Text) {n : TrieNode} (h : n.Distinct) :
    (addLoop ws n).Distinct := by
  induction ws generalizing n with
  | nil => exact h
  | cons w ws ih =>
    simp only [addLoop]
    split
    · next j hf =>
      obtain ⟨c, hc, hw⟩ := findSlot_some hf
      refine h.setChild (h.admits_findSlot hf) ?_
      simp only [hc, Option.map_some, Option.mem_some_iff, forall_eq']
      exact ⟨(data_addLoop ws c).trans hw, ih (h.childeren hc)⟩
    · next hf =>
      split
      · next j hj =>
        refine (h.setChild (admits_of_findSlot_none hf j) ?_).markFolder
        simp only [Option.mem_some_iff, forall_eq']
        exact ⟨data_addLoop ws _, ih (distinct_createNode w)⟩
      · exact h

private theorem child_markFolder (n : TrieNode) (v : Text) : n.markFolder.child v = n.child v := rfl

/-- Insertion below a name that is there replaces that child. -/
theorem child_addLoop_found {n c : TrieNode} (h : n.Distinct) {w : Text} (hc : n.child w = some c)
    (ws : List Text) (v : Text) :
    (addLoop (w :: ws) n).child v = if v = w then some (addLoop ws c) else n.child v := by
  obtain ⟨⟨j, hj⟩, hw⟩ := (h.child_eq_some w c).mp hc
  have hf : n.findSlot w = some j := (h.findSlot_eq_some w j).mpr ⟨c, hj, hw⟩
  simp only [addLoop, hf, hj, Option.map_some]
  apply h.child_setChild (h.admits_findSlot hf)
  · intro d hd
    rw [hj, Option.some.injEq] at hd
    exact hd ▸ hw
  · simp only [Option.mem_some_iff, forall_eq']
    exact ⟨(data_addLoop ws c).trans hw, distinct_addLoop ws (h.child hc)⟩

/-- Insertion of a new name under a node with room adds one child. -/
theorem child_addLoop_new {n : TrieNode} (h : n.Distinct) {w : Text} (hc : n.child w = none)
    {j : Fin maxFolders} (hj : n.freeSlot = some j) (ws : List Text) (v : Text) :
    (addLoop (w :: ws) n).child v =
      if v = w then some (addLoop ws (createNode w)) else n.child v := by
  have hf : n.findSlot w = none := (n.findSlot_eq_none w).mpr ((n.child_eq_none w).mp hc)
  simp only [addLoop, hf, hj, child_markFolder]
  apply h.child_setChild (admits_of_findSlot_none hf j)
  · simp [freeSlot_some hj]
  · simp only [Option.mem_some_iff, forall_eq']
    exact ⟨data_addLoop ws _, distinct_addLoop ws (distinct_createNode w)⟩

/-- A full node refuses a new name. -/
theorem addLoop_full {n : TrieNode} {w : Text} (hc : n.child w = none) (hj : n.freeSlot = none)
    (ws : List Text) : addLoop (w :: ws) n = n := by
  have hf : n.findSlot w = none := (n.findSlot_eq_none w).mpr ((n.child_eq_none w).mp hc)
  simp only [addLoop, hf, hj]

/-- Insertion into the trie is bounded prefix insertion into its path set. -/
theorem paths_addLoop (ws : List Text) {n : TrieNode} (h : n.Distinct) :
    (addLoop ws n).paths = insertPath maxFolders n.paths ws := by
  induction ws generalizing n with
  | nil => rfl
  | cons w ws ih =>
    cases hc : n.child w with
    | some c =>
      have hw : [w] ∈ n.paths := (n.singleton_mem_paths w).mpr (by simp [hc])
      ext x
      cases x with
      | nil => simp [nil_mem_insertPath, nil_mem_paths]
      | cons b t =>
        rw [cons_mem_insertPath_of_mem hw, after_paths hc, ← ih (h.child hc), cons_mem_paths,
          child_addLoop_found h hc]
        split_ifs <;> simp [cons_mem_paths]
    | none =>
      have hw : [w] ∉ n.paths := fun hm ↦ (n.singleton_mem_paths w).mp hm hc
      cases hj : n.freeSlot with
      | none =>
        rw [addLoop_full hc hj, insertPath_of_full hw (le_ncard_children_of_full h hj)]
      | some j =>
        have hempty : insert [] (after w n.paths) = (createNode w).paths := by
          have hafter : after w n.paths = ∅ := by
            ext t
            simp [after, cons_mem_paths, hc]
          rw [hafter, paths_createNode]
          simp
        ext x
        cases x with
        | nil => simp [nil_mem_insertPath, nil_mem_paths]
        | cons b t =>
          rw [cons_mem_insertPath_of_new hw (ncard_children_lt_of_free h hj), hempty,
            ← ih (distinct_createNode w), cons_mem_paths, child_addLoop_new h hc hj]
          split_ifs <;> simp [cons_mem_paths]

/-! ### Deletion -/

/-- Deleting a path that is there drops it with all its extensions. -/
theorem deleteLoop_spec {ws : List Text} {n : TrieNode} (h : n.Distinct) (hne : ws ≠ [])
    (hin : ws ∈ n.paths) :
    ∃ m, deleteLoop ws n = some m ∧ m.Distinct ∧ m.data = n.data ∧
      m.paths = PrefixSet.deletePath n.paths ws := by
  induction ws generalizing n with
  | nil => exact absurd rfl hne
  | cons w ws ih =>
    obtain ⟨c, hc, hws⟩ := (n.cons_mem_paths w ws).mp hin
    obtain ⟨⟨j, hj⟩, hw⟩ := (h.child_eq_some w c).mp hc
    have hf : n.findSlot w = some j := (h.findSlot_eq_some w j).mpr ⟨c, hj, hw⟩
    have hname : ∀ d, n.childeren j = some d → d.data = w := by
      intro d hd
      rw [hj, Option.some.injEq] at hd
      exact hd ▸ hw
    have hadm := h.admits_findSlot hf
    cases ws with
    | nil =>
      have hnone : ∀ d ∈ (none : Option TrieNode), d.data = w ∧ d.Distinct := by simp
      refine ⟨n.setChild j none, by simp [deleteLoop, hf], h.setChild hadm hnone, rfl, ?_⟩
      ext x
      cases x with
      | nil => simp [nil_mem_deletePath_cons, nil_mem_paths]
      | cons b t =>
        rw [cons_mem_deletePath_cons, cons_mem_paths, h.child_setChild hadm hname hnone]
        split_ifs with hb
        · simp [PrefixSet.deletePath, after_paths hc, nil_mem_paths]
        · simp [cons_mem_paths]
    | cons w' ws' =>
      obtain ⟨m, hm, hdm, hmd, hmp⟩ := ih (h.child hc) (by simp) hws
      have hsome : ∀ d ∈ some m, d.data = w ∧ d.Distinct := by
        simp only [Option.mem_some_iff, forall_eq']
        exact ⟨hmd.trans hw, hdm⟩
      refine ⟨n.setChild j (some m), by simp [deleteLoop, hf, hj, hm],
        h.setChild hadm hsome, rfl, ?_⟩
      ext x
      cases x with
      | nil => simp [nil_mem_deletePath_cons, nil_mem_paths]
      | cons b t =>
        rw [cons_mem_deletePath_cons, cons_mem_paths, h.child_setChild hadm hname hsome,
          after_paths hc, ← hmp]
        split_ifs <;> simp [cons_mem_paths]

end NetworkFileSystem.Trie
