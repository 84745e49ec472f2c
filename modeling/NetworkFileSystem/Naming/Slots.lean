import NetworkFileSystem.Naming.Topology

/-!
# The slot of the root folder

`naming_server.c:56–103,161–173`, `tries.c:136–164,256–279`. The naming server finds the
name of the folder that a server exports in the first slot below the first slot of its trie.
Here: which path of an index fills that slot, and which updates leave its name alone.
-/

namespace NetworkFileSystem.Naming

open Base Protocol Trie TrieNode

/-- The slot is filled, and the name is that of the folder in it. -/
theorem nameOf_eq_some {n : TrieNode} {f : Text} :
    nameOf n = some f ↔ ∃ top folder, n.childeren firstSlot = some top ∧
      top.childeren firstSlot = some folder ∧ folder.data = f := by
  unfold nameOf exportedFolder
  cases n.childeren firstSlot with
  | none => simp
  | some top => simp

/-! ### Insertion -/

theorem find_firstSlot {f : Fin maxFolders → Bool} (h : f firstSlot = true) :
    (List.finRange maxFolders).find? f = some firstSlot := by
  have hfirst : List.finRange maxFolders = firstSlot :: (List.finRange 255).map Fin.succ :=
    List.finRange_succ
  rw [hfirst, List.find?_cons_of_pos h]

/-- An insertion follows a name in the first slot. -/
theorem addLoop_firstSlot {n c : TrieNode} {w : Text} (hc : n.childeren firstSlot = some c)
    (hw : c.data = w) (ws : List Text) :
    addLoop (w :: ws) n = n.setChild firstSlot (some (addLoop ws c)) := by
  have hf : n.findSlot w = some firstSlot := find_firstSlot (by simp [hasName, hc, hw])
  simp [addLoop, hf, hc]

/-- An insertion into an empty node fills the first slot. -/
theorem addLoop_empty {n : TrieNode} (hn : ∀ j, n.childeren j = none) (w : Text)
    (ws : List Text) :
    (addLoop (w :: ws) n).childeren firstSlot = some (addLoop ws (createNode w)) := by
  have hf : n.findSlot w = none := (n.findSlot_eq_none w).mpr (fun j c hj ↦ by simp [hn j] at hj)
  have hfree : n.freeSlot = some firstSlot := find_firstSlot (by simp [hn])
  simp [addLoop, hf, hfree]

/-- An insertion leaves the node of a slot there, up to an insertion below it. -/
theorem childeren_addLoop {n c : TrieNode} {j : Fin maxFolders} (hj : n.childeren j = some c)
    (ws : List Text) : (addLoop ws n).childeren j = some c ∨
      ∃ us, ws = c.data :: us ∧ (addLoop ws n).childeren j = some (addLoop us c) := by
  cases ws with
  | nil => exact .inl hj
  | cons w us =>
    simp only [addLoop]
    split
    · next k hk =>
      obtain ⟨d, hd, hw⟩ := findSlot_some hk
      by_cases hkj : j = k
      · subst hkj
        cases hj.symm.trans hd
        exact .inr ⟨us, by rw [hw], by simp [hj]⟩
      · exact .inl (by simp [hkj, hj])
    · split
      · next k hk =>
        have hkj : j ≠ k := by
          rintro rfl
          rw [freeSlot_some hk] at hj
          cases hj
        exact .inl (by simp [hkj, hj])
      · exact .inl hj

/-- Insertions keep the name of the exported folder. -/
theorem nameOf_addLoop {n : TrieNode} {f : Text} (h : nameOf n = some f) (ws : List Text) :
    nameOf (addLoop ws n) = some f := by
  obtain ⟨top, folder, htop, hfolder, hname⟩ := nameOf_eq_some.mp h
  obtain hsame | ⟨us, -, hslot⟩ := childeren_addLoop htop ws
  · exact nameOf_eq_some.mpr ⟨top, folder, hsame, hfolder, hname⟩
  · obtain hsame | ⟨vs, -, hslot'⟩ := childeren_addLoop hfolder us
    · exact nameOf_eq_some.mpr ⟨_, folder, hslot, hsame, hname⟩
    · exact nameOf_eq_some.mpr ⟨_, _, hslot, hslot', (data_addLoop vs folder).trans hname⟩

/-! ### Deletion -/

theorem data_deleteLoop {ws : List Text} {n m : TrieNode} (h : deleteLoop ws n = some m) :
    m.data = n.data := by
  match ws with
  | [] => cases h
  | [w] =>
    simp only [deleteLoop, Option.some.injEq] at h
    subst h
    split <;> rfl
  | w :: w' :: us =>
    simp only [deleteLoop] at h
    split at h
    · obtain ⟨c, -, rfl⟩ := Option.map_eq_some_iff.mp h
      rfl
    · cases h
      rfl

/-- A slot loses its node only to a deletion of just its name; any other deletion leaves the
node there, up to a deletion below it. -/
theorem childeren_deleteLoop {ws : List Text} {n m c : TrieNode} {j : Fin maxFolders}
    (h : deleteLoop ws n = some m) (hj : n.childeren j = some c) (hne : ws ≠ [c.data]) :
    m.childeren j = some c ∨
      ∃ us c', ws = c.data :: us ∧ deleteLoop us c = some c' ∧ m.childeren j = some c' := by
  match ws with
  | [] => cases h
  | [w] =>
    simp only [deleteLoop, Option.some.injEq] at h
    subst h
    split
    · next k hk =>
      obtain ⟨d, hd, hw⟩ := findSlot_some hk
      have hkj : j ≠ k := by
        rintro rfl
        cases hj.symm.trans hd
        exact hne (by rw [hw])
      exact .inl (by simp [hkj, hj])
    · exact .inl hj
  | w :: w' :: us =>
    simp only [deleteLoop] at h
    split at h
    · next k hk =>
      obtain ⟨d, hd, hw⟩ := findSlot_some hk
      obtain ⟨c', hc', rfl⟩ := Option.map_eq_some_iff.mp h
      rw [hd, Option.bind_some] at hc'
      by_cases hkj : j = k
      · subst hkj
        cases hj.symm.trans hd
        exact .inr ⟨w' :: us, c', by rw [hw], hc', by simp⟩
      · exact .inl (by simp [hkj, hj])
    · cases h
      exact .inl hj

/-- The components are those of the exported folder or of a folder above it. -/
def TowardsRoot (n : TrieNode) (ws : List Text) : Prop :=
  ∃ top folder, n.childeren firstSlot = some top ∧ top.childeren firstSlot = some folder ∧
    ws <+: [top.data, folder.data]

/-- A deletion that is not of the exported folder or above it keeps the folder's name. -/
theorem nameOf_deleteLoop {ws : List Text} {n m : TrieNode} {f : Text} (h : nameOf n = some f)
    (hm : deleteLoop ws n = some m) (hws : ¬ TowardsRoot n ws) : nameOf m = some f := by
  obtain ⟨top, folder, htop, hfolder, hname⟩ := nameOf_eq_some.mp h
  have hnot : ¬ ws <+: [top.data, folder.data] := fun hpre ↦ hws ⟨top, folder, htop, hfolder, hpre⟩
  have htopNe : ws ≠ [top.data] := by
    rintro rfl
    exact hnot ⟨[folder.data], rfl⟩
  obtain hsame | ⟨us, top', rfl, htop', hslot⟩ := childeren_deleteLoop hm htop htopNe
  · exact nameOf_eq_some.mpr ⟨top, folder, hsame, hfolder, hname⟩
  · have hfolderNe : us ≠ [folder.data] := by
      rintro rfl
      exact hnot List.prefix_rfl
    obtain hsame | ⟨vs, folder', -, hfolder', hslot'⟩ :=
      childeren_deleteLoop htop' hfolder hfolderNe
    · exact nameOf_eq_some.mpr ⟨top', folder, hslot, hsame, hname⟩
    · exact nameOf_eq_some.mpr ⟨top', folder', hslot, hslot',
        (data_deleteLoop hfolder').trans hname⟩

/-! ### The name that an index gives -/

/-- The second component of the first path that has one behind the component `top`. -/
def firstBelow (top : Text) : List (List Text) → Option Text
  | [] => none
  | (w :: f :: _) :: ps => if w = top then some f else firstBelow top ps
  | _ :: ps => firstBelow top ps

/-- The name of the exported folder in an index: the first path decides the top. -/
def exportedName : List (List Text) → Option Text
  | [] => none
  | [] :: ps => exportedName ps
  | (top :: ws) :: ps => firstBelow top ((top :: ws) :: ps)

private theorem addPaths_cons_eq_some {t : Text} {ts : List Text} {n m : TrieNode}
    (h : addPaths (t :: ts) n = some m) : addPaths ts (addLoop (components t) n) = some m := by
  rw [addPaths_cons] at h
  obtain ⟨n', hn', hm⟩ := Option.bind_eq_some_iff.mp h
  obtain ⟨ws, hws, rfl⟩ := Option.map_eq_some_iff.mp hn'
  rw [(length_of_parsePath hws).2] at hm
  exact hm

/-- Further paths keep the name of the exported folder. -/
theorem nameOf_addPaths {ts : List Text} {n m : TrieNode} {f : Text} (h : nameOf n = some f)
    (hm : addPaths ts n = some m) : nameOf m = some f := by
  induction ts generalizing n with
  | nil =>
    cases hm
    exact h
  | cons t ts ih => exact ih (nameOf_addLoop h _) (addPaths_cons_eq_some hm)

private theorem nameOf_addPaths_below {ts : List Text} {n m top : TrieNode}
    (htop : n.childeren firstSlot = some top) (hempty : ∀ j, top.childeren j = none)
    (hm : addPaths ts n = some m) : nameOf m = firstBelow top.data (ts.map components) := by
  induction ts generalizing n top with
  | nil =>
    cases hm
    simp [nameOf, exportedFolder, htop, hempty, firstBelow]
  | cons t ts ih =>
    have hrest := addPaths_cons_eq_some hm
    rw [List.map_cons]
    rcases hc : components t with _ | ⟨w, _ | ⟨f, us⟩⟩
    · rw [hc] at hrest
      exact ih htop hempty hrest
    · rw [hc] at hrest
      obtain hsame | ⟨us, hus, hslot⟩ := childeren_addLoop htop [w]
      · exact ih hsame hempty hrest
      · obtain ⟨rfl, rfl⟩ := List.cons.inj hus
        exact ih hslot hempty hrest
    · rw [hc] at hrest
      unfold firstBelow
      split
      · next hw =>
        refine nameOf_addPaths (nameOf_eq_some.mpr ⟨addLoop (f :: us) top,
          addLoop us (createNode f), ?_, addLoop_empty hempty f us, data_addLoop us _⟩) hrest
        rw [addLoop_firstSlot htop hw.symm, childeren_setChild, Function.update_self]
      · next hw =>
        obtain hsame | ⟨vs, hvs, -⟩ := childeren_addLoop htop (w :: f :: us)
        · exact ih hsame hempty hrest
        · exact absurd (List.cons.inj hvs).1 hw

/-- The name of the exported folder is the one that the index gives. -/
theorem nameOf_index {ts : List Text} {n m : TrieNode} (hempty : ∀ j, n.childeren j = none)
    (hm : addPaths ts n = some m) : nameOf m = exportedName (ts.map components) := by
  induction ts with
  | nil =>
    cases hm
    simp [nameOf, exportedFolder, hempty, exportedName]
  | cons t ts ih =>
    have hrest := addPaths_cons_eq_some hm
    rw [List.map_cons]
    rcases hc : components t with _ | ⟨top, _ | ⟨f, us⟩⟩
    · rw [hc] at hrest
      exact ih hrest
    · rw [hc] at hrest
      exact nameOf_addPaths_below (addLoop_empty hempty top []) (childeren_createNode top) hrest
    · rw [hc] at hrest
      obtain ⟨vs, hvs⟩ : ∃ vs, (addLoop (f :: us) (createNode top)).childeren firstSlot =
          some (addLoop vs (createNode f)) := ⟨us, addLoop_empty (childeren_createNode top) f us⟩
      rw [nameOf_addPaths (nameOf_eq_some.mpr ⟨_, _, addLoop_empty hempty top (f :: us), hvs,
        data_addLoop vs _⟩) hrest]
      exact (if_pos rfl).symm

/-- The name under which a server registers is the one that its index gives. -/
theorem Registration.name_eq {r : Registration} {root : TrieNode} (h : r.root = some root) :
    r.name = exportedName ((indexedLines r.segments []).map components) := by
  rw [Registration.name, h, Option.bind_some]
  rw [Registration.root, indexHelper_eq] at h
  exact nameOf_index (childeren_createNode _) h

end NetworkFileSystem.Naming
