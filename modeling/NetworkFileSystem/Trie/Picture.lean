import NetworkFileSystem.Trie.Drawing
import NetworkFileSystem.Naming.Slots
import NetworkFileSystem.Storage.Path

/-!
# The drawn tree

`tries.c:15–34,170–223`. What a drawing shows, said of the trie itself: nodes are named by the
slots that lead to them, the order of the lines is that of these names, and the columns of a line
are about later siblings. From this the width of every line follows.
-/

namespace NetworkFileSystem.Trie

open Base Protocol Naming Prog

/-- The node that the slots `a` lead to. -/
def nodeAt : TrieNode → Pointer → Option TrieNode
  | n, [] => some n
  | n, j :: a =>
    match n.childeren j with
    | some c => nodeAt c a
    | none => none

/-- The node at `a` has a used slot behind its own; the top node has no siblings. -/
def hasLater (root : TrieNode) (a : Pointer) : Bool :=
  match a.getLast? with
  | none => false
  | some j => (List.finRange maxFolders).any
      (fun k ↦ decide (j < k) && (nodeAt root (a.dropLast ++ [k])).isSome)

/-- The columns in front of a node: column `i` is about its ancestor at depth `i`. -/
def columnsAt (root : TrieNode) (a : Pointer) : List Bool :=
  (List.range a.length).map (fun i ↦ hasLater root (a.take i))

/-- The connector of a node: the closing one exactly without later siblings. -/
def placeAt (root : TrieNode) (a : Pointer) : Option Bool :=
  if a = [] then none else some (!hasLater root a)

/-- The line of the node at `a`. -/
def lineAt (root : TrieNode) (a : Pointer) : Text :=
  match nodeAt root a with
  | some n => treeLine (columnsAt root a) (placeAt root a) n.isLeaf n.data
  | none => []

/-! ### The order of the lines -/

mutual

/-- The nodes in the order of the drawing. -/
def pointers : TrieNode → List Pointer
  | .node childeren _ _ =>
    [] :: (List.finRange maxFolders).flatMap (fun j ↦ childPointers j (childeren j))

/-- The nodes below slot `j`. -/
def childPointers (j : Fin maxFolders) : Option TrieNode → List Pointer
  | none => []
  | some n => (pointers n).map (j :: ·)

end

theorem nodeAt_cons {n : TrieNode} {j : Fin maxFolders} {c : TrieNode}
    (h : n.childeren j = some c) (a : Pointer) : nodeAt n (j :: a) = nodeAt c a := by
  rw [nodeAt, h]

mutual

theorem mem_pointers : (n : TrieNode) → ∀ a, a ∈ pointers n ↔ (nodeAt n a).isSome = true
  | .node childeren isLeaf data => by
    intro a
    rw [pointers]
    cases a with
    | nil => simp [nodeAt]
    | cons j a =>
      rw [List.mem_cons, or_iff_right (by simp), List.mem_flatMap]
      constructor
      · rintro ⟨i, -, hi⟩
        rcases (mem_childPointers i (childeren i) (j :: a)).mp hi with ⟨c, b, hc, heq, hb⟩
        cases heq
        rwa [nodeAt_cons (n := .node childeren isLeaf data) hc]
      · intro h
        refine ⟨j, List.mem_finRange j, (mem_childPointers j (childeren j) (j :: a)).mpr ?_⟩
        cases hc : childeren j with
        | none => simp [nodeAt, TrieNode.childeren, hc] at h
        | some c =>
          rw [nodeAt_cons (n := .node childeren isLeaf data) hc] at h
          exact ⟨c, a, rfl, rfl, h⟩

theorem mem_childPointers (j : Fin maxFolders) : (o : Option TrieNode) → ∀ b,
    b ∈ childPointers j o ↔ ∃ c a, o = some c ∧ b = j :: a ∧ (nodeAt c a).isSome = true
  | none => by
    intro b
    simp [childPointers]
  | some n => by
    intro b
    rw [childPointers, List.mem_map]
    constructor
    · rintro ⟨a, ha, rfl⟩
      exact ⟨n, a, rfl, rfl, (mem_pointers n a).mp ha⟩
    · rintro ⟨c, a, hc, rfl, ha⟩
      cases hc
      exact ⟨a, (mem_pointers n a).mpr ha, rfl⟩

end

mutual

/-- A node comes before those below it, and slots come in their order. -/
theorem pairwise_pointers : (n : TrieNode) → (pointers n).Pairwise (· < ·)
  | .node childeren isLeaf data => by
    rw [pointers, List.pairwise_cons]
    constructor
    · intro b hb
      rcases List.mem_flatMap.mp hb with ⟨j, -, hj⟩
      rcases (mem_childPointers j (childeren j) b).mp hj with ⟨c, a, -, rfl, -⟩
      exact List.nil_lt_cons j a
    · rw [List.pairwise_flatMap]
      refine ⟨fun j _ ↦ pairwise_childPointers j (childeren j), ?_⟩
      apply (List.pairwise_lt_finRange maxFolders).imp
      intro i j hij x hx y hy
      rcases (mem_childPointers i (childeren i) x).mp hx with ⟨c, a, -, rfl, -⟩
      rcases (mem_childPointers j (childeren j) y).mp hy with ⟨d, b, -, rfl, -⟩
      exact List.cons_lt_cons_iff.mpr (.inl hij)

theorem pairwise_childPointers (j : Fin maxFolders) : (o : Option TrieNode) →
    (childPointers j o).Pairwise (· < ·)
  | none => by
    rw [childPointers]
    exact List.Pairwise.nil
  | some n => by
    rw [childPointers, List.pairwise_map]
    apply (pairwise_pointers n).imp
    intro a b hab
    exact List.cons_lt_cons_iff.mpr (.inr ⟨rfl, hab⟩)

end

/-! ### The lines -/

/-- The line of the node at `a`, seen from the node `n` that is drawn with `columns` and `place`. -/
def lineBelow (columns : List Bool) (place : Option Bool) : TrieNode → Pointer → Text
  | n, [] => treeLine columns place n.isLeaf n.data
  | n, j :: a =>
    match n.childeren j with
    | some c => lineBelow (columns ++ [place == some false])
        (some (Naming.isLastChild n.childeren j)) c a
    | none => []

mutual

theorem treeLines_eq (columns : List Bool) (place : Option Bool) : (n : TrieNode) →
    treeLines columns place n = (pointers n).map (lineBelow columns place n)
  | .node childeren isLeaf data => by
    rw [treeLines, pointers, List.map_cons, List.map_flatMap]
    congr 1
    apply List.flatMap_congr
    intro j _
    rw [slotLines_eq (columns ++ [place == some false])
      (some (Naming.isLastChild childeren j)) j (childeren j)]
    apply List.map_congr_left
    intro b hb
    rcases (mem_childPointers j (childeren j) b).mp hb with ⟨c, a, hc, rfl, -⟩
    simp [lineBelow, TrieNode.childeren, hc]

theorem slotLines_eq (columns : List Bool) (place : Option Bool) (j : Fin maxFolders) :
    (o : Option TrieNode) → slotLines columns place o = (childPointers j o).map
      (fun b ↦ match o with
        | some c => lineBelow columns place c b.tail
        | none => [])
  | none => by
    rw [slotLines, childPointers]
    rfl
  | some n => by
    rw [slotLines, childPointers, List.map_map, treeLines_eq columns place n]
    rfl

end

section Siblings

variable {n c : TrieNode} {j : Fin maxFolders}

theorem hasLater_singleton : hasLater n [j] = !Naming.isLastChild n.childeren j := by
  have hchild : ∀ k, (nodeAt n [k]).isSome = (n.childeren k).isSome := by
    intro k
    cases hk : n.childeren k with
    | none => simp [nodeAt, hk]
    | some c => simp [nodeAt, hk]
  rw [Naming.isLastChild, List.not_all_eq_any_not]
  show (List.finRange maxFolders).any
    (fun k ↦ decide (j < k) && (nodeAt n ([] ++ [k])).isSome) = _
  congr 1
  ext k
  rw [List.nil_append, hchild, Bool.not_or, ← decide_not, Option.not_isNone]
  simp only [not_le]

theorem hasLater_cons (h : n.childeren j = some c) {a : Pointer} (ha : a ≠ []) :
    hasLater n (j :: a) = hasLater c a := by
  obtain rfl | ⟨b, k, rfl⟩ := List.eq_nil_or_concat a
  · exact absurd rfl ha
  · have hsplit : j :: (b ++ [k]) = (j :: b) ++ [k] := rfl
    rw [List.concat_eq_append, hsplit, hasLater, hasLater, List.getLast?_concat,
      List.getLast?_concat, List.dropLast_concat, List.dropLast_concat]
    simp only
    congr 1
    ext i
    rw [List.cons_append, nodeAt_cons h]

/-- The columns and the connector behind those of `n`. -/
theorem lineBelow_eq {m : TrieNode} {a : Pointer} {columns : List Bool} {place : Option Bool}
    (h : nodeAt n a = some m) :
    lineBelow columns place n a =
      treeLine (columns ++ (List.range a.length).map
          (fun i ↦ if i = 0 then place == some false else hasLater n (a.take i)))
        (if a = [] then place else some (!hasLater n a)) m.isLeaf m.data := by
  induction a generalizing n columns place with
  | nil =>
    cases h
    simp [lineBelow]
  | cons j a ih =>
    cases hc : n.childeren j with
    | none => simp [nodeAt, hc] at h
    | some c =>
      rw [nodeAt_cons hc] at h
      rw [lineBelow, hc]
      simp only
      rw [ih h, if_neg (by simp : j :: a ≠ []), List.length_cons, List.range_succ_eq_map,
        List.map_cons, List.map_map]
      congr 1
      · rw [if_pos rfl, List.append_assoc, List.singleton_append]
        congr 2
        apply List.map_congr_left
        intro i hi
        rw [Function.comp_apply, if_neg (Nat.succ_ne_zero i), List.take_succ_cons]
        split
        · next hzero =>
          rw [hzero, List.take_zero, hasLater_singleton]
          cases Naming.isLastChild n.childeren j <;> rfl
        · next hpos =>
          have hlen : i < a.length := List.mem_range.mp hi
          rw [hasLater_cons hc]
          intro hnil
          have hlength := congrArg List.length hnil
          rw [List.length_take, List.length_nil] at hlength
          omega
      · split
        · next hnil => rw [hnil, hasLater_singleton, Bool.not_not]
        · next hne => rw [hasLater_cons hc hne]

end Siblings

/-- The lines of a drawing are those of its nodes, in order. -/
theorem treeLines_eq_lineAt (root : TrieNode) :
    treeLines [] none root = (pointers root).map (lineAt root) := by
  rw [treeLines_eq]
  apply List.map_congr_left
  intro a ha
  rcases Option.isSome_iff_exists.mp ((mem_pointers root a).mp ha) with ⟨n, hn⟩
  rw [lineBelow_eq hn, lineAt, hn]
  simp only [List.nil_append, columnsAt, placeAt]
  congr 1
  apply List.map_congr_left
  intro i _
  split
  · next hzero =>
    rw [hzero]
    rfl
  · rfl

/-- A drawing sends one line for every node, the nodes in the order of their slots and each before
those below it. -/
theorem display_shows_trie {root : TrieNode} {stack : Pointer → Frame} {tr : List NsEvent}
    {out : Option Unit} (hfit : ∀ a, (lineAt root a).length < bufferSize)
    (hx : Exec (displayTrieNetwork stack (some root)) tr out) (hheard : Heard tr) :
    out = some () ∧ ∃ order : List Pointer, (∀ a, a ∈ order ↔ (nodeAt root a).isSome = true) ∧
      order.Pairwise (· < ·) ∧ sent tr = order.map (lineAt root) := by
  have hlines : LinesFit (treeLines [] none root) := by
    rw [treeLines_eq_lineAt]
    intro l hl
    rcases List.mem_map.mp hl with ⟨a, -, rfl⟩
    exact (hfit a).le
  rw [displayTrieNetwork_eq, Naming.displayTrieNetwork, printSlotNetwork] at hx
  rcases draws_printTreeNetwork [] none root hlines tr out hx hheard with ⟨hout, hsent⟩
  refine ⟨hout, pointers root, mem_pointers root, pairwise_pointers root, ?_⟩
  rw [hsent, drawn, treeLines_eq_lineAt, List.map_map]
  apply List.map_congr_left
  intro a _
  rw [Function.comp_apply, fitLine, if_pos (hfit a)]

/-- A connection that takes everything. -/
def hearing : (o : NsOp) → o.Res
  | .ping _ => .up
  | .forward _ _ => true
  | .replicate _ _ => true
  | .reindex _ => true
  | .recvServer _ => none
  | .recvIndex _ => []
  | .sendClient _ => true
  | .sendAck _ _ _ => true

/-- The exported folder `./s` with the file `b` in the folder `a` and the file `d`; `c` between
them was deleted. -/
def prunedTrie : TrieNode :=
  let added := addPaths [lit "./s/a/b", lit "./s/c", lit "./s/d"] (createNode (lit "."))
  ((added.bind (deletePath (lit "./s/c"))).bind exportedFolder).join.getD (createNode [])

private theorem pointers_prunedTrie : pointers prunedTrie =
    [[], [firstSlot], [firstSlot, firstSlot], [⟨2, by decide⟩]] := by
  decide +kernel

private theorem lineAt_prunedTrie : (pointers prunedTrie).map (lineAt prunedTrie) =
    [treeLine [] none false (lit "s"), treeLine [false] (some false) false (lit "a"),
      treeLine [false, true] (some true) true (lit "b"),
      treeLine [false] (some true) true (lit "d")] := by
  rw [pointers_prunedTrie]
  decide +kernel

private theorem length_lineAt_prunedTrie (a : Pointer) :
    (lineAt prunedTrie a).length < bufferSize := by
  by_cases ha : (nodeAt prunedTrie a).isSome = true
  · have hline := List.mem_map_of_mem (f := lineAt prunedTrie) ((mem_pointers prunedTrie a).mpr ha)
    rw [lineAt_prunedTrie] at hline
    revert hline
    generalize lineAt prunedTrie a = line
    revert line
    decide
  · rw [lineAt, Option.not_isSome_iff_eq_none.mp ha]
    exact (by decide : 0 < bufferSize)

theorem display_shows_pruned :
    ∃ tr, Exec (displayTrieNetwork (fun _ ↦ ⟨CharArray.zeros _, CharArray.zeros _⟩)
        (some prunedTrie)) tr (some ()) ∧
      sent tr = [treeLine [] none false (lit "s"), treeLine [false] (some false) false (lit "a"),
        treeLine [false, true] (some true) true (lit "b"),
        treeLine [false] (some true) true (lit "d")] := by
  have hrun := exec_runWith hearing (displayTrieNetwork
    (fun _ ↦ ⟨CharArray.zeros _, CharArray.zeros _⟩) (some prunedTrie))
  have hheard : Heard ((displayTrieNetwork (fun _ ↦ ⟨CharArray.zeros _, CharArray.zeros _⟩)
      (some prunedTrie)).runWith hearing).1 := by
    intro bytes hmem
    cases answer_of_mem_runWith hmem
  rcases display_shows_trie length_lineAt_prunedTrie hrun hheard with
    ⟨hout, order, hmem, hsorted, hsent⟩
  have horder : order = pointers prunedTrie :=
    hsorted.eq_of_mem_iff (pairwise_pointers prunedTrie)
      (fun a ↦ (hmem a).trans (mem_pointers prunedTrie a).symm)
  rw [hout] at hrun
  exact ⟨_, hrun, by rw [hsent, horder, lineAt_prunedTrie]⟩

/-! ### Widths -/

/-- The bytes that are printed for the node `n` at `a`: 15 for every ancestor with a later
sibling and 4 for every other one, and those of the connector and the name. -/
def widthAt (root : TrieNode) (a : Pointer) (n : TrieNode) : Nat :=
  15 * (columnsAt root a).count true + 4 * (columnsAt root a).count false +
    (if a = [] then 10 else 29) + n.data.length

/-- No run comes to a difference that wraps around, or to a send of more bytes than the array
has. -/
def StaysInRange (stack : Pointer → Frame) (root : TrieNode) : Prop :=
  ∀ tr, ¬ Exec (displayTrieNetwork stack (some root)) tr none

private theorem neverAborts_seq {p q : NsProg Unit} :
    (∀ tr, ¬ Exec (do p; q) tr none) ↔ (∀ tr, ¬ Exec p tr none) ∧ ∀ tr, ¬ Exec q tr none := by
  constructor
  · intro h
    have hp : ∀ tr, ¬ Exec p tr none := fun tr hx ↦ h tr (exec_bind.mpr (.inl ⟨hx, rfl⟩))
    refine ⟨hp, fun tr hx ↦ ?_⟩
    have hrun := exec_runWith hearing p
    cases hout : (p.runWith hearing).2 with
    | none => exact hp _ (hout ▸ hrun)
    | some u => exact h _ (exec_bind.mpr (.inr ⟨u, _, tr, rfl, hout ▸ hrun, hx⟩))
  · rintro ⟨hp, hq⟩ tr hx
    rcases exec_bind.mp hx with ⟨hx, -⟩ | ⟨_, t₁, t₂, -, -, hx⟩
    · exact hp tr hx
    · exact hq t₂ hx

private theorem neverAborts_performAll (ps : List (NsProg Unit)) :
    (∀ tr, ¬ Exec (performAll ps) tr none) ↔ ∀ p ∈ ps, ∀ tr, ¬ Exec p tr none := by
  induction ps with
  | nil => simp [performAll]
  | cons p ps ih => rw [performAll, neverAborts_seq, ih, List.forall_mem_cons]

mutual

/-- A drawing stays in defined behaviour exactly if its lines fit. -/
private theorem neverAborts_printTreeNetwork (columns : List Bool) (place : Option Bool) :
    (n : TrieNode) → ((∀ tr, ¬ Exec (Naming.printTreeNetwork columns place n) tr none) ↔
      LinesFit (treeLines columns place n))
  | .node childeren isLeaf data => by
    rw [treeLines, Naming.printTreeNetwork, LinesFit, List.forall_mem_cons]
    split
    · next hfit =>
      have hbelow : (∀ l ∈ (List.finRange maxFolders).flatMap (fun j ↦
          slotLines (columns ++ [place == some false])
            (some (Naming.isLastChild childeren j)) (childeren j)), l.length ≤ bufferSize) ↔
          ∀ j ∈ List.finRange maxFolders, ∀ tr,
            ¬ Exec (printSlotNetwork (columns ++ [place == some false])
              (some (Naming.isLastChild childeren j)) (childeren j)) tr none := by
        simp only [List.forall_mem_flatMap]
        refine forall₂_congr (fun j _ ↦ ?_)
        exact (neverAborts_printSlotNetwork _ _ (childeren j)).symm
      have hchildren := neverAborts_performAll ((List.finRange maxFolders).map (fun j ↦
        printSlotNetwork (columns ++ [place == some false])
          (some (Naming.isLastChild childeren j)) (childeren j)))
      rw [List.forall_mem_map] at hchildren
      rw [hbelow, and_iff_right hfit, ← hchildren]
      constructor
      · intro h tr hx
        exact h _ (exec_sendClient.mpr ⟨true, tr, rfl, hx⟩)
      · intro h tr hx
        rcases exec_sendClient.mp hx with ⟨ok, rest, -, hrest⟩
        cases ok with
        | false => cases hrest.2
        | true => exact h rest hrest
    · next hwide =>
      constructor
      · intro h
        exact absurd ⟨rfl, rfl⟩ (h [])
      · rintro ⟨hfit, -⟩
        exact absurd hfit hwide

private theorem neverAborts_printSlotNetwork (columns : List Bool) (place : Option Bool) :
    (o : Option TrieNode) → ((∀ tr, ¬ Exec (printSlotNetwork columns place o) tr none) ↔
      LinesFit (slotLines columns place o))
  | none => by
    rw [slotLines, printSlotNetwork]
    simp [LinesFit]
  | some n => by
    rw [slotLines, printSlotNetwork]
    exact neverAborts_printTreeNetwork columns place n

end

theorem length_lineAt {root n : TrieNode} {a : Pointer} (h : nodeAt root a = some n) :
    (lineAt root a).length = widthAt root a n := by
  rw [lineAt, h]
  simp only
  rw [length_treeLine, widthAt, placeAt]
  by_cases ha : a = []
  · simp [ha]
  · simp [ha]

private theorem staysInRange_iff (stack : Pointer → Frame) (root : TrieNode) :
    StaysInRange stack root ↔ LinesFit ((pointers root).map (lineAt root)) := by
  rw [StaysInRange, displayTrieNetwork_eq, Naming.displayTrieNetwork, printSlotNetwork,
    neverAborts_printTreeNetwork, treeLines_eq_lineAt]

/-- The length stays in the buffer throughout a drawing exactly if every node is narrow enough. -/
theorem display_stays_in_range_iff (stack : Pointer → Frame) (root : TrieNode) :
    StaysInRange stack root ↔
      ∀ a n, nodeAt root a = some n → widthAt root a n ≤ bufferSize := by
  rw [staysInRange_iff, LinesFit, List.forall_mem_map]
  constructor
  · intro h a n hn
    rw [← length_lineAt hn]
    exact h a ((mem_pointers root a).mpr (by rw [hn]; rfl))
  · intro h a ha
    rcases Option.isSome_iff_exists.mp ((mem_pointers root a).mp ha) with ⟨n, hn⟩
    rw [length_lineAt hn]
    exact h a n hn

/-! ### A nested folder -/

private theorem nodeAt_addLoop (ws : List Text) {n : TrieNode} (hn : ∀ j, n.childeren j = none) :
    ∃ c, nodeAt (addLoop ws n) (List.replicate ws.length firstSlot) = some c := by
  induction ws generalizing n with
  | nil => exact ⟨n, rfl⟩
  | cons w ws ih =>
    rw [List.length_cons, List.replicate_succ, nodeAt_cons (addLoop_empty hn w ws)]
    exact ih (fun _ ↦ rfl)

/-- A folder that is nested in the exported one 249 times draws a line that is too long. -/
theorem nested_folders_overrun :
    ¬ ∀ (paths : List Text) (root top : TrieNode) (stack : Pointer → Frame),
      (∀ p ∈ paths, p.length ≤ 2047) → addPaths paths (createNode (lit ".")) = some root →
      exportedFolder root = some (some top) → StaysInRange stack top := by
  intro hall
  have hnames : ∀ w ∈ lit "s" :: List.replicate 249 (lit "a"), w ≠ [] ∧ slash ∉ w := by
    intro w hw
    rcases List.mem_cons.mp hw with rfl | hw
    · decide
    · rw [List.eq_of_mem_replicate hw]
      decide
  have hkept : ∀ w ∈ lit "." :: lit "s" :: List.replicate 249 (lit "a"), w ≠ lit "~" := by
    intro w hw
    rcases List.mem_cons.mp hw with rfl | hw
    · decide
    · rcases List.mem_cons.mp hw with rfl | hw
      · decide
      · rw [List.eq_of_mem_replicate hw]
        decide
  have hcomponents : components (Storage.pathText (lit "s" :: List.replicate 249 (lit "a"))) =
      lit "." :: lit "s" :: List.replicate 249 (lit "a") := by
    rw [components, Storage.tokens_pathText hnames]
    exact List.filter_eq_self.mpr (fun w hw ↦ by simpa using hkept w hw)
  have hcount : (lit "." :: lit "s" :: List.replicate 249 (lit "a")).length < maxPath := by
    rw [List.length_cons, List.length_cons, List.length_replicate]
    decide
  have hadd : addPaths [Storage.pathText (lit "s" :: List.replicate 249 (lit "a"))]
      (createNode (lit ".")) = some (addLoop (lit "." :: lit "s" :: List.replicate 249 (lit "a"))
        (createNode (lit "."))) := by
    rw [addPaths_cons, addPathToTrie, parsePath, hcomponents, if_pos hcount]
    rfl
  have htop : exportedFolder (addLoop (lit "." :: lit "s" :: List.replicate 249 (lit "a"))
      (createNode (lit "."))) = some (some (addLoop (List.replicate 249 (lit "a"))
        (createNode (lit "s")))) := by
    rw [exportedFolder, addLoop_empty (TrieNode.childeren_createNode _), Option.map_some,
      addLoop_empty (TrieNode.childeren_createNode _)]
  have hlength : ∀ p ∈ [Storage.pathText (lit "s" :: List.replicate 249 (lit "a"))],
      p.length ≤ 2047 := by
    intro p hp
    rw [List.mem_singleton.mp hp, Storage.pathText, List.length_append, List.flatMap_cons,
      List.length_append, List.length_flatMap, List.map_replicate, List.sum_replicate]
    decide
  have hrange := hall _ _ _ (fun _ ↦ ⟨CharArray.zeros _, CharArray.zeros _⟩) hlength hadd htop
  rw [staysInRange_iff] at hrange
  rcases nodeAt_addLoop (List.replicate 249 (lit "a")) (TrieNode.childeren_createNode (lit "s"))
    with ⟨n, hn⟩
  rw [List.length_replicate] at hn
  have hwidth := hrange _ (List.mem_map_of_mem ((mem_pointers _ _).mpr (by rw [hn]; rfl)))
  rw [length_lineAt hn, widthAt] at hwidth
  have hcolumns := List.count_false_add_count_true (columnsAt (addLoop (List.replicate 249 (lit "a"))
    (createNode (lit "s"))) (List.replicate 249 firstSlot))
  rw [columnsAt, List.length_map, List.length_range, List.length_replicate] at hcolumns
  have hbuffer : bufferSize = 1024 := rfl
  rw [if_neg (by simp), columnsAt] at hwidth
  rw [List.length_replicate] at hwidth
  omega

end NetworkFileSystem.Trie
