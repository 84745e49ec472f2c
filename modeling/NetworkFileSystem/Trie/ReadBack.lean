import NetworkFileSystem.Base.Outline
import NetworkFileSystem.Trie.Refinement
import NetworkFileSystem.Trie.Siblings

/-!
# A drawing can be read back

`tries.c:15–34,170–223`. The columns in front of a name are as many as there are folders above
it, so whoever sees a drawing knows the path of every line: nothing is left out, and two tries
that look the same have the same paths.
-/

namespace NetworkFileSystem.Trie

open Base Protocol Naming TrieNode

/-! ### Reading -/

/-- What stands behind `p`. -/
def behind (p s : Text) : Option Text := if startsWith p s then some (s.drop p.length) else none

/-- The number of columns in front of a line, of which there are at most as many as the first
argument says, and the rest of the line. -/
def readColumns : Nat → Text → Nat × Text
  | 0, s => (0, s)
  | n + 1, s =>
    match behind barColumn s <|> behind emptyColumn s with
    | some rest => ((readColumns n rest).1 + 1, (readColumns n rest).2)
    | none => (0, s)

/-- The name between its colour and the end of the colour. -/
def readName (s : Text) : Option Text := do
  let rest ← behind (colour "[34m") s <|> behind (colour "[37m") s
  if (colour "[0m").isSuffixOf rest then some (rest.take (rest.length - 4)) else none

/-- What stands behind the connector; the top line has none. -/
def readConnector (depth : Nat) (s : Text) : Option Text :=
  if depth = 0 then some s else behind (connector true) s <|> behind (connector false) s

/-- The depth and the name of a line without its newline. -/
def readLine (line : Text) : Option (Nat × Text) := do
  let rest ← readConnector (readColumns line.length line).1 (readColumns line.length line).2
  let name ← readName rest
  pure ((readColumns line.length line).1, name)

/-- The paths that are drawn. -/
def readDrawing (text : Text) : Option (List (List Text)) :=
  ((completeLines text).mapM readLine).map (Heading.readOutline [])

/-! ### Lines -/

/-- A line without its newline. -/
def lineBody (columns : List Bool) (place : Option Bool) (isLeaf : Bool) (data : Text) : Text :=
  columns.flatMap (fun bar ↦ if bar then barColumn else emptyColumn) ++
    match place with
    | none => colour "[34m" ++ data ++ colour "[0m"
    | some isLast =>
      connector isLast ++ colour (if isLeaf then "[37m" else "[34m") ++ data ++ colour "[0m"

theorem treeLine_eq (columns : List Bool) (place : Option Bool) (isLeaf : Bool) (data : Text) :
    treeLine columns place isLeaf data = lineBody columns place isLeaf data ++ [newline] := by
  have hnewline : lit "\n" = [newline] := rfl
  cases place with
  | none => simp [treeLine, lineBody, hnewline]
  | some isLast => simp [treeLine, lineBody, hnewline]

@[simp] theorem behind_append (p s : Text) : behind p (p ++ s) = some s := by
  rw [behind, if_pos, List.drop_left]
  exact List.isPrefixOf_iff_prefix.mpr (List.prefix_append p s)

/-- Two different beginnings of the same length. -/
theorem behind_eq_none {p q s : Text} (h : p.take q.length ≠ q.take p.length) :
    behind p (q ++ s) = none := by
  rw [behind, if_neg]
  intro hstart
  obtain ⟨t, ht⟩ := List.isPrefixOf_iff_prefix.mp hstart
  apply h
  have htake := congrArg (List.take (min p.length q.length)) ht
  rw [List.take_append_of_le_length (Nat.min_le_left _ _),
    List.take_append_of_le_length (Nat.min_le_right _ _)] at htake
  rcases Nat.le_total p.length q.length with hle | hle
  · rw [Nat.min_eq_left hle] at htake
    rw [← htake, List.take_of_length_le hle, List.take_length]
  · rw [Nat.min_eq_right hle] at htake
    rw [htake, List.take_length, List.take_of_length_le hle]

/-- What follows the columns is no column. -/
private theorem readColumns_append {columns : List Bool} {rest : Text} {n : Nat}
    (hn : columns.length ≤ n) (hbar : behind barColumn rest = none)
    (hempty : behind emptyColumn rest = none) :
    readColumns n (columns.flatMap (fun bar ↦ if bar then barColumn else emptyColumn) ++ rest) =
      (columns.length, rest) := by
  induction columns generalizing n with
  | nil =>
    cases n with
    | zero => rfl
    | succ n =>
      rw [List.flatMap_nil, List.nil_append, readColumns, hbar, hempty]
      rfl
  | cons bar columns ih =>
    cases n with
    | zero => simp at hn
    | succ n =>
      have hih := ih (Nat.le_of_succ_le_succ hn)
      rw [List.flatMap_cons, List.append_assoc, readColumns]
      cases bar with
      | true => simp [hih]
      | false =>
        have hnone : behind barColumn (emptyColumn ++ (columns.flatMap
            (fun bar ↦ if bar then barColumn else emptyColumn) ++ rest)) = none :=
          behind_eq_none (by decide)
        simp [hih, hnone]

private theorem readName_append (isLeaf : Bool) (data : Text) :
    readName (colour (if isLeaf then "[37m" else "[34m") ++ data ++ colour "[0m") = some data := by
  have hlength : (colour "[0m").length = 4 := by decide
  have hname : (data ++ colour "[0m").take (data.length + (colour "[0m").length - 4) = data := by
    rw [hlength, Nat.add_sub_cancel, List.take_left]
  rw [List.append_assoc]
  cases isLeaf with
  | true =>
    have hnone : behind (colour "[34m") (colour "[37m" ++ (data ++ colour "[0m")) = none :=
      behind_eq_none (by decide)
    simp [readName, hnone, hname]
  | false => simp [readName, hname]

private theorem readColumns_lineBody (columns : List Bool) {rest : Text}
    (hbar : behind barColumn rest = none) (hempty : behind emptyColumn rest = none) :
    let line := columns.flatMap (fun bar ↦ if bar then barColumn else emptyColumn) ++ rest
    readColumns line.length line = (columns.length, rest) := by
  apply readColumns_append _ hbar hempty
  have hwide : ∀ columns : List Bool, columns.length ≤
      (columns.flatMap (fun bar ↦ if bar then barColumn else emptyColumn)).length := by
    intro columns
    induction columns with
    | nil => exact le_rfl
    | cons bar columns ih =>
      have hpos : 1 ≤ (if bar then barColumn else emptyColumn).length := by cases bar <;> decide
      rw [List.flatMap_cons, List.length_append, List.length_cons]
      omega
  exact (hwide columns).trans (by simp)

private theorem readLine_eq {line rest shown : Text} {depth : Nat} {name : Text}
    (hcolumns : readColumns line.length line = (depth, rest))
    (hshown : readConnector depth rest = some shown) (hname : readName shown = some name) :
    readLine line = some (depth, name) := by
  simp [readLine, hcolumns, hshown, hname]

/-- A line tells its depth and its name. -/
theorem readLine_lineBody {columns : List Bool} {place : Option Bool}
    (h : place = none ↔ columns = []) (isLeaf : Bool) (data : Text) :
    readLine (lineBody columns place isLeaf data) = some (columns.length, data) := by
  cases place with
  | none =>
    obtain rfl := h.mp rfl
    have hname := readName_append false data
    rw [if_neg Bool.false_ne_true] at hname
    have hbar : behind barColumn (colour "[34m" ++ (data ++ colour "[0m")) = none :=
      behind_eq_none (by decide)
    have hempty : behind emptyColumn (colour "[34m" ++ (data ++ colour "[0m")) = none :=
      behind_eq_none (by decide)
    rw [← List.append_assoc] at hbar hempty
    exact readLine_eq (readColumns_lineBody [] hbar hempty) (if_pos rfl) hname
  | some isLast =>
    have hname := readName_append isLeaf data
    rw [List.append_assoc] at hname
    have hdepth : columns.length ≠ 0 := by
      intro hzero
      cases h.mpr (List.length_eq_zero_iff.mp hzero)
    have hconnector : ∀ rest : Text,
        (behind (connector true) (connector isLast ++ rest) <|>
          behind (connector false) (connector isLast ++ rest)) = some rest := by
      intro rest
      cases isLast with
      | true => simp
      | false =>
        have hnone : behind (connector true) (connector false ++ rest) = none :=
          behind_eq_none (by decide)
        simp [hnone]
    have hbar : behind barColumn (connector isLast ++
        (colour (if isLeaf then "[37m" else "[34m") ++ (data ++ colour "[0m"))) = none :=
      behind_eq_none (by cases isLast <;> decide)
    have hempty : behind emptyColumn (connector isLast ++
        (colour (if isLeaf then "[37m" else "[34m") ++ (data ++ colour "[0m"))) = none :=
      behind_eq_none (by cases isLast <;> decide)
    simp only [lineBody, List.append_assoc]
    exact readLine_eq (readColumns_lineBody columns hbar hempty)
      ((if_neg hdepth).trans (hconnector _)) hname

/-! ### Ways -/

/-- The node at `a` and the names on the way to it; `above` are those above `n`. -/
def headingAt (above : List Text) : TrieNode → Pointer → Heading Text
  | n, [] => ⟨above, n.data⟩
  | n, j :: a =>
    match n.childeren j with
    | some c => headingAt (above ++ [n.data]) c a
    | none => ⟨above, n.data⟩

section Headings

variable {n m c : TrieNode} {a : Pointer} {j : Fin maxFolders} {above : List Text}

theorem headingAt_cons (h : n.childeren j = some c) (a : Pointer) :
    headingAt above n (j :: a) = headingAt (above ++ [n.data]) c a := by
  rw [headingAt, h]

theorem path_headingAt (h : nodeAt n a = some m) :
    (headingAt above n a).path = above ++ n.data :: namesAt n a := by
  induction a generalizing n above with
  | nil => rfl
  | cons j a ih =>
    obtain ⟨c, hc, hm⟩ := childeren_of_nodeAt h
    rw [headingAt_cons hc, ih hm, namesAt_cons hc, List.append_assoc, List.singleton_append]

theorem item_headingAt (h : nodeAt n a = some m) :
    (headingAt above n a).item = (above.length + a.length, m.data) := by
  induction a generalizing n above with
  | nil =>
    cases h
    rfl
  | cons j a ih =>
    obtain ⟨c, hc, hm⟩ := childeren_of_nodeAt h
    rw [headingAt_cons hc, ih hm, List.length_append, List.length_singleton, List.length_cons,
      Nat.add_assoc, Nat.add_comm 1]

end Headings

mutual

/-- The nodes of a drawing are an outline of the ways to them. -/
theorem ordered_pointers (above : List Text) : (n : TrieNode) → (last : List Text) →
    (rest : List (Heading Text)) → above <+: last →
    (∀ last', above <+: last' → Heading.Ordered last' rest) →
    Heading.Ordered last ((pointers n).map (headingAt above n) ++ rest)
  | .node childeren isLeaf data, last, rest, hlast, hrest => by
    rw [pointers, List.map_cons, List.map_flatMap, List.cons_append]
    refine ⟨hlast, Heading.ordered_flatMap ?_ ?_
      (List.prefix_rfl : above ++ [data] <+: above ++ [data])⟩
    · intro j last' rest' hlast' hrest'
      have hslot : (childPointers j (childeren j)).map
          (headingAt above (.node childeren isLeaf data)) =
          (childPointers j (childeren j)).map (fun b ↦ match childeren j with
            | some c => headingAt (above ++ [data]) c b.tail
            | none => ⟨above, data⟩) := by
        apply List.map_congr_left
        intro b hb
        rcases (mem_childPointers j (childeren j) b).mp hb with ⟨c, a, hc, rfl, -⟩
        rw [headingAt_cons (n := .node childeren isLeaf data) hc, hc]
        rfl
      rw [hslot]
      exact ordered_childPointers (above ++ [data]) ⟨above, data⟩ j (childeren j) last' rest'
        hlast' hrest'
    · exact fun last' hlast' ↦ hrest last' ((List.prefix_append above [data]).trans hlast')

theorem ordered_childPointers (above : List Text) (x : Heading Text) (j : Fin maxFolders) :
    (o : Option TrieNode) → (last : List Text) → (rest : List (Heading Text)) → above <+: last →
    (∀ last', above <+: last' → Heading.Ordered last' rest) →
    Heading.Ordered last ((childPointers j o).map (fun b ↦ match o with
      | some c => headingAt above c b.tail
      | none => x) ++ rest)
  | none, last, rest, hlast, hrest => by
    rw [childPointers]
    exact hrest last hlast
  | some n, last, rest, hlast, hrest => by
    rw [childPointers, List.map_map]
    exact ordered_pointers above n last rest hlast hrest

end

private theorem newline_notMem_lineBody {columns : List Bool} {place : Option Bool} {isLeaf : Bool}
    {data : Text} (h : newline ∉ data) : newline ∉ lineBody columns place isLeaf data := by
  have hcolumns : newline ∉ columns.flatMap (fun bar ↦ if bar then barColumn else emptyColumn) := by
    rw [List.mem_flatMap]
    rintro ⟨bar, -, hbar⟩
    cases bar <;> revert hbar <;> decide
  have hwhite : newline ∉ colour "[37m" := by decide
  have hblue : newline ∉ colour "[34m" := by decide
  have hend : newline ∉ colour "[0m" := by decide
  cases place with
  | none =>
    simp only [lineBody, List.mem_append, not_or]
    exact ⟨hcolumns, ⟨hblue, h⟩, hend⟩
  | some isLast =>
    have hconnector : newline ∉ connector isLast := by cases isLast <;> decide
    have hkind : newline ∉ colour (if isLeaf then "[37m" else "[34m") := by
      cases isLeaf
      · exact hblue
      · exact hwhite
    simp only [lineBody, List.mem_append, not_or]
    exact ⟨hcolumns, ⟨⟨hconnector, hkind⟩, h⟩, hend⟩

/-- The line of the node at `a` without its newline. -/
def bodyAt (root : TrieNode) (a : Pointer) : Text :=
  match nodeAt root a with
  | some n => lineBody (columnsAt root a) (placeAt root a) n.isLeaf n.data
  | none => []

section Bodies

variable {root n : TrieNode} {a : Pointer}

theorem lineAt_eq_bodyAt (h : nodeAt root a = some n) :
    lineAt root a = bodyAt root a ++ [newline] := by
  simp only [lineAt, bodyAt, h]
  exact treeLine_eq _ _ _ _

theorem newline_notMem_bodyAt (h : nodeAt root a = some n) (hdata : newline ∉ n.data) :
    newline ∉ bodyAt root a := by
  simp only [bodyAt, h]
  exact newline_notMem_lineBody hdata

theorem readLine_bodyAt (h : nodeAt root a = some n) :
    readLine (bodyAt root a) = some (headingAt [] root a).item := by
  have hwidth : (columnsAt root a).length = a.length := by simp [columnsAt]
  have hplace : placeAt root a = none ↔ columnsAt root a = [] := by
    rw [← List.length_eq_zero_iff, hwidth, List.length_eq_zero_iff, placeAt]
    split
    · next hnil => simp [hnil]
    · next hne => simp [hne]
  simp only [bodyAt, h]
  rw [item_headingAt h, List.length_nil, Nat.zero_add, ← hwidth]
  exact readLine_lineBody hplace n.isLeaf n.data

end Bodies

theorem nodeAt_of_mem_pointers {n : TrieNode} {a : Pointer} (h : a ∈ pointers n) :
    ∃ m, nodeAt n a = some m :=
  Option.isSome_iff_exists.mp ((mem_pointers n a).mp h)

private theorem flatMap_treeLines_eq (ns : List TrieNode) :
    ns.flatMap (treeLines [] none) =
      (ns.flatMap (fun n ↦ (pointers n).map (bodyAt n))).map (· ++ [newline]) := by
  rw [List.map_flatMap]
  apply List.flatMap_congr
  intro n _
  rw [treeLines_eq_lineAt, List.map_map]
  apply List.map_congr_left
  intro a ha
  obtain ⟨m, hm⟩ := nodeAt_of_mem_pointers ha
  exact lineAt_eq_bodyAt hm

private theorem mapM_bodies (n : TrieNode) :
    ((pointers n).map (bodyAt n)).mapM readLine =
      some (((pointers n).map (headingAt [] n)).map Heading.item) := by
  have hall : ∀ as ⊆ pointers n, (as.map (bodyAt n)).mapM readLine =
      some ((as.map (headingAt [] n)).map Heading.item) := by
    intro as has
    induction as with
    | nil => rfl
    | cons a as ih =>
      obtain ⟨ha, has⟩ := List.cons_subset.mp has
      obtain ⟨m, hm⟩ := nodeAt_of_mem_pointers ha
      rw [List.map_cons, List.mapM_cons, readLine_bodyAt hm, ih has]
      rfl
  exact hall _ (List.Subset.refl _)

/-- The names on the ways to the nodes of a trie, with its own. -/
def ways (n : TrieNode) : List (List Text) := (pointers n).map (fun a ↦ n.data :: namesAt n a)

/-- Drawings one behind the other are read as the ways to their nodes, in the order of the
lines. -/
theorem readDrawing_treeLines {ns : List TrieNode}
    (hnames : ∀ n ∈ ns, ∀ a m, nodeAt n a = some m → newline ∉ m.data) :
    readDrawing (ns.flatMap (treeLines [] none)).flatten = some (ns.flatMap ways) := by
  have hline : ∀ l ∈ ns.flatMap (fun n ↦ (pointers n).map (bodyAt n)), newline ∉ l := by
    rw [List.forall_mem_flatMap]
    intro n hn l hl
    obtain ⟨a, ha, rfl⟩ := List.mem_map.mp hl
    obtain ⟨m, hm⟩ := nodeAt_of_mem_pointers ha
    exact newline_notMem_bodyAt hm (hnames n hn a m hm)
  have hread : (ns.flatMap (fun n ↦ (pointers n).map (bodyAt n))).mapM readLine =
      some ((ns.flatMap (fun n ↦ (pointers n).map (headingAt [] n))).map Heading.item) := by
    clear hnames hline
    induction ns with
    | nil => rfl
    | cons n ns ih =>
      rw [List.flatMap_cons, List.mapM_append, mapM_bodies, ih, List.flatMap_cons, List.map_append]
      rfl
  have hordered : Heading.Ordered []
      (ns.flatMap (fun n ↦ (pointers n).map (headingAt [] n)) ++ []) := by
    refine Heading.ordered_flatMap ?_ ?_ (List.prefix_rfl : [] <+: [])
    · exact fun n last rest hlast hrest ↦ ordered_pointers [] n last rest hlast hrest
    · exact fun _ _ ↦ trivial
  rw [List.append_nil] at hordered
  rw [flatMap_treeLines_eq, readDrawing, completeLines, splitOn_flatten_concat hline,
    List.dropLast_concat, hread, Option.map_some, Heading.readOutline_map_item hordered, List.map_flatMap]
  congr 1
  apply List.flatMap_congr
  intro n _
  rw [List.map_map]
  apply List.map_congr_left
  intro a ha
  obtain ⟨m, hm⟩ := nodeAt_of_mem_pointers ha
  rw [Function.comp_apply, path_headingAt hm, List.nil_append]

/-- Where siblings have different names, every node has one line. -/
theorem TrieNode.Distinct.nodup_ways {n : TrieNode} (hd : n.Distinct) : (ways n).Nodup := by
  have hnodup : (pointers n).Nodup := (pairwise_pointers n).imp (fun h ↦ h.ne)
  apply hnodup.map_on
  intro a ha b hb heq
  obtain ⟨m, hm⟩ := nodeAt_of_mem_pointers ha
  obtain ⟨m', hm'⟩ := nodeAt_of_mem_pointers hb
  exact hd.namesAt_inj hm hm' (List.cons_eq_cons.mp heq).2

/-- The ways are those that a search finds. -/
theorem TrieNode.Distinct.mem_ways {n : TrieNode} (hd : n.Distinct) {p : List Text} :
    p ∈ ways n ↔ ∃ ws ∈ n.paths, p = n.data :: ws := by
  rw [ways, List.mem_map]
  constructor
  · rintro ⟨a, ha, rfl⟩
    obtain ⟨m, hm⟩ := nodeAt_of_mem_pointers ha
    exact ⟨_, hd.namesAt_mem_paths hm, rfl⟩
  · rintro ⟨ws, hws, rfl⟩
    obtain ⟨a, m, hm, hnames⟩ := hd.exists_nodeAt hws
    exact ⟨a, (mem_pointers n a).mpr (by rw [hm]; rfl), by rw [hnames]⟩

/-- A part of the lines of a text that has no newline is a part of one of them. -/
private theorem infix_of_infix_lines {p : Text} (hp : newline ∉ p) (hne : p ≠ [])
    {lines : List Text} (h : p <:+: (lines.map (· ++ [newline])).flatten) :
    ∃ l ∈ lines, p <:+: l := by
  induction lines with
  | nil => exact absurd (List.infix_nil.mp h) hne
  | cons l lines ih =>
    rw [List.map_cons, List.flatten_cons, List.append_assoc, List.singleton_append] at h
    obtain h | h := infix_of_infix_append_cons hp h
    · exact ⟨l, List.mem_cons_self, h⟩
    · obtain ⟨l', hl', h⟩ := ih h
      exact ⟨l', List.mem_cons_of_mem l hl', h⟩

private theorem at_notMem_columns (columns : List Bool) :
    (64 : UInt8) ∉ columns.flatMap (fun bar ↦ if bar then barColumn else emptyColumn) := by
  rw [List.mem_flatMap]
  rintro ⟨bar, -, hbar⟩
  cases bar <;> revert hbar <;> decide

/-- The marker is not made up by columns, connectors and colours. -/
private theorem marker_of_lineBody {columns : List Bool} {place : Option Bool} {isLeaf : Bool}
    {data : Text} (h : listingOver <:+: lineBody columns place isLeaf data) :
    listingOver <:+: data := by
  have hhead : (64 : UInt8) ∈ listingOver := by decide
  obtain ⟨u, hu, hbody⟩ : ∃ u, (64 : UInt8) ∉ u ∧
      lineBody columns place isLeaf data = (u ++ 109 :: data) ++ 27 :: lit "[0m" := by
    cases place with
    | none =>
      refine ⟨columns.flatMap (fun bar ↦ if bar then barColumn else emptyColumn) ++
        27 :: lit "[34", ?_, by simp [lineBody, colour, lit]⟩
      rw [List.mem_append, not_or]
      exact ⟨at_notMem_columns columns, by decide⟩
    | some isLast =>
      refine ⟨columns.flatMap (fun bar ↦ if bar then barColumn else emptyColumn) ++
        (connector isLast ++ 27 :: lit (if isLeaf then "[37" else "[34")), ?_, ?_⟩
      · rw [List.mem_append, not_or]
        exact ⟨at_notMem_columns columns, by cases isLast <;> cases isLeaf <;> decide⟩
      · cases isLeaf <;> simp [lineBody, colour, lit]
  rw [hbody] at h
  obtain h | h := infix_of_infix_append_cons (by decide) h
  · obtain h | h := infix_of_infix_append_cons (by decide) h
    · exact absurd (h.subset hhead) hu
    · exact h
  · exact absurd (h.subset hhead) (by decide)

/-- A marker in a drawing is one in a name. -/
theorem marker_of_treeLines {ns : List TrieNode}
    (h : listingOver <:+: (ns.flatMap (treeLines [] none)).flatten) :
    ∃ n ∈ ns, ∃ a m, nodeAt n a = some m ∧ listingOver <:+: m.data := by
  rw [flatMap_treeLines_eq] at h
  obtain ⟨l, hl, h⟩ := infix_of_infix_lines (by decide) (by decide) h
  obtain ⟨n, hn, hl⟩ := List.mem_flatMap.mp hl
  obtain ⟨a, ha, rfl⟩ := List.mem_map.mp hl
  obtain ⟨m, hm⟩ := nodeAt_of_mem_pointers ha
  simp only [bodyAt, hm] at h
  exact ⟨n, hn, a, m, hm, marker_of_lineBody h⟩

end NetworkFileSystem.Trie
