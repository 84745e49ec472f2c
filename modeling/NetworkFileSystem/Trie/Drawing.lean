import Mathlib.Data.Bool.Count
import NetworkFileSystem.Base.CharArray
import NetworkFileSystem.Naming.Replies

/-!
# Drawing with arrays and pointers

`tries.c:15–34,170–223`, closer to the code than `Naming/Listing.lean`: a line is printed piece
by piece into an array, the prefix is a string that every call copies and extends, and a node is
looked up among its parent's children by its pointer. The drawing is the same program.
-/

namespace NetworkFileSystem.Trie

open Base Protocol Naming Prog

/-- A pointer to a node: the slots on the way to it from the node that is drawn first. -/
abbrev Pointer : Type := List (Fin maxFolders)

/-- A parent, as a child sees it. -/
structure Parent where
  pointer : Pointer
  childeren : Fin maxFolders → Option TrieNode

/-- `parent->childeren[i] == node`. -/
def Parent.holds (parent : Parent) (node : Pointer) (i : Fin maxFolders) : Bool :=
  (parent.childeren i).isSome && parent.pointer ++ [i] == node

/-- `tries.c:15–34`. -/
def isLastChild (node : Pointer) : Option Parent → Bool
  | none => true
  | some parent =>
    let nodeIndex : Int :=
      match (List.finRange maxFolders).find? (parent.holds node) with
      | some i => i
      | none => -1
    !(List.finRange maxFolders).any
      (fun i ↦ decide (nodeIndex + 1 ≤ i) && (parent.childeren i).isSome)

/-- `buffer` and `len`. -/
structure Line where
  buffer : CharArray bufferSize
  len : Nat

/-- `len += snprintf(buffer + len, sizeof(buffer) - len, …)`. The answer `none` is a difference
that wraps around. -/
def Line.print (l : Line) (t : Text) : Option Line :=
  if l.len ≤ bufferSize then
    some ⟨l.buffer.snprintf l.len (bufferSize - l.len) t, l.len + t.length⟩
  else none

/-- The bytes of `send(sock, buffer, len, 0)`. The answer `none` is a send of more bytes than the
array holds. -/
def Line.sent (l : Line) : Option Text :=
  if l.len ≤ bufferSize then some (l.buffer.bytes.take l.len) else none

/-- `tries.c:178–184`. -/
def printColumns (l : Line) (depth : Nat) (pre : CharArray maxPath) : Option Line :=
  (List.range depth).foldlM
    (fun l i ↦ l.print (if pre.bytes[i]? = some 49 then barColumn else emptyColumn)) l

/-- `tries.c:175–197`, with what the array holds at first. -/
def printLine (stack : CharArray bufferSize) (depth : Nat) (pre : CharArray maxPath)
    (isLast isLeaf : Bool) (data : Text) : Option Line := do
  let l ← printColumns ⟨stack, 0⟩ depth pre
  if 0 < depth then
    let l ← l.print (connector isLast)
    l.print (colour (if isLeaf then "[37m" else "[34m") ++ data ++ colour "[0m" ++ lit "\n")
  else l.print (colour "[34m" ++ data ++ colour "[0m" ++ lit "\n")

/-- `tries.c:206–208`: the copy of the prefix with the digit of the node. -/
def extendPrefix (stack pre : CharArray maxPath) (depth : Nat) (isLast : Bool) :
    CharArray maxPath :=
  ((stack.store 0 (pre.text ++ [0])).store depth [if isLast then 48 else 49]).store (depth + 1) [0]

/-- What the local arrays of a call hold at first. -/
structure Frame where
  buffer : CharArray bufferSize
  newPrefix : CharArray maxPath

mutual

/-- `tries.c:170–216`; `stack` is what the calls find in their local arrays. -/
def printTreeNetwork (stack : Pointer → Frame) (node : Pointer) (depth : Nat)
    (pre : CharArray maxPath) (parent : Option Parent) : TrieNode → NsProg Unit
  | .node childeren isLeaf data => do
    let isLast := isLastChild node parent
    let l ← Prog.ofOption (printLine (stack node).buffer depth pre isLast isLeaf data)
    let bytes ← Prog.ofOption l.sent
    if ← sendClient bytes then
      -- `new_prefix[depth + 1]` has to be in the array.
      if depth + 1 < maxPath then
        performAll ((List.finRange maxFolders).map (fun j ↦
          printChild stack (node ++ [j]) (depth + 1)
            (extendPrefix (stack node).newPrefix pre depth isLast)
            (some ⟨node, childeren⟩) (childeren j)))
      else .abort

/-- The body of the loop at `tries.c:211–215`. -/
def printChild (stack : Pointer → Frame) (node : Pointer) (depth : Nat)
    (pre : CharArray maxPath) (parent : Option Parent) : Option TrieNode → NsProg Unit
  | none => pure ()
  | some n => printTreeNetwork stack node depth pre parent n

end

/-- `tries.c:218–223`. -/
def displayTrieNetwork (stack : Pointer → Frame) (root : Option TrieNode) : NsProg Unit :=
  printChild stack [] 0 (CharArray.zeros maxPath) none root

/-! ### Lines -/

/-- The array holds a printed text as far as it fits. -/
def Line.Shows (l : Line) (t : Text) : Prop :=
  l.len = t.length ∧ (t.length ≤ bufferSize → l.buffer.bytes.take t.length = fitLine t)

theorem Line.Shows.sent_eq {l : Line} {t : Text} (h : l.Shows t) :
    l.sent = if t.length ≤ bufferSize then some (fitLine t) else none := by
  rw [Line.sent, h.1]
  split
  · next hfit => rw [h.2 hfit]
  · rfl

/-- A piece is printed behind what is there; with the last byte of room it loses its own. -/
theorem Line.Shows.print {l : Line} {t u : Text} (h : l.Shows t) (hfit : t.length ≤ bufferSize)
    (hu : u ≠ []) : ∃ l', l.print u = some l' ∧ l'.Shows (t ++ u) := by
  have hpos := List.length_pos_iff.mpr hu
  refine ⟨_, if_pos (h.1 ▸ hfit), ?_, ?_⟩
  · simp [h.1]
  · intro hwhole
    rw [List.length_append] at hwhole
    have hbefore : l.buffer.bytes.take t.length = t := by
      rw [h.2 hfit, fitLine, if_pos (by omega)]
    simp only [h.1, List.length_append]
    rcases Nat.lt_or_ge (t.length + u.length) bufferSize with hroom | hfull
    · rw [CharArray.take_snprintf hroom, hbefore, fitLine, if_pos (by simpa using hroom)]
    · have hexact : (clip (bufferSize - t.length) u ++ [0]).length = u.length := by
        simp [clip]
        omega
      have hstore := CharArray.take_store_end (a := l.buffer) (i := t.length)
        (t := clip (bufferSize - t.length) u ++ [0]) (by rw [hexact]; omega)
      have ht : t.take (bufferSize - 1) = t := List.take_of_length_le (by omega)
      rw [hexact, hbefore] at hstore
      rw [CharArray.snprintf, if_neg (by omega), hstore, fitLine, if_neg (by simpa using hfull),
        clip, clip, List.take_append, ht, List.append_assoc]
      congr 3
      omega

/-- Pieces one after the other, sent together: a line that is too long stops on the way. -/
theorem Line.Shows.print_all {l : Line} {t : Text} (h : l.Shows t) {us : List Text}
    (hus : ∀ u ∈ us, u ≠ []) :
    (us.foldlM Line.print l >>= Line.sent) =
      if (t ++ us.flatten).length ≤ bufferSize then some (fitLine (t ++ us.flatten)) else none := by
  induction us generalizing l t with
  | nil =>
    rw [List.flatten_nil, List.append_nil, ← h.sent_eq]
    rfl
  | cons u us ih =>
    rw [List.foldlM_cons, List.flatten_cons, ← List.append_assoc]
    by_cases hfit : t.length ≤ bufferSize
    · rcases h.print hfit (hus u List.mem_cons_self) with ⟨l', hprint, hshows⟩
      rw [hprint, ← ih hshows (fun v hv ↦ hus v (List.mem_cons_of_mem _ hv))]
      rfl
    · have hstop : l.print u = none := if_neg (h.1 ▸ hfit)
      rw [hstop, if_neg (by simp only [List.length_append]; omega)]
      rfl

/-- The array as the string of the digits of the columns. -/
def Digits (pre : CharArray maxPath) (columns : List Bool) : Prop :=
  columns.length < maxPath ∧
    pre.bytes.take (columns.length + 1) = columns.map (fun bar ↦ if bar then 49 else 48) ++ [0]

theorem digits_zeros : Digits (CharArray.zeros maxPath) [] := by
  refine ⟨by decide, ?_⟩
  show (List.replicate maxPath (0 : UInt8)).take 1 = [0]
  rfl

section Prefix

variable {pre : CharArray maxPath} {columns : List Bool}

private theorem Digits.text_eq (h : Digits pre columns) :
    pre.text = columns.map (fun bar ↦ if bar then 49 else 48) := by
  have hsplit := List.take_append_drop (columns.length + 1) pre.bytes
  rw [h.2, List.append_assoc] at hsplit
  rw [CharArray.text, ← hsplit, cstr, List.takeWhile_append_of_pos]
  · simp
  · intro b hb
    rcases List.mem_map.mp hb with ⟨bar, -, rfl⟩
    cases bar <;> decide

private theorem Digits.getElem? (h : Digits pre columns) {i : Nat} (hi : i < columns.length) :
    pre.bytes[i]? = some 49 ↔ columns[i]? = some true := by
  have htake : pre.bytes[i]? = (pre.bytes.take (columns.length + 1))[i]? := by
    rw [List.getElem?_take_of_lt (by omega)]
  rw [htake, h.2, List.getElem?_append_left (by simpa using hi), List.getElem?_map,
    List.getElem?_eq_getElem hi]
  cases columns[i] <;> simp

/-- The prefix of the children. -/
private theorem Digits.extend (h : Digits pre columns) (stack : CharArray maxPath) (isLast : Bool)
    (hroom : columns.length + 1 < maxPath) :
    Digits (extendPrefix stack pre columns.length isLast) (columns ++ [!isLast]) := by
  have htext := h.text_eq
  have hlength : (pre.text ++ [0]).length = columns.length + 1 := by simp [htext]
  have hcopy : (stack.store 0 (pre.text ++ [0])).bytes.take columns.length = pre.text := by
    have hwhole := CharArray.take_store_end (a := stack) (i := 0) (t := pre.text ++ [0]) (by omega)
    rw [Nat.zero_add, hlength] at hwhole
    have hpart := congrArg (List.take columns.length) hwhole
    rw [List.take_take, Nat.min_eq_left (by omega), List.take_zero, List.nil_append,
      List.take_left' (by simp [htext])] at hpart
    exact hpart
  refine ⟨by simpa using hroom, ?_⟩
  have hdigit := CharArray.take_store_end (a := stack.store 0 (pre.text ++ [0]))
    (i := columns.length) (t := [if isLast then 48 else 49]) (by simp; omega)
  have hend := CharArray.take_store_end
    (a := (stack.store 0 (pre.text ++ [0])).store columns.length [if isLast then 48 else 49])
    (i := columns.length + 1) (t := [0]) (by simp; omega)
  rw [List.length_singleton, hcopy] at hdigit
  rw [List.length_singleton, hdigit] at hend
  rw [List.length_append, List.length_singleton, extendPrefix, hend, htext]
  cases isLast <;> simp

end Prefix

/-- The column of an ancestor. -/
def column (bar : Bool) : Text := if bar then barColumn else emptyColumn

/-- The texts that are printed for a node, one call after the other. -/
def pieces (columns : List Bool) (place : Option Bool) (isLeaf : Bool) (data : Text) : List Text :=
  columns.map column ++ match place with
    | none => [colour "[34m" ++ data ++ colour "[0m" ++ lit "\n"]
    | some isLast => [connector isLast,
        colour (if isLeaf then "[37m" else "[34m") ++ data ++ colour "[0m" ++ lit "\n"]

theorem flatten_pieces (columns : List Bool) (place : Option Bool) (isLeaf : Bool) (data : Text) :
    (pieces columns place isLeaf data).flatten = treeLine columns place isLeaf data := by
  have hcolumns : (columns.map column).flatten =
      columns.flatMap (fun bar ↦ if bar then barColumn else emptyColumn) := rfl
  cases place with
  | none => simp [pieces, treeLine, hcolumns]
  | some isLast => simp [pieces, treeLine, hcolumns]

private theorem ne_nil_of_mem_pieces {columns : List Bool} {place : Option Bool} {isLeaf : Bool}
    {data u : Text} (h : u ∈ pieces columns place isLeaf data) : u ≠ [] := by
  have hcolumn : ∀ bar, column bar ≠ [] := by decide
  have hconnector : ∀ isLast, connector isLast ≠ [] := by decide
  rcases List.mem_append.mp h with hu | hu
  · rcases List.mem_map.mp hu with ⟨bar, -, rfl⟩
    exact hcolumn bar
  · cases place with
    | none =>
      rw [List.mem_singleton] at hu
      simp [hu, colour]
    | some isLast =>
      rw [List.mem_pair] at hu
      rcases hu with rfl | rfl
      · exact hconnector isLast
      · simp [colour]

section Pieces

variable {stack : CharArray bufferSize} {pre : CharArray maxPath} {columns : List Bool}

private theorem printColumns_eq (h : Digits pre columns) (l : Line) :
    printColumns l columns.length pre = (columns.map column).foldlM Line.print l := by
  have hcolumns : columns.map column = (List.range columns.length).map
      (fun i ↦ if pre.bytes[i]? = some 49 then barColumn else emptyColumn) := by
    apply List.ext_getElem
    · simp
    · intro i h₁ h₂
      have hi : i < columns.length := by simpa using h₁
      have hdigit := h.getElem? hi
      rw [List.getElem?_eq_getElem hi, Option.some.injEq] at hdigit
      simp only [List.getElem_map, List.getElem_range, hdigit, column]
  rw [hcolumns, List.foldlM_map]
  rfl

/-- Where a node stands among its siblings; the top node has none. -/
def placeOf (depth : Nat) (isLast : Bool) : Option Bool := if 0 < depth then some isLast else none

private theorem printLine_eq_foldlM (h : Digits pre columns) (isLast isLeaf : Bool) (data : Text) :
    printLine stack columns.length pre isLast isLeaf data =
      (pieces columns (placeOf columns.length isLast) isLeaf data).foldlM Line.print ⟨stack, 0⟩ := by
  rw [printLine, printColumns_eq h]
  by_cases hdepth : 0 < columns.length
  · simp [hdepth, placeOf, pieces]
  · simp [hdepth, placeOf, pieces]

/-- What is printed and sent of a node is its line. -/
theorem printLine_eq (h : Digits pre columns) (isLast isLeaf : Bool) (data : Text) :
    (printLine stack columns.length pre isLast isLeaf data >>= Line.sent) =
      let line := treeLine columns (placeOf columns.length isLast) isLeaf data
      if line.length ≤ bufferSize then some (fitLine line) else none := by
  have hstart : (⟨stack, 0⟩ : Line).Shows [] := ⟨rfl, fun _ ↦ rfl⟩
  rw [printLine_eq_foldlM h, hstart.print_all (fun u hu ↦ ne_nil_of_mem_pieces hu),
    List.nil_append, flatten_pieces]

end Pieces

/-! ### The same program -/

/-- Looking for the pointer finds the slot. -/
theorem isLastChild_eq {parent : Parent} {j : Fin maxFolders}
    (hused : (parent.childeren j).isSome = true) :
    isLastChild (parent.pointer ++ [j]) (some parent) = Naming.isLastChild parent.childeren j := by
  have hholds : ∀ i, parent.holds (parent.pointer ++ [j]) i = true ↔ i = j := by
    intro i
    rw [Parent.holds, Bool.and_eq_true, beq_iff_eq, List.append_cancel_left_eq, List.singleton_inj]
    constructor
    · exact fun h ↦ h.2
    · rintro rfl
      exact ⟨hused, rfl⟩
  have hfind : (List.finRange maxFolders).find? (parent.holds (parent.pointer ++ [j])) = some j := by
    have hsome : ((List.finRange maxFolders).find?
        (parent.holds (parent.pointer ++ [j]))).isSome = true :=
      List.find?_isSome.mpr ⟨j, List.mem_finRange j, (hholds j).mpr rfl⟩
    rcases Option.isSome_iff_exists.mp hsome with ⟨i, hi⟩
    rw [hi, (hholds i).mp (List.find?_some hi)]
  rw [isLastChild, hfind, Naming.isLastChild, List.not_any_eq_all_not]
  congr 1
  ext i
  by_cases hi : i ≤ j
  · have hnot : ¬ ((j.val : Int) + 1 ≤ i.val) := by
      have hval : i.val ≤ j.val := hi
      omega
    simp [hi, hnot]
  · have hlater : (j.val : Int) + 1 ≤ i.val := by
      have hval : j.val < i.val := Nat.lt_of_not_le hi
      omega
    simp [hi, hlater]

theorem length_treeLine (columns : List Bool) (place : Option Bool) (isLeaf : Bool) (data : Text) :
    (treeLine columns place isLeaf data).length =
      15 * columns.count true + 4 * columns.count false +
        (if place = none then 10 else 29) + data.length := by
  have hcolumns : (columns.flatMap (fun bar ↦ if bar then barColumn else emptyColumn)).length =
      15 * columns.count true + 4 * columns.count false := by
    induction columns with
    | nil => rfl
    | cons bar columns ih =>
      have hbar : barColumn.length = 15 := by decide
      have hempty : emptyColumn.length = 4 := by decide
      cases bar
      · simp [ih, hempty]
        omega
      · simp [ih, hbar]
        omega
  unfold treeLine
  rw [List.length_append, hcolumns]
  cases place with
  | none =>
    simp [colour, lit]
    omega
  | some isLast =>
    have hconnector : (connector isLast).length = 19 := by
      cases isLast <;> decide
    cases isLeaf
    · simp [colour, hconnector, lit]
      omega
    · simp [colour, hconnector, lit]
      omega

/-- A line that fits its buffer belongs to a node whose prefix fits as well. -/
private theorem depth_lt_of_fits {columns : List Bool} {isLast isLeaf : Bool} {data : Text}
    (h : (treeLine columns (placeOf columns.length isLast) isLeaf data).length ≤ bufferSize) :
    columns.length + 1 < maxPath := by
  have hcount := List.count_false_add_count_true columns
  have hbuffer : bufferSize = 1024 := rfl
  have hmax : maxPath = 256 := rfl
  rw [length_treeLine, placeOf] at h
  by_cases hdepth : 0 < columns.length
  · simp only [hdepth, if_true, reduceCtorEq, if_false] at h
    omega
  · omega

private theorem ofOption_bind_ofOption {Op : Type} {Res : Op → Type} {α β γ : Type} (x : Option α)
    (f : α → Option β) (k : β → Prog Op Res γ) :
    (Prog.ofOption x >>= fun a ↦ Prog.ofOption (f a) >>= k) = Prog.ofOption (x >>= f) >>= k := by
  cases x <;> rfl

mutual

/-- The drawing with arrays and pointers is the drawing of `Naming/Listing.lean`, whatever the
local arrays hold at first. -/
theorem printTreeNetwork_eq (stack : Pointer → Frame) (node : Pointer) (pre : CharArray maxPath)
    (parent : Option Parent) (columns : List Bool) (place : Option Bool)
    (hdigits : Digits pre columns)
    (hplace : placeOf columns.length (isLastChild node parent) = place)
    (htop : columns.length = 0 → parent = none) : (n : TrieNode) →
    printTreeNetwork stack node columns.length pre parent n =
      Naming.printTreeNetwork columns place n
  | .node childeren isLeaf data => by
    rw [printTreeNetwork, Naming.printTreeNetwork, ofOption_bind_ofOption, printLine_eq hdigits,
      hplace]
    simp only
    split
    · next hfit =>
      have hroom : columns.length + 1 < maxPath := depth_lt_of_fits (hplace ▸ hfit)
      show (sendClient _ >>= _) = (sendClient _ >>= _)
      congr 1
      funext ok
      cases ok with
      | false => rfl
      | true =>
        simp only [if_true, hroom]
        congr 1
        apply List.map_congr_left
        intro j _
        have hcolumn : (!isLastChild node parent) = (place == some false) := by
          rw [← hplace, placeOf]
          split
          · cases isLastChild node parent <;> rfl
          · next hdepth =>
            rw [htop (by omega)]
            rfl
        have hextended := hdigits.extend (stack node).newPrefix (isLastChild node parent) hroom
        have hlength : (columns ++ [place == some false]).length = columns.length + 1 := by simp
        rw [hcolumn] at hextended
        rw [← hlength]
        apply printChild_eq stack _ _ _ _ _ hextended (by simp)
        intro hchild
        have hused : (childeren j).isSome = true := Option.isSome_iff_ne_none.mpr hchild
        have hlast : isLastChild (node ++ [j]) (some ⟨node, childeren⟩) =
            Naming.isLastChild childeren j := isLastChild_eq hused
        rw [placeOf, if_pos (by simp), hlast]
    · rfl

theorem printChild_eq (stack : Pointer → Frame) (node : Pointer) (pre : CharArray maxPath)
    (parent : Option Parent) (columns : List Bool) (place : Option Bool)
    (hdigits : Digits pre columns)
    (htop : columns.length = 0 → parent = none) : (o : Option TrieNode) →
    (o ≠ none → placeOf columns.length (isLastChild node parent) = place) →
    printChild stack node columns.length pre parent o = Naming.printSlotNetwork columns place o
  | none => by
    intro _
    rw [printChild, Naming.printSlotNetwork]
  | some n => by
    intro hplace
    rw [printChild, Naming.printSlotNetwork]
    exact printTreeNetwork_eq stack node pre parent columns place hdigits (hplace (by simp)) htop n

end

theorem displayTrieNetwork_eq (stack : Pointer → Frame) (root : Option TrieNode) :
    displayTrieNetwork stack root = Naming.displayTrieNetwork root :=
  printChild_eq stack [] (CharArray.zeros maxPath) none [] none digits_zeros (fun _ ↦ rfl) root
    (fun _ ↦ rfl)

end NetworkFileSystem.Trie
