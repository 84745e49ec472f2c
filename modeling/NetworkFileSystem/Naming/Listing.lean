import NetworkFileSystem.Naming.Program

/-!
# Drawing a trie for a client

`tries.c:15–34,170–223`. Every node is one line: a column for each ancestor below the
top, a connector, and the name in the colour of its kind. The line is put together in a
buffer of 1024 bytes; the arithmetic on the remaining room wraps around once a line is
longer, and the model stops there.
-/

namespace NetworkFileSystem.Naming

open Base Protocol Trie

/-- The escape sequence for a colour. -/
def colour (code : String) : Text := 27 :: lit code

/-- `"\033[33m│   \033[0m"`, the column of an ancestor with later siblings. -/
def barColumn : Text := colour "[33m" ++ [0xE2, 0x94, 0x82] ++ lit "   " ++ colour "[0m"

/-- The column of an ancestor without later siblings. -/
def emptyColumn : Text := lit "    "

/-- `"\033[33m%s── \033[0m"` with `└` for a last child and `├` for any other. -/
def connector (isLast : Bool) : Text :=
  colour "[33m" ++ (if isLast then [0xE2, 0x94, 0x94] else [0xE2, 0x94, 0x9C]) ++
    [0xE2, 0x94, 0x80, 0xE2, 0x94, 0x80] ++ lit " " ++ colour "[0m"

/-- `tries.c:15–34`: no used slot comes after slot `j`. -/
def isLastChild (childeren : Fin maxFolders → Option TrieNode) (j : Fin maxFolders) : Bool :=
  (List.finRange maxFolders).all (fun i ↦ decide (i ≤ j) || (childeren i).isNone)

/-- The line at `tries.c:178–197` for a node below the columns `columns`; `place` is `none`
for the top node and else says whether the node is a last child. -/
def treeLine (columns : List Bool) (place : Option Bool) (isLeaf : Bool) (data : Text) : Text :=
  (columns.flatMap (fun bar ↦ if bar then barColumn else emptyColumn)) ++
    match place with
    | none => colour "[34m" ++ data ++ colour "[0m" ++ lit "\n"
    | some isLast =>
      connector isLast ++ colour (if isLeaf then "[37m" else "[34m") ++ data ++ colour "[0m" ++
        lit "\n"

/-- The bytes sent for a line: a line that fills the buffer loses its last byte to the NUL. -/
def fitLine (line : Text) : Text :=
  if line.length < bufferSize then line else clip bufferSize line ++ [0]

/-- Perform the programs of a list one after the other. -/
def performAll : List (NsProg Unit) → NsProg Unit
  | [] => pure ()
  | p :: ps => do
    p
    performAll ps

mutual

/-- `tries.c:170–216`. The columns of the children are those of the node and its own; at
the top, without a parent, the node counts as a last child. -/
def printTreeNetwork (columns : List Bool) (place : Option Bool) : TrieNode → NsProg Unit
  | .node childeren isLeaf data =>
    let line := treeLine columns place isLeaf data
    if line.length ≤ bufferSize then do
      if ← sendClient (fitLine line) then
        performAll ((List.finRange maxFolders).map (fun j ↦
          printSlotNetwork (columns ++ [place == some false])
            (some (isLastChild childeren j)) (childeren j)))
    else .abort

/-- The body of the loop at `tries.c:211–215`. -/
def printSlotNetwork (columns : List Bool) (place : Option Bool) : Option TrieNode → NsProg Unit
  | none => pure ()
  | some n => printTreeNetwork columns place n

end

/-- `tries.c:218–223`; a missing node draws nothing. -/
def displayTrieNetwork (root : Option TrieNode) : NsProg Unit := printSlotNetwork [] none root

mutual

/-- The lines of a tree in the order of `printTreeNetwork`. -/
def treeLines (columns : List Bool) (place : Option Bool) : TrieNode → List Text
  | .node childeren isLeaf data =>
    treeLine columns place isLeaf data ::
      (List.finRange maxFolders).flatMap (fun j ↦
        slotLines (columns ++ [place == some false])
          (some (isLastChild childeren j)) (childeren j))

/-- The lines below one slot. -/
def slotLines (columns : List Bool) (place : Option Bool) : Option TrieNode → List Text
  | none => []
  | some n => treeLines columns place n

end

/-- Sends to the client. -/
def NsOp.isClientSend : NsOp → Bool
  | .sendClient _ => true
  | _ => false

theorem only_performAll {P : NsOp → Prop} {ps : List (NsProg Unit)}
    (h : ∀ p ∈ ps, p.Only P) : (performAll ps).Only P := by
  induction ps with
  | nil => trivial
  | cons p ps ih =>
    exact Prog.only_bind (h p (by simp)) (fun _ ↦ ih (fun q hq ↦ h q (by simp [hq])))

mutual

/-- Drawing a tree sends lines to the client and does nothing else. -/
theorem only_printTreeNetwork (columns : List Bool) (place : Option Bool) : (n : TrieNode) →
    (printTreeNetwork columns place n).Only (fun o ↦ o.isClientSend = true)
  | .node childeren isLeaf data => by
    rw [printTreeNetwork]
    split
    · refine ⟨rfl, fun ok ↦ ?_⟩
      cases ok with
      | false => trivial
      | true =>
        refine only_performAll (fun p hp ↦ ?_)
        obtain ⟨j, -, rfl⟩ := List.mem_map.mp hp
        exact only_printSlotNetwork _ _ (childeren j)
    · trivial

theorem only_printSlotNetwork (columns : List Bool) (place : Option Bool) :
    (o : Option TrieNode) →
    (printSlotNetwork columns place o).Only (fun o ↦ o.isClientSend = true)
  | none => by
    rw [printSlotNetwork]
    trivial
  | some n => by
    rw [printSlotNetwork]
    exact only_printTreeNetwork columns place n

end

end NetworkFileSystem.Naming
