import NetworkFileSystem.Base.Text
import Mathlib.Data.List.FinRange

/-!
# The path trie

`tries.c:5–12,115–164,226–279`, `tries.h:10–21`, and the lookup over all tries in
`naming_server.c:335–363`. A node owns an array of `MAX_FOLDERS` slots; deletions
leave holes that later insertions reuse. The C code walks the array with pointers;
here each loop returns the changed tree. `none` is a run that leaves defined
behaviour: more components than `path_arr` holds, or a deletion without components.
-/

namespace NetworkFileSystem.Trie

open Base

/-- `tries.h:10`. -/
def maxFolders : Nat := 256

/-- `tries.h:11`, the size of `path_arr`. -/
def maxPath : Nat := 256

/-- `tries.h:14–20`. -/
inductive TrieNode where
  | node (childeren : Fin maxFolders → Option TrieNode) (isLeaf : Bool) (data : Text)

namespace TrieNode

/-- The slot array. -/
def childeren : TrieNode → Fin maxFolders → Option TrieNode
  | .node ch _ _ => ch

/-- The leaf flag. -/
def isLeaf : TrieNode → Bool
  | .node _ l _ => l

/-- The component the node stands for. -/
def data : TrieNode → Text
  | .node _ _ d => d

/-- Store into one slot. -/
def setChild (n : TrieNode) (j : Fin maxFolders) (c : Option TrieNode) : TrieNode :=
  .node (Function.update n.childeren j c) n.isLeaf n.data

/-- Clear the leaf flag. -/
def markFolder (n : TrieNode) : TrieNode := .node n.childeren false n.data

/-- The test of every child loop: slot `j` is used and carries the name `w`. -/
def hasName (n : TrieNode) (w : Text) (j : Fin maxFolders) : Bool :=
  match n.childeren j with
  | some c => c.data == w
  | none => false

/-- The first slot that carries the name `w`. -/
def findSlot (n : TrieNode) (w : Text) : Option (Fin maxFolders) :=
  (List.finRange maxFolders).find? (n.hasName w)

/-- The first empty slot. -/
def freeSlot (n : TrieNode) : Option (Fin maxFolders) :=
  (List.finRange maxFolders).find? (fun j ↦ (n.childeren j).isNone)

/-- The child found under the name `w`. -/
def child (n : TrieNode) (w : Text) : Option TrieNode := n.findSlot w >>= n.childeren

end TrieNode

/-- `tries.c:5–12`. -/
def createNode (data : Text) : TrieNode := .node (fun _ ↦ none) true data

/-- The components that `ParsePath` keeps: the `/`-separated tokens other than `~`. -/
def components (path : Text) : List Text := (tokens slash path).filter (· ≠ lit "~")

/-- `tries.c:115–131`: the components with their terminating `NULL` must fit `path_arr`. -/
def parsePath (path : Text) : Option (List Text) :=
  if (components path).length < maxPath then some (components path) else none

/-- The loop at `tries.c:140–163`. -/
def addLoop : List Text → TrieNode → TrieNode
  | [], curr => curr
  | w :: ws, curr =>
    match curr.findSlot w with
    | some j => curr.setChild j ((curr.childeren j).map (addLoop ws))
    | none =>
      match curr.freeSlot with
      | some j => (curr.setChild j (some (addLoop ws (createNode w)))).markFolder
      -- The new node is linked nowhere, so the rest of the loop is lost with it.
      | none => curr

/-- `tries.c:136–164`. -/
def addPathToTrie (path : Text) (root : TrieNode) : Option TrieNode :=
  (parsePath path).map (addLoop · root)

/-- `tries.c:226–246`, and the same loop again at `naming_server.c:335–354`. -/
def searchPathHelper : List Text → TrieNode → Bool
  | [], _ => true
  | w :: ws, curr =>
    match curr.child w with
    | some c => searchPathHelper ws c
    | none => false

/-- `tries.c:249–254`. -/
def searchPath (root : TrieNode) (path : Text) : Option Int :=
  (parsePath path).map (fun ws ↦ if searchPathHelper ws root then 1 else -1)

/-- The loop at `tries.c:266–278`, entered only for paths that are there. -/
def deleteLoop : List Text → TrieNode → Option TrieNode
  -- `prev` is still `NULL` when there was nothing to descend into.
  | [], _ => none
  | [w], curr => some (match curr.findSlot w with
    | some j => curr.setChild j none
    | none => curr)
  | w :: ws, curr =>
    match curr.findSlot w with
    | some j => ((curr.childeren j).bind (deleteLoop ws)).map (fun c ↦ curr.setChild j (some c))
    | none => some curr

/-- `tries.c:257–279`. -/
def deletePath (path : Text) (root : TrieNode) : Option TrieNode :=
  (parsePath path).bind (fun ws ↦
    if searchPathHelper ws root then deleteLoop ws root else some root)

/-- `naming_server.c:356–363` over the roots of the registered servers; the inner
`none` is the answer `-1`. -/
def searchInTries (roots : List TrieNode) (buffer : Text) : Option (Option Nat) :=
  (parsePath buffer).map (fun ws ↦ roots.findIdx? (searchPathHelper ws))

end NetworkFileSystem.Trie
