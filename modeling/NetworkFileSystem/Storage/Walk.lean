import NetworkFileSystem.Storage.FileSystem
import NetworkFileSystem.Storage.Path

/-!
# Walks through a folder

`helper.c:432–487`. `readdir` delivers the entries of a folder in some order; a
`Listing` is that order, with the listing of each folder in it. The index of a folder
is the walk through its listing: every folder sends its own path and then those of its
entries, hidden ones left out.
-/

namespace NetworkFileSystem.Storage

open Base Protocol

/-- What `readdir` delivers of a folder, other than `.` and `..`. -/
inductive Listing where
  | done
  | file (name content : Text) (rest : Listing)
  | folder (name : Text) (sub rest : Listing)
  deriving DecidableEq

/-- The entry that the names `p` lead to. -/
def Listing.Has : Listing → List Text → Entry → Prop
  | .done, _, _ => False
  | .file name content rest, p, e => (p = [name] ∧ e = .file content) ∨ rest.Has p e
  | .folder name sub rest, p, e =>
    (p = [name] ∧ e = .folder) ∨ (∃ q, p = name :: q ∧ sub.Has q e) ∨ rest.Has p e

/-- The folder `dir` holds what the listing shows. -/
def FileSystem.Holds (fs : FileSystem) (dir : List Text) (l : Listing) : Prop :=
  fs.entry dir = some .folder ∧
    ∀ p e, p ≠ [] → (fs.entry (dir ++ p) = some e ↔ l.Has p e)

theorem Listing.Has.ne_nil {l : Listing} {p : List Text} {e : Entry} (h : l.Has p e) : p ≠ [] := by
  induction l with
  | done => exact h.elim
  | file name content rest ih =>
    obtain ⟨rfl, -⟩ | h := h
    · simp
    · exact ih h
  | folder name sub rest _ ih =>
    obtain ⟨rfl, -⟩ | ⟨q, rfl, -⟩ | h := h
    · simp
    · simp
    · exact ih h

theorem FileSystem.Holds.entry_ne_none {fs : FileSystem} {dir : List Text} {l : Listing}
    (h : fs.Holds dir l) (p : List Text) :
    fs.entry (dir ++ p) ≠ none ↔ p = [] ∨ ∃ e, l.Has p e := by
  by_cases hp : p = []
  · simp [hp, h.1]
  · simp [hp, Option.ne_none_iff_exists', h.2 p _ hp]

/-! ### Indexes -/

/-- The test at `helper.c:450`. -/
def isHidden (name : Text) : Bool := startsWith (lit ".") name

/-- The loop at `helper.c:447–470`: the paths of the lines that the entries of the folder
`base` send. The path of a folder is taken from the sent line. -/
def entryPaths : Text → Listing → List Text
  | _, .done => []
  | base, .file name _ rest =>
    (if isHidden name then [] else [base ++ lit "/" ++ name]) ++ entryPaths base rest
  | base, .folder name sub rest =>
    let path := base ++ lit "/" ++ name
    let sent := (indexLine path).dropLast
    (if isHidden name then [] else path :: sent :: entryPaths sent sub) ++ entryPaths base rest

/-- `helper.c:432–475`: the paths of the lines that `_indexSubFolders` sends. -/
def indexPaths (base : Text) (l : Listing) : List Text := base :: entryPaths base l

theorem dropLast_indexLine {path : Text} (h : path.length + 1 < maxPathSize) :
    (indexLine path).dropLast = path := by
  have hfit : indexLine path = path ++ lit "\n" := by
    unfold indexLine clip
    rw [List.take_of_length_le]
    simp [lit]
    omega
  rw [hfit]
  exact List.dropLast_concat

end NetworkFileSystem.Storage
