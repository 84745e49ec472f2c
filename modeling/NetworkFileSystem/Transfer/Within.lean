import NetworkFileSystem.Storage.Calls
import NetworkFileSystem.Transfer.Exact

/-!
# Copies within one storage server

`helper.c:490–589`. A file is truncated at the destination before the source is read, and a
folder is made before the source is listed; nothing keeps the one out of the other. The order
in which `readdir` lists a folder is left open. The recursion and the loop over the blocks of
a file run on fuel; `none` stands for a run that needs more of it, or that leaves the arrays
or follows a null pointer.
-/

namespace NetworkFileSystem.Transfer

open Base Protocol Storage

/-! ### The programs -/

/-- What `d_type` and `st_mode` tell of an entry. -/
def entryKind : Entry → Kind
  | .folder => .folder
  | .file _ => .file

/-- The entries of a folder in the order in which `readdir` returns them. -/
abbrev Readdir : Type := FileSystem → List Text → List (Text × Kind)

/-- Besides `.` and `..`, a folder is listed with what it holds when it is opened. -/
def Readdir.Lists (readdir : Readdir) : Prop :=
  ∀ (fs : FileSystem) (place : List Text), fs.Finite → fs.entry place = some .folder →
    ∀ (name : Text) (kind : Kind), isDots name = false →
      ((name, kind) ∈ readdir fs place ↔ (fs.entry (place ++ [name])).map entryKind = some kind)

open Classical in
/-- Folders listed in some order. -/
noncomputable def Readdir.arbitrary : Readdir := fun fs place ↦
  if h : (fs.names place).Finite then
    h.toFinset.toList.filterMap fun n ↦ (fs.entry (place ++ [n])).map fun e ↦ (n, entryKind e)
  else []

theorem Readdir.arbitrary_lists : Readdir.arbitrary.Lists := by
  intro fs place hfinite _ name kind _
  have hnames : (fs.names place).Finite := by
    have hpre := hfinite.preimage (f := fun n ↦ place ++ [n]) (fun _ _ _ _ h ↦ by simpa using h)
    exact hpre
  simp only [Readdir.arbitrary, dif_pos hnames, List.mem_filterMap, Finset.mem_toList,
    Set.Finite.mem_toFinset, Option.map_eq_some_iff, Prod.mk.injEq]
  constructor
  · rintro ⟨n, -, e, he, rfl, hkind⟩
    exact ⟨e, he, hkind⟩
  · rintro ⟨e, he, hkind⟩
    exact ⟨name, by simp [FileSystem.names, he], e, he, rfl, hkind⟩

/-- `opendir` with all results of `readdir`. -/
def opendir (readdir : Readdir) (cwd : List Text) (path : Text) (fs : FileSystem) :
    Option (List (Text × Kind)) := do
  let place ← fs.locate cwd path
  if fs.entry place = some .folder then some (readdir fs place) else none

/-- `char buffer[4096]`, `helper.c:504`. -/
def blockSize : Nat := 4096

/-- The loop at `helper.c:506–512`, with `offset` bytes behind it; a folder cannot be read. -/
def copyBlocks (src dest : List Text) : Nat → Nat → FileSystem → Option FileSystem
  | 0, _, _ => none
  | fuel + 1, offset, fs =>
    match fs.entry src with
    | some (.file t) =>
      let block := (t.drop offset).take blockSize
      if block = [] then some fs
      else copyBlocks src dest fuel (offset + block.length) (fs.write dest block)
    | _ => some fs

/-- `helper.c:490–520`. -/
def copyFile (cwd : List Text) (fuel : Nat) (src dest : Text) (fs : FileSystem) :
    Option FileSystem :=
  match fs.openRead cwd src with
  | none => some fs
  | some srcFd =>
    match fs.openTruncated cwd dest with
    | none => some fs
    | some (fs', destFd) => copyBlocks srcFd destFd fuel 0 fs'

/-- The body of the loop at `helper.c:538–552`; `copyDirectory` and `copyFile` are the calls
in it. -/
def copyEntry (copyDirectory copyFile : Text → Text → FileSystem → Option FileSystem)
    (src dest : Text) (fs : FileSystem) (entry : Text × Kind) : Option FileSystem :=
  if isDots entry.1 then some fs
  else
    let srcPath := clip maxPathSize (src ++ lit "/" ++ entry.1)
    let destPath := clip maxPathSize (dest ++ lit "/" ++ entry.1)
    match entry.2 with
    | .folder => copyDirectory srcPath destPath fs
    | .file => copyFile srcPath destPath fs
    | .other => some fs

/-- `helper.c:522–555`. -/
def copyDirectory (readdir : Readdir) (cwd : List Text) :
    Nat → Text → Text → FileSystem → Option FileSystem
  | 0, _, _, _ => none
  | fuel + 1, src, dest, fs =>
    match if fs.stat cwd dest = none then fs.mkdir cwd dest else some fs with
    | none => some fs
    | some fs' =>
      match opendir readdir cwd src fs' with
      | none => some fs'
      | some entries =>
        entries.foldlM
          (copyEntry (copyDirectory readdir cwd fuel) (copyFile cwd fuel) src dest) fs'

/-- `sscanf(buffer, "copysame %s %s", src, dest)`. -/
def scanCopySame (buffer : Text) : Option (Text × Text) :=
  if startsWith (lit "copysame") buffer then
    match fields (buffer.drop 8) with
    | src :: dest :: _ => some (src, dest)
    | _ => none
  else none

/-- The copy of an entry to its final destination, `helper.c:574–582`. -/
def copyTree (readdir : Readdir) (cwd : List Text) (fuel : Nat) (e : Entry) (src dest : Text)
    (fs : FileSystem) : Option FileSystem :=
  match e with
  | .folder => copyDirectory readdir cwd fuel src dest fs
  | .file _ => copyFile cwd fuel src dest fs

/-- `helper.c:557–589`: the file system afterwards and the reply. -/
def copySame (readdir : Readdir) (cwd : List Text) (fuel : Nat) (buffer : Text)
    (fs : FileSystem) : Option (FileSystem × Text) :=
  match scanCopySame buffer with
  | none => some (fs, lit "Invalid input format. Expected: copysame <srcpath> <destpath>\n")
  | some (src, dest) =>
    -- `char src[MAX_PATH_SIZE], dest[MAX_PATH_SIZE]` would be overrun.
    if maxPathSize ≤ src.length ∨ maxPathSize ≤ dest.length then none
    else
      match fs.stat cwd src with
      | none => some (fs, lit "Source path does not exist\n")
      | some e =>
        -- `strrchr(src, '/') + 1`
        if slash ∉ src then none
        else
          let finalDest := clip maxPathSize (dest ++ lit "/" ++ afterLast slash src)
          (copyTree readdir cwd fuel e src finalDest fs).map
            (fun fs' ↦ (fs', lit "Finished Copying\n"))

/-! ### Nothing is removed -/

section Growth

variable {readdir : Readdir} {cwd : List Text} {fuel : Nat} {src dest : Text}
  {fs fs' : FileSystem}

theorem copyBlocks_grown {source target : List Text} {offset : Nat}
    (h : copyBlocks source target fuel offset fs = some fs') : fs.Grown fs' := by
  induction fuel generalizing offset fs with
  | zero => cases h
  | succ fuel ih =>
    unfold copyBlocks at h
    split at h
    · dsimp only at h
      split at h
      · obtain rfl := Option.some.inj h
        exact .refl _
      · exact (FileSystem.write_grown _ _ _).trans (ih h)
    · obtain rfl := Option.some.inj h
      exact .refl _

theorem copyFile_grown (h : copyFile cwd fuel src dest fs = some fs') : fs.Grown fs' := by
  unfold copyFile at h
  split at h
  · obtain rfl := Option.some.inj h
    exact .refl _
  · split at h
    · obtain rfl := Option.some.inj h
      exact .refl _
    · next hopen => exact (FileSystem.openTruncated_grown hopen).trans (copyBlocks_grown h)

/-- A loop whose rounds remove nothing removes nothing. -/
theorem foldlM_grown {α : Type} {body : FileSystem → α → Option FileSystem} {l : List α}
    (hbody : ∀ fs a fs', body fs a = some fs' → fs.Grown fs')
    (h : l.foldlM body fs = some fs') : fs.Grown fs' := by
  induction l generalizing fs with
  | nil =>
    obtain rfl := Option.some.inj h
    exact .refl _
  | cons a l ih =>
    obtain ⟨fs₁, hfirst, hrest⟩ := Option.bind_eq_some_iff.mp h
    exact (hbody _ _ _ hfirst).trans (ih hrest)

theorem copyEntry_grown {directory file : Text → Text → FileSystem → Option FileSystem}
    (hdirectory : ∀ src dest fs fs', directory src dest fs = some fs' → fs.Grown fs')
    (hfile : ∀ src dest fs fs', file src dest fs = some fs' → fs.Grown fs')
    {entry : Text × Kind} (h : copyEntry directory file src dest fs entry = some fs') :
    fs.Grown fs' := by
  unfold copyEntry at h
  split at h
  · obtain rfl := Option.some.inj h
    exact .refl _
  · dsimp only at h
    split at h
    · exact hdirectory _ _ _ _ h
    · exact hfile _ _ _ _ h
    · obtain rfl := Option.some.inj h
      exact .refl _

/-- The folder at the destination is there already or is made. -/
theorem ensured_grown (h : (if fs.stat cwd dest = none then fs.mkdir cwd dest else some fs) =
    some fs') : fs.Grown fs' := by
  split at h
  · exact FileSystem.mkdir_grown h
  · obtain rfl := Option.some.inj h
    exact .refl _

theorem copyDirectory_grown (h : copyDirectory readdir cwd fuel src dest fs = some fs') :
    fs.Grown fs' := by
  induction fuel generalizing src dest fs fs' with
  | zero => cases h
  | succ fuel ih =>
    unfold copyDirectory at h
    split at h
    · obtain rfl := Option.some.inj h
      exact .refl _
    · next hensured =>
      have hmade := ensured_grown hensured
      split at h
      · obtain rfl := Option.some.inj h
        exact hmade
      · apply hmade.trans
        exact foldlM_grown (fun _ _ _ h ↦ copyEntry_grown (fun _ _ _ _ h ↦ ih h)
          (fun _ _ _ _ h ↦ copyFile_grown h) h) h

theorem copyTree_grown {e : Entry} (h : copyTree readdir cwd fuel e src dest fs = some fs') :
    fs.Grown fs' := by
  cases e with
  | folder => exact copyDirectory_grown h
  | file t => exact copyFile_grown h

theorem copySame_grown {buffer reply : Text}
    (h : copySame readdir cwd fuel buffer fs = some (fs', reply)) : fs.Grown fs' := by
  have hsame : ∀ t, some (fs, t) = some (fs', reply) → fs.Grown fs' := by
    intro t ht
    obtain ⟨rfl, -⟩ := Prod.mk.inj (Option.some.inj ht)
    exact .refl _
  unfold copySame at h
  split at h
  · exact hsame _ h
  · split at h
    · cases h
    · split at h
      · exact hsame _ h
      · split at h
        · cases h
        · obtain ⟨fs₁, hcopy, hreply⟩ := Option.map_eq_some_iff.mp h
          obtain ⟨rfl, -⟩ := Prod.mk.inj hreply
          exact copyTree_grown hcopy

end Growth

end NetworkFileSystem.Transfer
