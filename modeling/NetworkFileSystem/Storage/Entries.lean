import NetworkFileSystem.Base.Prog
import NetworkFileSystem.Storage.Commands
import NetworkFileSystem.Storage.FileSystem
import NetworkFileSystem.Storage.Path

/-!
# Commands on single entries

`helper.c:144–214,276–294`, `storage_server.c:21–38,376–482`. The branches of
`listen_to_nm` that create or remove one entry, as programs over the calls of the
operating system. A backup branch works below the folder for backups. Before a removal
the server enters the path into its table of locks; acquiring and releasing the lock
is left out.
-/

namespace NetworkFileSystem.Storage

open Base Protocol

/-- A call on a path; its outcome is whether it succeeded. -/
structure FsOp where
  call : Call
  path : Text
  deriving DecidableEq

/-- Programs of a storage server over the calls. -/
abbrev FsProg (α : Type) : Type := Prog FsOp (fun _ ↦ Bool) α

/-- The calls on a file system, for a process that works in the folder `cwd`. -/
def fileSystem (cwd : List Text) : Environment FsOp (fun _ ↦ Bool) FileSystem where
  respond := fun o ok fs fs' ↦
    if ok then o.call.Effect (resolveFrom cwd o.path) fs fs' else fs' = fs
  silent := fun _ _ ↦ False

/-- The common body of the four functions below: one call on `args[1]`, and a message about
its outcome in `buffer2`. -/
def changeOne (call : Call) (done failed : Text) (args : List Text) : FsProg Text :=
  match args[1]? with
  | none => pure (lit "Invalid command format\n")
  | some path => do
    if ← Prog.call (⟨call, path⟩ : FsOp) then
      pure (clip bufferSize (done ++ lit " @ " ++ path ++ lit "\n"))
    else pure (clip bufferSize (failed ++ lit " @ " ++ path ++ lit "\n"))

/-- `helper.c:145–163`. -/
def createDirectory (args : List Text) : FsProg Text :=
  changeOne .mkdir (lit "Created folder") (lit "Could not create folder") args

/-- `helper.c:166–185`. -/
def deleteDirectory (args : List Text) : FsProg Text :=
  changeOne .rmdir (lit "Deleted folder") (lit "Could not delete folder") args

/-- `helper.c:188–208`. -/
def createFile (args : List Text) : FsProg Text :=
  changeOne .create (lit "Created file") (lit "Could not create file") args

/-- `helper.c:276–293`. -/
def removeFile (args : List Text) : FsProg Text :=
  changeOne .remove (lit "Removed file") (lit "Could not remove file") args

/-- The function that a branch of `listen_to_nm` calls, for the branches about one entry. -/
def Verb.function : Verb → Option (List Text → FsProg Text)
  | .touch | .touchb => some createFile
  | .rmdir | .rmdirb => some deleteDirectory
  | .rm | .rmb => some removeFile
  | .mkdir | .mkdirb => some createDirectory
  | _ => none

/-- `"./backupfolderforss/%s/%s"`, `storage_server.c:380–382`: where a server keeps `path`. -/
def backupPath (rootPath path : Text) : Text :=
  clip maxPathSize (backupFolder ++ lit "/" ++ rootPath.drop 2 ++ lit "/" ++ path.drop 2)

/-- The path that a branch works on. -/
def Verb.target (v : Verb) (rootPath path : Text) : Text :=
  if v.isBackup then backupPath rootPath path else path

/-- `lock.h:10`. -/
def maxReq : Nat := 1024

/-- `storage_server.c:469–475`: the entry of `conc_array` for a path, made if there is none;
behind the last entry the code would write past the array. -/
def requestLock (locks : List Text) (path : Text) : Option (List Text) :=
  if path ∈ locks then some locks
  else if locks.length < maxReq then some (locks ++ [path])
  else none

/-- Only the `rm` branch takes a lock. -/
def Verb.takeLock (v : Verb) (locks : List Text) (path : Text) : Option (List Text) :=
  if v = .rm then requestLock locks path else some locks

/-- One round of `listen_to_nm` for a command about one entry: what is sent back, and the
paths with a lock. -/
def entryRound (rootPath : Text) (locks : List Text) (buffer : Text) :
    Option (FsProg (List Text × List Text)) := do
  let (verb, args) ← execute buffer
  let v ← verb
  let function ← v.function
  let path ← args[1]?
  let locks ← v.takeLock locks path
  pure (do
    let buffer2 ← function (args.set 1 (v.target rootPath path))
    pure (replies buffer buffer2 [], locks))

/-- A storage server: the folder it works in and the one it exports, its files, and the paths
with a lock. -/
structure SsState where
  cwd : List Text
  rootPath : Text
  disk : FileSystem
  locks : List Text

/-- The server takes a command about one entry and sends `out`. -/
def SsState.Handles (buffer : Text) (out : List Text) (s s' : SsState) : Prop :=
  ∃ round tr locks disk, entryRound s.rootPath s.locks buffer = some round ∧
    Prog.Exec round tr (some (out, locks)) ∧ (fileSystem s.cwd).Accepts s.disk tr disk ∧
    s' = { s with disk := disk, locks := locks }

/-- The call of a branch about one entry. -/
def Verb.call : Verb → Call
  | .touch | .touchb => .create
  | .rmdir | .rmdirb => .rmdir
  | .rm | .rmb => .remove
  | _ => .mkdir

private theorem exec_changeOne {call : Call} {done failed : Text} {args : List Text} {path : Text}
    {tr : List (Event FsOp (fun _ ↦ Bool))} {buffer2 : Text} (hpath : args[1]? = some path)
    (h : Prog.Exec (changeOne call done failed args) tr (some buffer2)) :
    ∃ ok : Bool, tr = [⟨⟨call, path⟩, ok⟩] ∧
      buffer2 = clip bufferSize ((if ok then done else failed) ++ lit " @ " ++ path ++ lit "\n") := by
  unfold changeOne at h
  rw [hpath] at h
  obtain ⟨ok, rest, rfl, h₁⟩ := Prog.exec_call_bind.mp h
  cases ok with
  | false =>
    obtain ⟨rfl, hout⟩ := h₁
    exact ⟨false, rfl, by simpa using hout⟩
  | true =>
    obtain ⟨rfl, hout⟩ := h₁
    exact ⟨true, rfl, by simpa using hout⟩

/-- What a function leaves in `buffer2`: the failure is told from the success by its start. -/
private theorem exec_function {v : Verb} {function : List Text → FsProg Text}
    (hf : v.function = some function) {args : List Text} (path : Text)
    (hpath : args[1]? = some path) {tr : List (Event FsOp (fun _ ↦ Bool))} {buffer2 : Text}
    (h : Prog.Exec (function args) tr (some buffer2)) :
    ∃ ok : Bool, tr = [⟨⟨v.call, path⟩, ok⟩] ∧ couldNot buffer2 = !ok ∧ buffer2 ≠ [] := by
  have htext : ∀ (call : Call) (done failed : Text),
      (∀ t, couldNot (clip bufferSize (done ++ lit " @ " ++ t)) = false ∧
        couldNot (clip bufferSize (failed ++ lit " @ " ++ t)) = true) →
      done ≠ [] → failed ≠ [] → Prog.Exec (changeOne call done failed args) tr (some buffer2) →
      ∃ ok : Bool, tr = [⟨⟨call, path⟩, ok⟩] ∧ couldNot buffer2 = !ok ∧ buffer2 ≠ [] := by
    intro call done failed hstart hdone hfailed hx
    obtain ⟨ok, rfl, rfl⟩ := exec_changeOne hpath hx
    refine ⟨ok, rfl, ?_, ?_⟩
    · rw [List.append_assoc _ path]
      cases ok with
      | false => exact (hstart _).2
      | true => exact (hstart _).1
    · cases ok with
      | false => simpa [clip, bufferSize] using fun h' ↦ absurd h' hfailed
      | true => simpa [clip, bufferSize] using fun h' ↦ absurd h' hdone
  cases v with
  | touch | touchb =>
    cases hf
    exact htext _ _ _ (fun _ ↦ ⟨rfl, rfl⟩) (by decide) (by decide) h
  | rmdir | rmdirb =>
    cases hf
    exact htext _ _ _ (fun _ ↦ ⟨rfl, rfl⟩) (by decide) (by decide) h
  | rm | rmb =>
    cases hf
    exact htext _ _ _ (fun _ ↦ ⟨rfl, rfl⟩) (by decide) (by decide) h
  | mkdir | mkdirb =>
    cases hf
    exact htext _ _ _ (fun _ ↦ ⟨rfl, rfl⟩) (by decide) (by decide) h
  | _ => cases hf

/-- A round about one entry makes one call, on the path in the second word of its command. -/
theorem exec_entryRound {rootPath buffer : Text} {locks : List Text}
    {round : FsProg (List Text × List Text)} (hround : entryRound rootPath locks buffer = some round)
    {tr : List (Event FsOp (fun _ ↦ Bool))} {x : List Text × List Text}
    (hx : Prog.Exec round tr (some x)) :
    ∃ v path ok, branch buffer = some v ∧ (words buffer)[1]? = some path ∧
      tr = [⟨⟨v.call, v.target rootPath path⟩, ok⟩] ∧
      ∃ buffer2, couldNot buffer2 = !ok ∧ buffer2 ≠ [] ∧ x.1 = replies buffer buffer2 [] := by
  unfold entryRound at hround
  simp only [Option.pure_def, Option.bind_eq_bind, Option.bind_eq_some_iff, Option.some.injEq,
    Prod.exists] at hround
  obtain ⟨verb, args, hexec, v, rfl, function, hf, path, hpath, locks', -, rfl⟩ := hround
  obtain ⟨hv, hargs⟩ := execute_eq_some hexec
  subst hargs
  obtain ⟨buffer2, t₁, t₂, rfl, h₁, rfl, hout⟩ := Prog.exec_bind_some hx
  obtain ⟨ok, rfl, hok, hne⟩ := exec_function hf (v.target rootPath path)
    (by rw [List.getElem?_set_self (List.getElem?_eq_some_iff.mp hpath).1]) h₁
  cases hout
  exact ⟨v, path, ok, hv, hpath, rfl, buffer2, hok, hne, rfl⟩

/-- A command about one entry makes one call, on the path in its second word, and its messages
tell whether the call succeeded. -/
theorem SsState.Handles.spec {buffer : Text} {out : List Text} {s s' : SsState}
    (h : s.Handles buffer out s') :
    ∃ v path ok, branch buffer = some v ∧ (words buffer)[1]? = some path ∧
      (fileSystem s.cwd).respond ⟨v.call, v.target s.rootPath path⟩ ok s.disk s'.disk ∧
      s'.cwd = s.cwd ∧ s'.rootPath = s.rootPath ∧
      ∃ buffer2, couldNot buffer2 = !ok ∧ buffer2 ≠ [] ∧ out = replies buffer buffer2 [] := by
  obtain ⟨round, tr, locks, disk, hround, hx, hacc, rfl⟩ := h
  obtain ⟨v, path, ok, hv, hpath, rfl, buffer2, hok, hne, hout⟩ := exec_entryRound hround hx
  exact ⟨v, path, ok, hv, hpath, hacc.single (fun _ _ ↦ id), rfl, rfl, buffer2, hok, hne, hout⟩

end NetworkFileSystem.Storage
