import NetworkFileSystem.Base.Text
import Mathlib.Data.Set.Card
import Mathlib.Logic.Function.Basic

/-!
# File systems

What the storage servers rely on of the operating system: a tree of folders and files,
addressed by the names on the way from the top. Every entry lies in a folder, so a call
that would leave an entry without its folder has no result. Links and permissions are
left out; a call may fail for any reason.
-/

namespace NetworkFileSystem.Storage

open Base

/-- What a name may stand for. -/
inductive Entry where
  | folder
  | file (content : Text)
  deriving DecidableEq

/-- The entries by their names from the top. -/
structure FileSystem where
  entry : List Text → Option Entry
  top : entry [] = some .folder
  parent : ∀ (dir : List Text) (name : Text),
    entry (dir ++ [name]) ≠ none → entry dir = some .folder

namespace FileSystem

/-- The file system without entries. -/
def empty : FileSystem where
  entry := fun p ↦ if p = [] then some .folder else none
  top := rfl
  parent := by simp

/-- Store an entry in the folder `dir`; a folder is not replaced by a file. -/
def put (fs : FileSystem) (dir : List Text) (name : Text) (e : Entry)
    (hdir : fs.entry dir = some .folder)
    (hkind : fs.entry (dir ++ [name]) = some .folder → e = .folder) : FileSystem where
  entry := Function.update fs.entry (dir ++ [name]) (some e)
  top := by simp [Function.update, fs.top]
  parent := by
    intro d n h
    by_cases hd : d = dir ++ [name]
    · subst hd
      have hentry : fs.entry (dir ++ [name] ++ [n]) ≠ none := by simpa [Function.update] using h
      simp [hkind (fs.parent _ _ hentry)]
    · rw [Function.update_of_ne hd]
      by_cases hn : d ++ [n] = dir ++ [name]
      · rwa [(List.append_inj' hn rfl).1]
      · rw [Function.update_of_ne hn] at h
        exact fs.parent d n h

/-- Drop an entry that holds nothing. -/
def erase (fs : FileSystem) (p : List Text) (hne : p ≠ [])
    (hempty : ∀ name, fs.entry (p ++ [name]) = none) : FileSystem where
  entry := Function.update fs.entry p none
  top := by rw [Function.update_of_ne (Ne.symm hne), fs.top]
  parent := by
    intro d n h
    by_cases hn : d ++ [n] = p
    · simp [hn] at h
    · rw [Function.update_of_ne hn] at h
      have hd : d ≠ p := by
        rintro rfl
        exact h (hempty n)
      rw [Function.update_of_ne hd]
      exact fs.parent d n h

/-- The names in the folder `dir`. -/
def names (fs : FileSystem) (dir : List Text) : Set Text := {name | fs.entry (dir ++ [name]) ≠ none}

/-- What lies on the way to an entry is there. -/
theorem entry_of_append {fs : FileSystem} {p q : List Text} (h : fs.entry (p ++ q) ≠ none) :
    fs.entry p ≠ none := by
  induction q using List.reverseRecOn with
  | nil => simpa using h
  | append_singleton q name ih =>
    rw [← List.append_assoc] at h
    exact ih (by simp [fs.parent _ _ h])

end FileSystem

/-! ### Calls -/

/-- The calls that change one entry: `mkdir`, `fopen(…, "w")`, `remove` and `rmdir`. -/
inductive Call where
  | mkdir
  | create
  | remove
  | rmdir
  deriving DecidableEq

/-- The effect of a successful call on `p`. That the entry lies in a folder, and that a removed
folder was empty, is part of the result being a file system. -/
def Call.Effect (p : List Text) (fs fs' : FileSystem) : Call → Prop
  | .mkdir => fs.entry p = none ∧ fs'.entry = Function.update fs.entry p (some .folder)
  | .create => fs.entry p ≠ some .folder ∧
      fs'.entry = Function.update fs.entry p (some (.file []))
  | .remove => fs.entry p ≠ none ∧ fs'.entry = Function.update fs.entry p none
  | .rmdir => fs.entry p = some .folder ∧ fs'.entry = Function.update fs.entry p none

/-- Whether a call leaves an entry behind. -/
def Call.makes : Call → Bool
  | .mkdir | .create => true
  | .remove | .rmdir => false

/-- What a call leaves at its path. -/
def Call.leaves : Call → Option Entry
  | .mkdir => some .folder
  | .create => some (.file [])
  | .remove | .rmdir => none

variable {fs fs' : FileSystem} {p q : List Text} {c : Call}

theorem Call.Effect.entry (h : c.Effect p fs fs') :
    fs'.entry = Function.update fs.entry p c.leaves := by
  cases c with
  | mkdir | create | remove | rmdir => exact h.2

/-- What succeeds at one place succeeds at another one with the same entry, if that lies in a
folder, or has nothing below it. -/
theorem Call.Effect.elsewhere {gs : FileSystem} {dir : List Text} {name : Text}
    (h : c.Effect p fs fs') (hsame : gs.entry (dir ++ [name]) = fs.entry p)
    (hdir : c.makes = true → gs.entry dir = some .folder)
    (hempty : c.makes = false → ∀ w, gs.entry (dir ++ [name] ++ [w]) = none) :
    ∃ gs', c.Effect (dir ++ [name]) gs gs' := by
  cases c with
  | mkdir =>
    exact ⟨gs.put dir name .folder (hdir rfl) (fun _ ↦ rfl), hsame.trans h.1, rfl⟩
  | create =>
    have hkind : gs.entry (dir ++ [name]) ≠ some .folder := by
      rw [hsame]
      exact h.1
    exact ⟨gs.put dir name (.file []) (hdir rfl) (fun hf ↦ absurd hf hkind), hkind, rfl⟩
  | remove =>
    exact ⟨gs.erase (dir ++ [name]) (by simp) (hempty rfl), by rw [hsame]; exact h.1, rfl⟩
  | rmdir =>
    exact ⟨gs.erase (dir ++ [name]) (by simp) (hempty rfl), hsame.trans h.1, rfl⟩

/-- A call changes no other entry. -/
theorem Call.Effect.other (h : c.Effect p fs fs') (hq : q ≠ p) : fs'.entry q = fs.entry q := by
  cases c with
  | mkdir | create | remove | rmdir => rw [h.2, Function.update_of_ne hq]

theorem Call.Effect.made (h : c.Effect p fs fs') (hc : c.makes = true) : fs'.entry p ≠ none := by
  cases c with
  | mkdir | create => simp [h.2]
  | remove | rmdir => cases hc

theorem Call.Effect.removed (h : c.Effect p fs fs') (hc : c.makes = false) :
    fs'.entry p = none ∧ ∀ q, q ≠ [] → fs.entry (p ++ q) = none := by
  have hp : fs'.entry p = none := by
    cases c with
    | mkdir | create => cases hc
    | remove | rmdir => simp [h.2]
  refine ⟨hp, fun q hq ↦ ?_⟩
  rw [← h.other (by simpa using hq)]
  by_contra hentry
  exact FileSystem.entry_of_append hentry hp

end NetworkFileSystem.Storage
