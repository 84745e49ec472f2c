import NetworkFileSystem.Storage.FileSystem
import NetworkFileSystem.Storage.Path
import Mathlib.Data.Set.Finite.Basic

/-!
# Calls on paths

`stat`, `mkdir`, `open` and `write` as the operating system carries them out on a tree of
folders and files. A path is followed component by component, and everything that it passes
is a folder. A call fails only where the tree leaves it no other way.
-/

namespace NetworkFileSystem.Storage

open Base

/-- The components of a path; slashes at the end ask for a folder. -/
def pathComponents (path : Text) : List Text :=
  tokens slash path ++ if path.getLast? = some slash then [lit "."] else []

/-- Where a path starts. -/
def pathStart (cwd : List Text) (path : Text) : List Text :=
  if path.head? = some slash then [] else cwd

namespace FileSystem

/-- The place that components lead to. -/
def follow (fs : FileSystem) : List Text → List Text → Option (List Text)
  | place, [] => some place
  | place, c :: cs =>
    if fs.entry place = some .folder then follow fs (resolveStep place c) cs else none

/-- The place that a path leads to; the last component need not be there. -/
def locate (fs : FileSystem) (cwd : List Text) (path : Text) : Option (List Text) :=
  if path = [] then none else fs.follow (pathStart cwd path) (pathComponents path)

/-- Store an entry in its folder, unless one of the other kind is in its place. -/
def store (fs : FileSystem) (place : List Text) (e : Entry) : Option FileSystem :=
  if h : place ≠ [] ∧ fs.entry place.dropLast = some .folder ∧
      ∀ old ∈ fs.entry place, (old = .folder ↔ e = .folder) then
    some (fs.put place.dropLast (place.getLast h.1) e h.2.1 (fun hold ↦
      (h.2.2 .folder (by rwa [List.dropLast_concat_getLast] at hold)).mp rfl))
  else none

/-- `stat`. -/
def stat (fs : FileSystem) (cwd : List Text) (path : Text) : Option Entry := do
  fs.entry (← fs.locate cwd path)

/-- `mkdir`, which does not mind slashes at the end. -/
def mkdir (fs : FileSystem) (cwd : List Text) (path : Text) : Option FileSystem :=
  if path = [] then none else do
    let place ← fs.follow (pathStart cwd path) (tokens slash path)
    if fs.entry place = none then fs.store place .folder else none

/-- `open(path, O_RDONLY)`. -/
def openRead (fs : FileSystem) (cwd : List Text) (path : Text) : Option (List Text) := do
  let place ← fs.locate cwd path
  if fs.entry place = none then none else some place

/-- `open(path, O_WRONLY | O_CREAT | O_TRUNC, …)`. -/
def openTruncated (fs : FileSystem) (cwd : List Text) (path : Text) :
    Option (FileSystem × List Text) := do
  let place ← fs.locate cwd path
  let fs' ← fs.store place (.file [])
  pure (fs', place)

/-- `write` to a file that was opened at `place`, at its end. -/
def write (fs : FileSystem) (place : List Text) (bytes : Text) : FileSystem :=
  match fs.entry place with
  | some (.file t) => (fs.store place (.file (t ++ bytes))).getD fs
  | _ => fs

/-- There are only so many entries. -/
def Finite (fs : FileSystem) : Prop := {x | fs.entry x ≠ none}.Finite

/-- Every entry has the name of one. -/
def WellNamed (fs : FileSystem) : Prop :=
  ∀ (dir : List Text) (name : Text), fs.entry (dir ++ [name]) ≠ none → FileName name

/-- Every entry of `fs` is still there in `fs'` and of the same kind. -/
structure Grown (fs fs' : FileSystem) : Prop where
  stays : ∀ x e, fs.entry x = some e → ∃ e', fs'.entry x = some e' ∧ (e = .folder ↔ e' = .folder)
  finite : fs.Finite → fs'.Finite

variable {fs fs' fs'' : FileSystem} {cwd place dir : List Text} {path name : Text} {e : Entry}

/-! ### Stored entries -/

theorem Grown.refl (fs : FileSystem) : Grown fs fs := ⟨fun _ e h ↦ ⟨e, h, .rfl⟩, id⟩

theorem Grown.trans (h : Grown fs fs') (h' : Grown fs' fs'') : Grown fs fs'' := by
  refine ⟨fun x e he ↦ ?_, h'.finite ∘ h.finite⟩
  obtain ⟨e', he', hkind⟩ := h.stays x e he
  obtain ⟨e'', he'', hkind'⟩ := h'.stays x e' he'
  exact ⟨e'', he'', hkind.trans hkind'⟩

theorem Grown.folder (h : Grown fs fs') {x : List Text} (hx : fs.entry x = some .folder) :
    fs'.entry x = some .folder := by
  obtain ⟨e, he, hkind⟩ := h.stays x _ hx
  rw [he, hkind.mp rfl]

theorem Grown.present (h : Grown fs fs') {x : List Text} (hx : fs.entry x ≠ none) :
    fs'.entry x ≠ none := by
  obtain ⟨e, he⟩ := Option.ne_none_iff_exists'.mp hx
  obtain ⟨e', he', -⟩ := h.stays x e he
  simp [he']

theorem finite_empty : empty.Finite := by
  refine (Set.finite_singleton []).subset ?_
  intro x hx
  by_contra hne
  exact hx (if_neg hne)

theorem put_self (hdir : fs.entry dir = some .folder)
    (hkind : fs.entry (dir ++ [name]) = some .folder → e = .folder) :
    (fs.put dir name e hdir hkind).entry (dir ++ [name]) = some e :=
  Function.update_self ..

theorem put_of_ne (hdir : fs.entry dir = some .folder)
    (hkind : fs.entry (dir ++ [name]) = some .folder → e = .folder) {x : List Text}
    (hx : x ≠ dir ++ [name]) : (fs.put dir name e hdir hkind).entry x = fs.entry x :=
  Function.update_of_ne hx ..

theorem finite_put (h : fs.Finite) (hdir : fs.entry dir = some .folder)
    (hkind : fs.entry (dir ++ [name]) = some .folder → e = .folder) :
    (fs.put dir name e hdir hkind).Finite := by
  refine (Set.Finite.insert (dir ++ [name]) h).subset ?_
  intro x hx
  by_cases hplace : x = dir ++ [name]
  · exact .inl hplace
  · refine .inr ?_
    rwa [Set.mem_ofPred_eq, put_of_ne hdir hkind hplace] at hx

theorem wellNamed_empty : empty.WellNamed := by
  intro d n h
  exact absurd (if_neg (by simp)) h

theorem wellNamed_put (h : fs.WellNamed) (hname : FileName name)
    (hdir : fs.entry dir = some .folder)
    (hkind : fs.entry (dir ++ [name]) = some .folder → e = .folder) :
    (fs.put dir name e hdir hkind).WellNamed := by
  intro d n hn
  by_cases hplace : d ++ [n] = dir ++ [name]
  · obtain ⟨-, rfl⟩ := List.append_singleton_inj.mp hplace
    exact hname
  · rw [put_of_ne hdir hkind hplace] at hn
    exact h d n hn

/-- The names on the way to an entry are such. -/
theorem WellNamed.names (h : fs.WellNamed) {p q : List Text} (hq : fs.entry (p ++ q) ≠ none) :
    ∀ w ∈ q, FileName w := by
  induction q using List.reverseRecOn with
  | nil => simp
  | append_singleton q n ih =>
    rw [← List.append_assoc] at hq
    intro w hw
    obtain hw | hw := List.mem_append.mp hw
    · exact ih (by simp [fs.parent _ _ hq]) w hw
    · rw [List.mem_singleton.mp hw]
      exact h _ _ hq

/-- What something lies below is a folder. -/
theorem folder_of_append {p q : List Text} (h : fs.entry (p ++ q) ≠ none) (hq : q ≠ []) :
    fs.entry p = some .folder := by
  obtain ⟨n, q, rfl⟩ := List.exists_cons_of_ne_nil hq
  rw [← List.singleton_append, ← List.append_assoc] at h
  exact fs.parent p n (entry_of_append h)

/-- What is there from the beginning is a folder if it is one in the end. -/
theorem Grown.folder_of_folder (h : Grown fs fs') {x : List Text} (hx : fs.entry x ≠ none)
    (hx' : fs'.entry x = some .folder) : fs.entry x = some .folder := by
  obtain ⟨e, he⟩ := Option.ne_none_iff_exists'.mp hx
  obtain ⟨e', he', hkind⟩ := h.stays x e he
  rw [hx', Option.some.injEq] at he'
  rw [he, hkind.mpr he'.symm]

/-- A stored entry is put into its folder and replaces nothing of the other kind. -/
theorem store_eq_some (h : fs.store place e = some fs') :
    ∃ dir name hdir hkind, place = dir ++ [name] ∧ fs' = fs.put dir name e hdir hkind ∧
      ∀ old, fs.entry place = some old → (old = .folder ↔ e = .folder) := by
  unfold store at h
  split at h
  · next hplace =>
    exact ⟨_, _, _, _, (List.dropLast_concat_getLast hplace.1).symm, (Option.some.inj h).symm,
      hplace.2.2⟩
  · cases h

theorem store_entry (h : fs.store place e = some fs') :
    fs'.entry = Function.update fs.entry place (some e) := by
  obtain ⟨dir, name, hdir, hkind, rfl, rfl, -⟩ := store_eq_some h
  rfl

theorem store_grown (h : fs.store place e = some fs') : Grown fs fs' := by
  obtain ⟨dir, name, hdir, hkind, rfl, rfl, hfits⟩ := store_eq_some h
  refine ⟨fun x old hold ↦ ?_, fun hfin ↦ finite_put hfin hdir hkind⟩
  by_cases hx : x = dir ++ [name]
  · subst hx
    exact ⟨e, put_self hdir hkind, hfits old hold⟩
  · exact ⟨old, by rw [put_of_ne hdir hkind hx, hold], .rfl⟩

theorem exists_store (hne : place ≠ []) (hdir : fs.entry place.dropLast = some .folder)
    (hkind : ∀ old, fs.entry place = some old → (old = .folder ↔ e = .folder)) :
    ∃ fs', fs.store place e = some fs' := by
  unfold store
  rw [dif_pos ⟨hne, hdir, hkind⟩]
  exact ⟨_, rfl⟩

theorem write_entry {t : Text} (h : fs.entry place = some (.file t)) (bytes : Text) :
    (fs.write place bytes).entry =
      Function.update fs.entry place (some (.file (t ++ bytes))) := by
  have hne : place ≠ [] := by
    rintro rfl
    rw [fs.top] at h
    cases h
  have hdir : fs.entry place.dropLast = some .folder := by
    apply fs.parent _ (place.getLast hne)
    rw [List.dropLast_concat_getLast, h]
    simp
  have hkind : ∀ old, fs.entry place = some old →
      (old = .folder ↔ Entry.file (t ++ bytes) = .folder) := by
    intro old hold
    rw [h, Option.some.injEq] at hold
    simp [← hold]
  obtain ⟨fs', hstore⟩ := exists_store hne hdir hkind
  rw [write, h]
  dsimp only
  rw [hstore]
  exact store_entry hstore

theorem write_grown (fs : FileSystem) (place : List Text) (bytes : Text) :
    Grown fs (fs.write place bytes) := by
  unfold write
  split
  · cases hstore : fs.store place _ with
    | none => exact Grown.refl fs
    | some fs' => exact store_grown hstore
  · exact Grown.refl fs

/-! ### Followed paths -/

theorem follow_append (fs : FileSystem) (place cs ds : List Text) :
    fs.follow place (cs ++ ds) = (fs.follow place cs).bind (fs.follow · ds) := by
  induction cs generalizing place with
  | nil => rfl
  | cons c cs ih =>
    rw [List.cons_append, follow, follow]
    split
    · exact ih _
    · rfl

theorem follow_eq {cs p : List Text} (h : fs.follow place cs = some p) :
    p = cs.foldl resolveStep place := by
  induction cs generalizing place with
  | nil => exact (Option.some.inj h).symm
  | cons c cs ih =>
    rw [follow] at h
    split at h
    · exact ih h
    · cases h

theorem Grown.follow (hg : Grown fs fs') {cs p : List Text} (h : fs.follow place cs = some p) :
    fs'.follow place cs = some p := by
  induction cs generalizing place with
  | nil => exact h
  | cons c cs ih =>
    rw [FileSystem.follow] at h ⊢
    split at h
    · next hplace =>
      rw [if_pos (hg.folder hplace)]
      exact ih h
    · cases h

theorem Grown.locate (hg : Grown fs fs') {p : List Text} (h : fs.locate cwd path = some p) :
    fs'.locate cwd path = some p := by
  unfold FileSystem.locate at h ⊢
  split at h
  · cases h
  · next hne =>
    rw [if_neg hne]
    exact hg.follow h

/-- The names of entries lead down from their folder. -/
theorem follow_names {ws : List Text} (h : ∀ w ∈ ws, FileName w)
    (hdir : ws ≠ [] → fs.entry (place ++ ws.dropLast) = some .folder) :
    fs.follow place ws = some (place ++ ws) := by
  induction ws using List.reverseRecOn with
  | nil => simp [follow]
  | append_singleton ws w ih =>
    have hplace := hdir (by simp)
    rw [List.dropLast_concat] at hplace
    have hfirst : fs.follow place ws = some (place ++ ws) := by
      apply ih (fun v hv ↦ h v (by simp [hv]))
      intro hne
      obtain ⟨us, u, rfl⟩ := (List.eq_nil_or_concat' ws).resolve_left hne
      rw [List.dropLast_concat]
      apply fs.parent _ u
      rw [List.append_assoc, hplace]
      simp
    have hw := h w (by simp)
    rw [follow_append, hfirst, Option.bind_some, follow, if_pos hplace, follow]
    simp [resolveStep, hw.ne_dot, hw.ne_dots]

/-- A path without slashes at the end has the components that `strtok` finds. -/
theorem locate_of_getLast (hne : path ≠ []) (hlast : path.getLast? ≠ some slash) :
    fs.locate cwd path = fs.follow (pathStart cwd path) (tokens slash path) := by
  rw [locate, if_neg hne, pathComponents, if_neg hlast, List.append_nil]

theorem getLast_below {ws : List Text} (h : ∀ w ∈ ws, FileName w) (hne : ws ≠ []) (path : Text) :
    (below path ws).getLast? ≠ some slash := by
  obtain ⟨us, w, rfl⟩ := (List.eq_nil_or_concat' ws).resolve_left hne
  have hw := h w (by simp)
  rw [← below_slash, List.getLast?_append_of_ne_nil _ hw.ne_nil]
  intro hlast
  exact hw.noSlash (List.mem_of_getLast? hlast)

/-- From a folder that a path leads to, names lead down. -/
theorem follow_below (hplace : fs.locate cwd path = some place)
    {ws : List Text} (h : ∀ w ∈ ws, FileName w)
    (hdir : ws ≠ [] → fs.entry (place ++ ws.dropLast) = some .folder) :
    fs.follow (pathStart cwd (below path ws)) (tokens slash (below path ws)) =
      some (place ++ ws) := by
  unfold locate at hplace
  split at hplace
  · cases hplace
  · next hne =>
    rw [pathComponents, follow_append] at hplace
    obtain ⟨p, hp, hslash⟩ := Option.bind_eq_some_iff.mp hplace
    have hsame : p = place := by
      split at hslash
      · have hdot := follow_eq hslash
        simpa [resolveStep] using hdot.symm
      · exact Option.some.inj hslash
    subst hsame
    rw [tokens_below path h, pathStart, head_below hne, follow_append]
    rw [pathStart] at hp
    rw [hp, Option.bind_some, follow_names h hdir]

theorem locate_below (hplace : fs.locate cwd path = some place)
    {ws : List Text} (h : ∀ w ∈ ws, FileName w)
    (hdir : ws ≠ [] → fs.entry (place ++ ws.dropLast) = some .folder) :
    fs.locate cwd (below path ws) = some (place ++ ws) := by
  by_cases hws : ws = []
  · subst hws
    rwa [below_nil, List.append_nil]
  · have hne : below path ws ≠ [] := by
      obtain ⟨w, ws, rfl⟩ := List.exists_cons_of_ne_nil hws
      simp [below]
    rw [locate_of_getLast hne (getLast_below h hws path), follow_below hplace h hdir]

/-- A call finds what the path leads to. -/
theorem locate_eq (h : fs.locate cwd path = some place) : place = resolveFrom cwd path := by
  unfold locate at h
  split at h
  · cases h
  · rw [follow_eq h, pathComponents, List.foldl_append, resolveFrom, pathStart]
    split_ifs <;> simp [resolveStep]

/-! ### Effects -/

theorem mkdir_effect (h : fs.mkdir cwd path = some fs') :
    Call.mkdir.Effect (resolveFrom cwd path) fs fs' := by
  unfold mkdir at h
  split at h
  · cases h
  · obtain ⟨place, hplace, hstore⟩ := Option.bind_eq_some_iff.mp h
    have hwhere : place = resolveFrom cwd path := follow_eq hplace
    subst hwhere
    split at hstore
    · next hnone => exact ⟨hnone, store_entry hstore⟩
    · cases hstore

theorem mkdir_grown (h : fs.mkdir cwd path = some fs') : Grown fs fs' := by
  unfold mkdir at h
  split at h
  · cases h
  · obtain ⟨place, -, hstore⟩ := Option.bind_eq_some_iff.mp h
    split at hstore
    · exact store_grown hstore
    · cases hstore

theorem openTruncated_effect (h : fs.openTruncated cwd path = some (fs', place)) :
    place = resolveFrom cwd path ∧ Call.create.Effect (resolveFrom cwd path) fs fs' := by
  obtain ⟨p, hplace, h⟩ := Option.bind_eq_some_iff.mp h
  obtain ⟨fs₁, hstore, h⟩ := Option.bind_eq_some_iff.mp h
  obtain ⟨rfl, rfl⟩ := Prod.mk.inj (Option.some.inj h)
  obtain rfl := locate_eq hplace
  refine ⟨rfl, fun hold ↦ ?_, store_entry hstore⟩
  have hstays := (store_grown hstore).folder hold
  rw [store_entry hstore, Function.update_self] at hstays
  cases hstays

theorem openTruncated_grown (h : fs.openTruncated cwd path = some (fs', place)) : Grown fs fs' := by
  obtain ⟨p, -, h⟩ := Option.bind_eq_some_iff.mp h
  obtain ⟨fs₁, hstore, h⟩ := Option.bind_eq_some_iff.mp h
  obtain ⟨rfl, -⟩ := Prod.mk.inj (Option.some.inj h)
  exact store_grown hstore

end FileSystem

end NetworkFileSystem.Storage
