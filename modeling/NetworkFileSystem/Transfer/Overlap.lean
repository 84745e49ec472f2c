import NetworkFileSystem.Transfer.Within
import Mathlib.Data.Set.Finite.Lattice

/-!
# Copies into, onto and out of the source

What `copy_same` leaves on the disk when source and destination may overlap. A copy is followed
by the set of entries that it has reached: these are at the destination, and everything else
is as it was.
-/

namespace NetworkFileSystem.Transfer

open Base Protocol Storage

/-! ### One file -/

section Files

variable {cwd place : List Text} {fuel : Nat} {src dest : Text} {fs : FileSystem} {t : Text}

/-- The blocks of a file arrive at another one. -/
private theorem copyBlocks_apart {source target : List Text} (hne : source ≠ target) {u : Text}
    (hsrc : fs.entry source = some (.file (u ++ t))) (hdest : fs.entry target = some (.file u))
    (hfuel : t.length < fuel) :
    ∃ fs', copyBlocks source target fuel u.length fs = some fs' ∧
      fs'.entry = Function.update fs.entry target (some (.file (u ++ t))) := by
  induction fuel generalizing u t fs with
  | zero => omega
  | succ fuel ih =>
    unfold copyBlocks
    rw [hsrc]
    dsimp only
    rw [List.drop_left]
    split
    · next hblock =>
      have hnil : t = [] := by
        by_contra hne
        have hpos := List.length_pos_iff.mpr hne
        have hzero := congrArg List.length hblock
        rw [List.length_take, blockSize, List.length_nil] at hzero
        omega
      subst hnil
      refine ⟨fs, rfl, ?_⟩
      rw [List.append_nil, ← hdest, Function.update_eq_self]
    · next hblock =>
      have hpos := List.length_pos_iff.mpr hblock
      have hwrite := FileSystem.write_entry hdest (t.take blockSize)
      have hsplit : u ++ t = u ++ t.take blockSize ++ t.drop blockSize := by
        rw [List.append_assoc, List.take_append_drop]
      have hsource : (fs.write target (t.take blockSize)).entry source =
          some (.file (u ++ t.take blockSize ++ t.drop blockSize)) := by
        rw [hwrite, Function.update_of_ne hne, hsrc, hsplit]
      have htarget : (fs.write target (t.take blockSize)).entry target =
          some (.file (u ++ t.take blockSize)) := by
        rw [hwrite, Function.update_self]
      have hless : (t.drop blockSize).length < fuel := by
        rw [List.length_take] at hpos
        rw [List.length_drop]
        omega
      obtain ⟨fs', hrun, hentry⟩ := ih hsource htarget hless
      refine ⟨fs', by rwa [List.length_append] at hrun, ?_⟩
      rw [hentry, hwrite, Function.update_idem, ← hsplit]

/-- A copied file is an exact copy, and an empty file where it is copied onto itself. -/
theorem copyFile_eq {source : List Text} (hsrc : fs.locate cwd src = some source)
    (hfile : fs.entry source = some (.file t)) (hdest : fs.locate cwd dest = some place)
    (hne : place ≠ []) (hdir : fs.entry place.dropLast = some .folder)
    (hfits : Fits fs place (.file t)) (hfuel : t.length < fuel) :
    ∃ fs', copyFile cwd fuel src dest fs = some fs' ∧
      fs'.entry = Function.update fs.entry place
        (some (.file (if place = source then [] else t))) := by
  have hkind : ∀ old, fs.entry place = some old → (old = .folder ↔ Entry.file [] = .folder) := by
    intro old hold
    simpa using hfits old hold
  obtain ⟨fs₁, hstore⟩ := FileSystem.exists_store hne hdir hkind
  have hentry := FileSystem.store_entry hstore
  have hread : fs.openRead cwd src = some source := by
    simp [FileSystem.openRead, hsrc, hfile]
  have hopen : fs.openTruncated cwd dest = some (fs₁, place) := by
    simp [FileSystem.openTruncated, hdest, hstore]
  rw [copyFile, hread]
  dsimp only
  rw [hopen]
  dsimp only
  split
  · next hself =>
    subst hself
    obtain ⟨k, rfl⟩ := Nat.exists_eq_succ_of_ne_zero (by omega : fuel ≠ 0)
    refine ⟨fs₁, ?_, hentry⟩
    rw [copyBlocks, hentry, Function.update_self]
    rfl
  · next hother =>
    have hsource : fs₁.entry source = some (.file ([] ++ t)) := by
      rw [hentry, Function.update_of_ne (Ne.symm hother), hfile, List.nil_append]
    have hempty : fs₁.entry place = some (.file []) := by
      rw [hentry, Function.update_self]
    obtain ⟨fs', hrun, hfs'⟩ := copyBlocks_apart (Ne.symm hother) hsource hempty hfuel
    exact ⟨fs', hrun, by rw [hfs', hentry, Function.update_idem, List.nil_append]⟩

end Files

/-! ### The entries reached so far -/

/-- What is left of an entry that is copied onto itself. -/
def emptied : Entry → Entry
  | .folder => .folder
  | .file _ => .file []

/-- The file system `fs'` after the entries of the source `S` whose names from there are in `C`
have been copied to `T`. -/
structure Merged (S T : List Text) (fs : FileSystem) (C : Set (List Text)) (fs' : FileSystem) :
    Prop where
  grown : fs.Grown fs'
  copied : ∀ q ∈ C, ∀ e, fs.entry (S ++ q) = some e →
    fs'.entry (T ++ q) = some (if T = S then emptied e else e)
  kept : ∀ x, (∀ q ∈ C, fs.entry (S ++ q) ≠ none → x ≠ T ++ q) → fs'.entry x = fs.entry x

/-- Where something is written into the source, it is there already, unless the source is
copied onto itself. -/
def Calm (S T : List Text) (fs : FileSystem) : Prop :=
  ∀ q e, fs.entry (S ++ q) = some e → S <+: T ++ q → T = S ∨ fs.entry (T ++ q) = some e

section Reached

variable {S T : List Text} {fs fs₁ fs₂ : FileSystem} {C C' : Set (List Text)} {q : List Text}
  {e : Entry}

theorem emptied_eq_folder : emptied e = .folder ↔ e = .folder := by
  cases e <;> simp [emptied]

theorem entryKind_emptied : entryKind (emptied e) = entryKind e := by
  cases e <;> rfl

theorem Merged.start : Merged S T fs ∅ fs :=
  ⟨.refl fs, fun _ h ↦ h.elim, fun _ _ ↦ rfl⟩

/-- Only names of entries matter. -/
theorem Merged.congr (h : Merged S T fs C fs₁)
    (hsame : ∀ q, fs.entry (S ++ q) ≠ none → (q ∈ C ↔ q ∈ C')) : Merged S T fs C' fs₁ := by
  refine ⟨h.grown, fun q hq e he ↦ ?_, fun x hx ↦ ?_⟩
  · exact h.copied q ((hsame q (by simp [he])).mpr hq) e he
  · exact h.kept x (fun q hq hentry ↦ hx q ((hsame q hentry).mp hq) hentry)

/-- The source is as it was, up to files that lost their contents to themselves. -/
theorem Merged.source (h : Merged S T fs C fs₁) (hcalm : Calm S T fs) (q : List Text) :
    fs₁.entry (S ++ q) = fs.entry (S ++ q) ∨
      T = S ∧ fs₁.entry (S ++ q) = (fs.entry (S ++ q)).map emptied := by
  by_cases hq : ∃ p ∈ C, fs.entry (S ++ p) ≠ none ∧ S ++ q = T ++ p
  · obtain ⟨p, hp, hentry, heq⟩ := hq
    obtain ⟨e, he⟩ := Option.ne_none_iff_exists'.mp hentry
    have hcopied := h.copied p hp e he
    by_cases hself : T = S
    · subst hself
      obtain rfl := List.append_cancel_left heq
      exact .inr ⟨rfl, by rw [hcopied, he, if_pos rfl, Option.map_some]⟩
    · obtain hT | hthere := hcalm p e he ⟨q, heq⟩
      · exact absurd hT hself
      · left
        rw [heq, hcopied, if_neg hself, hthere]
  · left
    apply h.kept
    intro p hp hentry heq
    exact hq ⟨p, hp, hentry, heq⟩

/-- The kinds in the source never change. -/
theorem Merged.kind (h : Merged S T fs C fs₁) (hcalm : Calm S T fs) (q : List Text) :
    (fs₁.entry (S ++ q)).map entryKind = (fs.entry (S ++ q)).map entryKind := by
  obtain hsame | ⟨-, hemptied⟩ := h.source hcalm q
  · rw [hsame]
  · rw [hemptied]
    cases fs.entry (S ++ q) with
    | none => rfl
    | some e => simp [entryKind_emptied]

/-- Nothing of the other kind gets in the way of an entry. -/
theorem Merged.target (h : Merged S T fs C fs₁) (he : fs.entry (S ++ q) = some e)
    (hfits : Fits fs (T ++ q) e) : Fits fs₁ (T ++ q) e := by
  intro old hold
  by_cases hq : q ∈ C
  · rw [h.copied q hq e he, Option.some.injEq] at hold
    rw [← hold]
    split
    · exact emptied_eq_folder
    · rfl
  · apply hfits
    rw [← hold]
    refine (h.kept _ fun p hp _ heq ↦ hq ?_).symm
    rwa [List.append_cancel_left heq]

/-- One more entry is copied. -/
theorem Merged.store (h : Merged S T fs C fs₁) (he : fs.entry (S ++ q) = some e)
    (hgrown : fs₁.Grown fs₂)
    (hentry : fs₂.entry =
      Function.update fs₁.entry (T ++ q) (some (if T = S then emptied e else e))) :
    Merged S T fs (insert q C) fs₂ := by
  refine ⟨h.grown.trans hgrown, fun p hp e' he' ↦ ?_, fun x hx ↦ ?_⟩
  · rw [hentry]
    by_cases hpq : p = q
    · subst hpq
      rw [he, Option.some.injEq] at he'
      rw [Function.update_self, he']
    · rw [Function.update_of_ne (by simpa using hpq)]
      exact h.copied p (hp.resolve_left hpq) e' he'
  · rw [hentry, Function.update_of_ne (hx q (.inl rfl) (by simp [he]))]
    exact h.kept x (fun p hp ↦ hx p (.inr hp))

end Reached

/-! ### The run through a source -/

/-- The paths of an entry fit their arrays. -/
def Room (src dest name : Text) (q : List Text) : Prop :=
  (below src q).length < maxPathSize ∧ (below dest (name :: q)).length < maxPathSize

/-- A source `S` of the given name and a folder for it, in which it goes to `T`. -/
structure Task (cwd : List Text) (src dest name : Text) (S T : List Text) (fs : FileSystem) :
    Prop where
  source : fs.locate cwd src = some S
  present : fs.entry S ≠ none
  destination : ∃ D, fs.locate cwd dest = some D ∧ fs.entry D = some .folder ∧ T = D ++ [name]
  name : FileName name
  finite : fs.Finite
  wellNamed : fs.WellNamed

section Run

variable {readdir : Readdir} {cwd S T : List Text} {src dest name : Text}
  {fs fs₁ fs₂ : FileSystem} {C : Set (List Text)} {q : List Text} {e : Entry} {fuel : Nat}

theorem Task.names (ht : Task cwd src dest name S T fs) (hq : fs.entry (S ++ q) ≠ none) :
    ∀ w ∈ q, FileName w :=
  ht.wellNamed.names hq

theorem Task.locate_src (ht : Task cwd src dest name S T fs) (hgrown : fs.Grown fs₁)
    (hnames : ∀ w ∈ q, FileName w) (hq : fs₁.entry (S ++ q) ≠ none) :
    fs₁.locate cwd (below src q) = some (S ++ q) := by
  apply FileSystem.locate_below (hgrown.locate ht.source) hnames
  intro hne
  obtain ⟨us, u, rfl⟩ := (List.eq_nil_or_concat' q).resolve_left hne
  rw [← List.append_assoc] at hq
  rw [List.dropLast_concat]
  exact fs₁.parent _ _ hq

/-- Both ways to follow the path of a copied entry end at its place. -/
private theorem Task.follow_dest (ht : Task cwd src dest name S T fs) (hgrown : fs.Grown fs₁)
    (hnames : ∀ w ∈ q, FileName w) (hparent : fs₁.entry (T ++ q).dropLast = some .folder) :
    fs₁.locate cwd (below dest (name :: q)) = some (T ++ q) ∧
      fs₁.follow (pathStart cwd (below dest (name :: q)))
        (tokens slash (below dest (name :: q))) = some (T ++ q) := by
  obtain ⟨D, hD, -, rfl⟩ := ht.destination
  have hplace := hgrown.locate hD
  have hall : ∀ w ∈ name :: q, FileName w := List.forall_mem_cons.mpr ⟨ht.name, hnames⟩
  rw [List.append_assoc, List.singleton_append] at hparent ⊢
  have hdir : name :: q ≠ [] → fs₁.entry (D ++ (name :: q).dropLast) = some .folder := by
    intro hne
    rwa [List.dropLast_append_of_ne_nil hne] at hparent
  exact ⟨FileSystem.locate_below hplace hall hdir, FileSystem.follow_below hplace hall hdir⟩

theorem Task.locate_dest (ht : Task cwd src dest name S T fs) (hgrown : fs.Grown fs₁)
    (hnames : ∀ w ∈ q, FileName w) (hparent : fs₁.entry (T ++ q).dropLast = some .folder) :
    fs₁.locate cwd (below dest (name :: q)) = some (T ++ q) :=
  (ht.follow_dest hgrown hnames hparent).1

/-- The folder for a copy is made unless something is there. -/
theorem Task.ensure (ht : Task cwd src dest name S T fs) (hgrown : fs.Grown fs₁)
    (hnames : ∀ w ∈ q, FileName w) (hparent : fs₁.entry (T ++ q).dropLast = some .folder) :
    ∃ fs₂, (if fs₁.stat cwd (below dest (name :: q)) = none
        then fs₁.mkdir cwd (below dest (name :: q)) else some fs₁) = some fs₂ ∧
      fs₂.entry = Function.update fs₁.entry (T ++ q)
        (some ((fs₁.entry (T ++ q)).getD .folder)) := by
  obtain ⟨hlocate, hfollow⟩ := ht.follow_dest hgrown hnames hparent
  have hstat : fs₁.stat cwd (below dest (name :: q)) = fs₁.entry (T ++ q) := by
    simp [FileSystem.stat, hlocate]
  rw [hstat]
  cases hold : fs₁.entry (T ++ q) with
  | none =>
    have hne : T ++ q ≠ [] := by
      intro hnil
      rw [hnil, fs₁.top] at hold
      cases hold
    obtain ⟨fs₂, hstore⟩ := FileSystem.exists_store (e := .folder) hne hparent (by simp [hold])
    refine ⟨fs₂, ?_, FileSystem.store_entry hstore⟩
    have hpath : below dest (name :: q) ≠ [] := by simp [below]
    rw [if_pos rfl, FileSystem.mkdir, if_neg hpath, hfollow, Option.bind_eq_bind, Option.bind_some,
      if_pos hold, hstore]
  | some old =>
    refine ⟨fs₁, if_neg (by simp), ?_⟩
    rw [Option.getD_some, ← hold, Function.update_eq_self]

/-- A file of the source is copied. -/
theorem Task.copyFile_merged (ht : Task cwd src dest name S T fs) (hcalm : Calm S T fs)
    (hm : Merged S T fs C fs₁) {t : Text} (hq : fs.entry (S ++ q) = some (.file t))
    (hfits : Fits fs (T ++ q) (.file t)) (hparent : fs₁.entry (T ++ q).dropLast = some .folder)
    (hfuel : t.length < fuel) :
    ∃ fs₂, copyFile cwd fuel (below src q) (below dest (name :: q)) fs₁ = some fs₂ ∧
      Merged S T fs (insert q C) fs₂ := by
  have hnames : ∀ w ∈ q, FileName w := ht.names (by simp [hq])
  obtain ⟨u, hu, hcontent⟩ : ∃ u, fs₁.entry (S ++ q) = some (.file u) ∧
      (u = t ∨ T = S ∧ u = []) := by
    obtain hsame | ⟨hself, hemptied⟩ := hm.source hcalm q
    · exact ⟨t, hsame.trans hq, .inl rfl⟩
    · exact ⟨[], by rw [hemptied, hq]; rfl, .inr ⟨hself, rfl⟩⟩
  have hless : u.length < fuel := by
    obtain rfl | ⟨-, rfl⟩ := hcontent
    · exact hfuel
    · exact Nat.lt_of_le_of_lt (Nat.zero_le _) hfuel
  have hfit : Fits fs₁ (T ++ q) (.file u) := by
    intro old hold
    simpa using hm.target hq hfits old hold
  have hne : T ++ q ≠ [] := by
    obtain ⟨D, -, -, rfl⟩ := ht.destination
    simp
  obtain ⟨fs₂, hrun, hentry⟩ := copyFile_eq
    (ht.locate_src hm.grown hnames (by simp [hu])) hu
    (ht.locate_dest hm.grown hnames hparent) hne hparent hfit hless
  refine ⟨fs₂, hrun, hm.store hq (copyFile_grown hrun) ?_⟩
  rw [hentry]
  by_cases hself : T = S
  · rw [if_pos (by rw [hself]), if_pos hself]
    rfl
  · obtain rfl | ⟨hT, -⟩ := hcontent
    · rw [if_neg (by simpa using hself), if_neg hself]
    · exact absurd hT hself

theorem entryKind_eq_folder {o : Option Entry} : o.map entryKind = some .folder ↔ o = some .folder := by
  rcases o with _ | _ | t <;> simp [entryKind]

/-- A folder of the source is made at the destination and listed. -/
theorem Task.enter (ht : Task cwd src dest name S T fs) (readdir : Readdir) (hcalm : Calm S T fs)
    (hm : Merged S T fs C fs₁) (hq : fs.entry (S ++ q) = some .folder)
    (hfits : Fits fs (T ++ q) .folder) (hparent : fs₁.entry (T ++ q).dropLast = some .folder) :
    ∃ fs₂, (if fs₁.stat cwd (below dest (name :: q)) = none
        then fs₁.mkdir cwd (below dest (name :: q)) else some fs₁) = some fs₂ ∧
      Merged S T fs (insert q C) fs₂ ∧ fs₂.entry (S ++ q) = some .folder ∧
      opendir readdir cwd (below src q) fs₂ = some (readdir fs₂ (S ++ q)) := by
  have hnames : ∀ w ∈ q, FileName w := ht.names (by simp [hq])
  obtain ⟨fs₂, hrun, hentry⟩ := ht.ensure hm.grown hnames hparent
  have hfolder : (fs₁.entry (T ++ q)).getD .folder = .folder := by
    cases hold : fs₁.entry (T ++ q) with
    | none => rfl
    | some old => exact (hm.target hq hfits old hold).mpr rfl
  have hm₂ : Merged S T fs (insert q C) fs₂ := by
    apply hm.store hq (ensured_grown hrun)
    rw [hentry, hfolder]
    split <;> rfl
  have hsource : fs₂.entry (S ++ q) = some .folder := by
    rw [← entryKind_eq_folder, hm₂.kind hcalm, hq]
    rfl
  refine ⟨fs₂, hrun, hm₂, hsource, ?_⟩
  simp [opendir, ht.locate_src hm₂.grown hnames (by simp [hsource]), hsource]

/-- One round of the loop copies what is at and below an entry, if the recursive call does. -/
theorem Task.copyEntry_merged (ht : Task cwd src dest name S T fs) (hcalm : Calm S T fs)
    (hroom : ∀ q, fs.entry (S ++ q) ≠ none → Room src dest name q)
    (hfits : ∀ q e, fs.entry (S ++ q) = some e → Fits fs (T ++ q) e)
    {directory : Text → Text → FileSystem → Option FileSystem} {x : Text × Kind}
    (hdirectory : fs.entry (S ++ (q ++ [x.1])) = some .folder →
      ∃ fs₂, directory (below src (q ++ [x.1])) (below dest (name :: (q ++ [x.1]))) fs₁ = some fs₂ ∧
        Merged S T fs (C ∪ {p | q ++ [x.1] <+: p}) fs₂)
    (hfuel : ∀ t, fs.entry (S ++ (q ++ [x.1])) = some (.file t) → t.length < fuel)
    (hx : isDots x.1 = false → (fs.entry (S ++ (q ++ [x.1]))).map entryKind = some x.2)
    (hm : Merged S T fs C fs₁) (hparent : fs₁.entry (T ++ q) = some .folder) :
    ∃ fs₂, copyEntry directory (copyFile cwd fuel) (below src q) (below dest (name :: q)) fs₁ x =
        some fs₂ ∧
      Merged S T fs (C ∪ {p | isDots x.1 = false ∧ q ++ [x.1] <+: p}) fs₂ := by
  unfold copyEntry
  by_cases hdots : isDots x.1 = true
  · rw [if_pos hdots]
    refine ⟨fs₁, rfl, hm.congr fun p _ ↦ ?_⟩
    simp [hdots]
  · rw [Bool.not_eq_true] at hdots
    have hkind := hx hdots
    obtain ⟨e, he, hek⟩ := Option.map_eq_some_iff.mp hkind
    obtain ⟨hsrc, hdest⟩ := hroom (q ++ [x.1]) (by simp [he])
    have hsrcPath : clip maxPathSize (below src q ++ lit "/" ++ x.1) = below src (q ++ [x.1]) := by
      rw [below_slash]
      exact List.take_of_length_le (by omega)
    have hdestPath : clip maxPathSize (below dest (name :: q) ++ lit "/" ++ x.1) =
        below dest (name :: (q ++ [x.1])) := by
      rw [below_slash, List.cons_append]
      exact List.take_of_length_le (by omega)
    rw [if_neg (by simp [hdots]), hsrcPath, hdestPath, ← hek]
    simp only [hdots, true_and]
    cases e with
    | folder => exact hdirectory he
    | file t =>
      have hlast : (T ++ (q ++ [x.1])).dropLast = T ++ q := by
        rw [← List.append_assoc, List.dropLast_concat]
      obtain ⟨fs₂, hrun, hm₂⟩ := ht.copyFile_merged hcalm hm he (hfits _ _ he)
        (by rwa [hlast]) (hfuel t he)
      refine ⟨fs₂, hrun, hm₂.congr fun p hp ↦ ?_⟩
      -- Nothing lies below a file.
      have honly : p = q ++ [x.1] ↔ q ++ [x.1] <+: p := by
        constructor
        · rintro rfl
          exact List.prefix_refl _
        · rintro ⟨r, rfl⟩
          by_cases hr : r = []
          · rw [hr, List.append_nil]
          · rw [← List.append_assoc] at hp
            rw [FileSystem.folder_of_append hp hr] at he
            cases he
      rw [Set.mem_insert_iff, Set.mem_union, Set.mem_ofPred_eq, honly, or_comm]

/-- The loop over the entries of a folder. -/
theorem Task.loop_merged (ht : Task cwd src dest name S T fs) (hcalm : Calm S T fs)
    (hroom : ∀ q, fs.entry (S ++ q) ≠ none → Room src dest name q)
    (hfits : ∀ q e, fs.entry (S ++ q) = some e → Fits fs (T ++ q) e)
    {directory : Text → Text → FileSystem → Option FileSystem}
    (hq : fs.entry (S ++ q) = some .folder)
    (hdirectory : ∀ n C fs₁, fs.entry (S ++ (q ++ [n])) = some .folder → Merged S T fs C fs₁ →
      fs₁.entry (T ++ q) = some .folder →
      ∃ fs₂, directory (below src (q ++ [n])) (below dest (name :: (q ++ [n]))) fs₁ = some fs₂ ∧
        Merged S T fs (C ∪ {p | q ++ [n] <+: p}) fs₂)
    (hfuel : ∀ n t, fs.entry (S ++ (q ++ [n])) = some (.file t) → t.length < fuel)
    (l : List (Text × Kind)) (hl : ∀ x ∈ l, isDots x.1 = false →
      (fs.entry (S ++ (q ++ [x.1]))).map entryKind = some x.2)
    (hqC : q ∈ C) (hm : Merged S T fs C fs₁) :
    ∃ fs₂, l.foldlM (copyEntry directory (copyFile cwd fuel) (below src q)
        (below dest (name :: q))) fs₁ = some fs₂ ∧
      Merged S T fs (C ∪ {p | ∃ x ∈ l, isDots x.1 = false ∧ q ++ [x.1] <+: p}) fs₂ := by
  induction l generalizing C fs₁ with
  | nil => exact ⟨fs₁, rfl, hm.congr (by simp)⟩
  | cons x l ih =>
    have hparent : fs₁.entry (T ++ q) = some .folder := by
      rw [hm.copied q hqC _ hq]
      split <;> rfl
    obtain ⟨fs₂, hfirst, hm₂⟩ := ht.copyEntry_merged hcalm hroom hfits
      (fun he ↦ hdirectory x.1 C fs₁ he hm hparent) (hfuel x.1) (hl x (by simp)) hm hparent
    obtain ⟨fs₃, hrest, hm₃⟩ := ih (fun y hy ↦ hl y (by simp [hy])) (.inl hqC) hm₂
    refine ⟨fs₃, ?_, hm₃.congr fun p _ ↦ ?_⟩
    · rw [List.foldlM_cons, hfirst]
      exact hrest
    · simp [or_assoc]

/-- `copy_directory` copies what is at and below a folder of the source. -/
theorem Task.copyDirectory_merged (ht : Task cwd src dest name S T fs) (hlists : readdir.Lists)
    (hcalm : Calm S T fs) (hroom : ∀ q, fs.entry (S ++ q) ≠ none → Room src dest name q)
    (hfits : ∀ q e, fs.entry (S ++ q) = some e → Fits fs (T ++ q) e) {bound : Nat}
    (hdepth : ∀ q, fs.entry (S ++ q) ≠ none → q.length ≤ bound)
    (hlength : ∀ q t, fs.entry (S ++ q) = some (.file t) → q.length + t.length ≤ bound)
    (hq : fs.entry (S ++ q) = some .folder) (hfuel : bound + 2 ≤ fuel + q.length)
    (hm : Merged S T fs C fs₁) (hparent : fs₁.entry (T ++ q).dropLast = some .folder) :
    ∃ fs₂, copyDirectory readdir cwd fuel (below src q) (below dest (name :: q)) fs₁ = some fs₂ ∧
      Merged S T fs (C ∪ {p | q <+: p}) fs₂ := by
  induction fuel generalizing q C fs₁ with
  | zero =>
    have hdeep := hdepth q (by simp [hq])
    omega
  | succ fuel ih =>
    obtain ⟨fs₂, hrun, hm₂, hsource, hopen⟩ :=
      ht.enter readdir hcalm hm hq (hfits q _ hq) hparent
    rw [copyDirectory, hrun]
    dsimp only
    rw [hopen]
    dsimp only
    have hlisted : ∀ n k, isDots n = false → ((n, k) ∈ readdir fs₂ (S ++ q) ↔
        (fs.entry (S ++ (q ++ [n]))).map entryKind = some k) := by
      intro n k hn
      rw [hlists fs₂ (S ++ q) (hm₂.grown.finite ht.finite) hsource n k hn, List.append_assoc,
        hm₂.kind hcalm]
    have hloop : ∃ fs₃, (readdir fs₂ (S ++ q)).foldlM (copyEntry (copyDirectory readdir cwd fuel)
          (copyFile cwd fuel) (below src q) (below dest (name :: q))) fs₂ = some fs₃ ∧
        Merged S T fs (insert q C ∪
          {p | ∃ x ∈ readdir fs₂ (S ++ q), isDots x.1 = false ∧ q ++ [x.1] <+: p}) fs₃ := by
      apply ht.loop_merged hcalm hroom hfits hq
      · intro n C fs₁ he hm hparent
        apply ih he _ hm
        · rwa [← List.append_assoc, List.dropLast_concat]
        · rw [List.length_append, List.length_singleton]
          omega
      · intro n t he
        have hsize := hlength _ _ he
        rw [List.length_append, List.length_singleton] at hsize
        omega
      · exact fun x hx hdots ↦ (hlisted x.1 x.2 hdots).mp hx
      · exact .inl rfl
      · exact hm₂
    obtain ⟨fs₃, hrun₃, hm₃⟩ := hloop
    refine ⟨fs₃, hrun₃, hm₃.congr fun p hp ↦ ?_⟩
    -- The folder itself and what is below its entries is all that is below it.
    simp only [Set.mem_union, Set.mem_insert_iff, Set.mem_ofPred_eq]
    constructor
    · rintro ((rfl | hC) | ⟨x, -, -, hpre⟩)
      · exact .inr (List.prefix_refl _)
      · exact .inl hC
      · exact .inr ((List.prefix_append _ _).trans hpre)
    · rintro (hC | ⟨r, rfl⟩)
      · exact .inl (.inr hC)
      · cases r with
        | nil => exact .inl (.inl (List.append_nil q))
        | cons n r =>
          have hn : FileName n := ht.names hp n (by simp)
          have hdots : isDots n = false := by
            simp [isDots, hn.ne_dot, hn.ne_dots]
          have hentry : fs.entry (S ++ (q ++ [n])) ≠ none := by
            apply FileSystem.entry_of_append (q := r)
            simpa using hp
          obtain ⟨e, he⟩ := Option.ne_none_iff_exists'.mp hentry
          refine .inr ⟨(n, entryKind e), (hlisted n _ hdots).mpr (by rw [he]; rfl), hdots, ?_⟩
          exact ⟨r, by simp⟩

/-- The number of bytes in a file. -/
private def fileLength : Option Entry → Nat
  | some (.file t) => t.length
  | _ => 0

/-- Depths and lengths below a place are bounded. -/
private theorem exists_bound (hfinite : fs.Finite) (S : List Text) :
    ∃ bound, (∀ q, fs.entry (S ++ q) ≠ none → q.length ≤ bound) ∧
      ∀ q t, fs.entry (S ++ q) = some (.file t) → q.length + t.length ≤ bound := by
  obtain ⟨depth, hdepth⟩ := (hfinite.image List.length).bddAbove
  obtain ⟨size, hsize⟩ := (hfinite.image fun x ↦ fileLength (fs.entry x)).bddAbove
  have hdeep : ∀ q, fs.entry (S ++ q) ≠ none → q.length ≤ depth := by
    intro q hq
    have hle := hdepth (Set.mem_image_of_mem _ hq)
    rw [List.length_append] at hle
    omega
  refine ⟨depth + size, fun q hq ↦ (hdeep q hq).trans (Nat.le_add_right _ _), fun q t hq ↦ ?_⟩
  have hle := hsize ⟨S ++ q, by simp [hq], rfl⟩
  simp only [hq] at hle
  exact Nat.add_le_add (hdeep q (by simp [hq])) hle

theorem Task.parent (ht : Task cwd src dest name S T fs) : fs.entry T.dropLast = some .folder := by
  obtain ⟨D, -, hD, rfl⟩ := ht.destination
  rwa [List.dropLast_concat]

/-- The whole copy: every entry of the source is reached. -/
theorem Task.copyTree_merged (ht : Task cwd src dest name S T fs) (hlists : readdir.Lists)
    (hcalm : Calm S T fs) (hroom : ∀ q, fs.entry (S ++ q) ≠ none → Room src dest name q)
    (hfits : ∀ q e, fs.entry (S ++ q) = some e → Fits fs (T ++ q) e)
    (hS : fs.entry S = some e) :
    ∃ N, ∀ fuel ≥ N, ∃ fs', copyTree readdir cwd fuel e src (below dest [name]) fs = some fs' ∧
      Merged S T fs Set.univ fs' := by
  obtain ⟨bound, hdepth, hlength⟩ := exists_bound ht.finite S
  refine ⟨bound + 2, fun fuel hfuel ↦ ?_⟩
  have hS' : fs.entry (S ++ []) = some e := by rwa [List.append_nil]
  have hparent : fs.entry (T ++ []).dropLast = some .folder := by
    rw [List.append_nil]
    exact ht.parent
  rw [← below_nil src]
  cases e with
  | folder =>
    obtain ⟨fs', hrun, hm⟩ := ht.copyDirectory_merged hlists hcalm hroom hfits hdepth hlength hS'
      hfuel .start hparent
    exact ⟨fs', hrun, hm.congr (by simp)⟩
  | file t =>
    have hsize := hlength [] t hS'
    obtain ⟨fs', hrun, hm⟩ := ht.copyFile_merged hcalm .start hS' (hfits _ _ hS') hparent
      (show t.length < fuel by omega)
    refine ⟨fs', hrun, hm.congr fun q hq ↦ ?_⟩
    have hnil : q = [] := by
      by_contra hne
      rw [FileSystem.folder_of_append hq hne] at hS
      cases hS
    simp [hnil]

end Run

end NetworkFileSystem.Transfer
