import NetworkFileSystem.Transfer.Overlap
import Mathlib.Data.Set.Finite.Lemmas

/-!
# Which copies within a server are exact

A copy into its own source runs after itself: every folder that it makes is one more to copy.
Together with the copies onto the source this decides when `copy_same` does what it is for.
-/

namespace NetworkFileSystem.Transfer

open Base Protocol Storage

/-! ### Names that repeat -/

section Repeats

variable {r g : List Text}

/-- What goes on as it began has no other elements than its beginning. -/
private theorem mem_of_repeats (hr : r ≠ []) (h : g <+: r ++ g) {w : Text} (hw : w ∈ g) : w ∈ r := by
  induction hn : g.length using Nat.strongRecOn generalizing g with
  | ind n ih =>
    obtain hshort | ⟨rest, rfl⟩ := List.prefix_or_prefix_of_prefix h (List.prefix_append r g)
    · exact hshort.subset hw
    · obtain hw | hw := List.mem_append.mp hw
      · exact hw
      · have hpos := List.length_pos_iff.mpr hr
        apply ih rest.length (by rw [← hn, List.length_append]; omega) _ hw rfl
        exact (List.prefix_append_right_inj r).mp h

/-- It can go on by one more element. -/
private theorem exists_repeats_concat (hr : r ≠ []) (h : g <+: r ++ g) :
    ∃ n, g ++ [n] <+: r ++ (g ++ [n]) := by
  obtain ⟨z, hz⟩ := h
  have hlen := congrArg List.length hz
  have hpos := List.length_pos_iff.mpr hr
  rw [List.length_append, List.length_append] at hlen
  obtain ⟨n, z, rfl⟩ := List.exists_cons_of_ne_nil (show z ≠ [] by
    rintro rfl
    rw [List.length_nil] at hlen
    omega)
  exact ⟨n, z ++ [n], by rw [← List.append_assoc r, ← hz]; simp⟩

end Repeats

/-! ### A destination inside the source -/

section Inside

variable {readdir : Readdir} {cwd S T : List Text} {src dest name : Text}
  {fs fs₁ fs₂ : FileSystem} {q : List Text} {e : Entry} {fuel : Nat}

/-- A round of a loop that removes nothing. -/
private theorem foldlM_round {α : Type} {body : FileSystem → α → Option FileSystem} {l : List α}
    (hbody : ∀ fs a fs', body fs a = some fs' → fs.Grown fs')
    (h : l.foldlM body fs = some fs₂) {a : α} (ha : a ∈ l) :
    ∃ before after, fs.Grown before ∧ body before a = some after ∧ after.Grown fs₂ := by
  obtain ⟨l₁, l₂, rfl⟩ := List.append_of_mem ha
  rw [List.foldlM_append] at h
  obtain ⟨before, hbefore, h⟩ := Option.bind_eq_some_iff.mp h
  obtain ⟨after, hround, h⟩ := Option.bind_eq_some_iff.mp h
  exact ⟨before, after, foldlM_grown hbody hbefore, hround, foldlM_grown hbody h⟩

/-- What follows in `copy_directory` once the folder at the destination is ensured. -/
private theorem copyDirectory_ensured {fs' : FileSystem}
    (hensured : (if fs.stat cwd dest = none then fs.mkdir cwd dest else some fs) = some fs')
    (h : copyDirectory readdir cwd (fuel + 1) src dest fs = some fs₂) :
    fs'.Grown fs₂ ∧ ∀ entries, opendir readdir cwd src fs' = some entries → ∀ x ∈ entries,
      ∃ before after, fs'.Grown before ∧
        copyEntry (copyDirectory readdir cwd fuel) (copyFile cwd fuel) src dest before x =
          some after ∧ after.Grown fs₂ := by
  have hbody : ∀ fs x fs', copyEntry (copyDirectory readdir cwd fuel) (copyFile cwd fuel) src dest
      fs x = some fs' → fs.Grown fs' :=
    fun _ _ _ h ↦ copyEntry_grown (fun _ _ _ _ h ↦ copyDirectory_grown h)
      (fun _ _ _ _ h ↦ copyFile_grown h) h
  rw [copyDirectory, hensured] at h
  dsimp only at h
  split at h
  · next hclosed =>
    obtain rfl := Option.some.inj h
    exact ⟨.refl _, fun entries hopen ↦ by rw [hclosed] at hopen; cases hopen⟩
  · next entries hopen =>
    refine ⟨foldlM_grown hbody h, fun entries' hopen' x hx ↦ ?_⟩
    rw [hopen, Option.some.injEq] at hopen'
    subst hopen'
    exact foldlM_round hbody h hx

/-- A copy from `S` to a place below it goes on into what it makes: with every name of `g`,
which repeats those on the way to the destination, it is one folder further down. -/
private theorem Task.reaches (ht : Task cwd src dest name S T fs) (hlists : readdir.Lists)
    {r g : List Text} (hT : T = S ++ r) (hr : r ≠ []) (hrepeats : g <+: r ++ g)
    (hnames : ∀ w ∈ g, FileName w) (hroom : ∀ q, q <+: g → Room src dest name q)
    {last : FileSystem} (hlast : ∀ q, q <+: g → q ≠ g → last.entry (T ++ q) = some .folder)
    {c : List Text} (hc : q ++ c = g) (hgrown : fs.Grown fs₁) (hend : fs₂.Grown last)
    (hparent : fs₁.entry (T ++ q).dropLast = some .folder)
    (hsource : fs₁.entry (S ++ q) = some .folder)
    (hrun : copyDirectory readdir cwd fuel (below src q) (below dest (name :: q)) fs₁ =
      some fs₂) : fs₂.entry (T ++ g) ≠ none := by
  induction c generalizing q fuel fs₁ fs₂ with
  | nil =>
    obtain rfl : q = g := by simpa using hc
    cases fuel with
    | zero => cases hrun
    | succ fuel =>
      obtain ⟨fs', hensured, hentry⟩ := ht.ensure hgrown hnames hparent
      apply (copyDirectory_ensured hensured hrun).1.present
      rw [hentry, Function.update_self]
      simp
  | cons n c ih =>
    have hpre : q ++ [n] <+: g := ⟨c, by rw [← hc]; simp⟩
    have hqg : q <+: g := (List.prefix_append _ _).trans hpre
    have hne : q ≠ g := by
      rintro rfl
      simpa using congrArg List.length hc
    have hqnames : ∀ w ∈ q, FileName w := fun w hw ↦ hnames w (hqg.subset hw)
    cases fuel with
    | zero => cases hrun
    | succ fuel =>
      obtain ⟨fs', hensured, hentry⟩ := ht.ensure hgrown hqnames hparent
      obtain ⟨hrest, hrounds⟩ := copyDirectory_ensured hensured hrun
      have hgrown' : fs.Grown fs' := hgrown.trans (ensured_grown hensured)
      have hfolder : fs'.entry (T ++ q) = some .folder := by
        apply (hrest.trans hend).folder_of_folder _ (hlast q hqg hne)
        rw [hentry, Function.update_self]
        simp
      -- The next name leads from the source to the new folder or on the way to it.
      have hnext : fs'.entry (S ++ (q ++ [n])) = some .folder := by
        have hboth : q ++ [n] <+: r ++ q := by
          apply List.prefix_of_prefix_length_le (hpre.trans hrepeats)
            ((List.prefix_append_right_inj r).mpr hqg)
          have hpos := List.length_pos_iff.mpr hr
          simp only [List.length_append, List.length_singleton]
          omega
        obtain ⟨z, hz⟩ := hboth
        rw [hT, List.append_assoc, ← hz, ← List.append_assoc] at hfolder
        by_cases hznil : z = []
        · rwa [hznil, List.append_nil] at hfolder
        · have hbelow : fs'.entry (S ++ (q ++ [n]) ++ z) ≠ none := by
            rw [hfolder]
            exact Option.some_ne_none _
          exact FileSystem.folder_of_append hbelow hznil
      have hopened : fs'.entry (S ++ q) = some .folder := (ensured_grown hensured).folder hsource
      have hopen : opendir readdir cwd (below src q) fs' = some (readdir fs' (S ++ q)) := by
        simp [opendir, ht.locate_src hgrown' hqnames (by simp [hopened]), hopened]
      have hn : FileName n := hnames n (hpre.subset (by simp))
      have hdots : isDots n = false := by
        simp [isDots, hn.ne_dot, hn.ne_dots]
      have hmem : (n, Kind.folder) ∈ readdir fs' (S ++ q) := by
        rw [hlists fs' (S ++ q) (hgrown'.finite ht.finite) hopened n _ hdots, List.append_assoc,
          hnext]
        rfl
      obtain ⟨before, after, hbefore, hround, hafter⟩ := hrounds _ hopen _ hmem
      obtain ⟨hsrc, hdest⟩ := hroom (q ++ [n]) hpre
      have hcall : copyDirectory readdir cwd fuel (below src (q ++ [n]))
          (below dest (name :: (q ++ [n]))) before = some after := by
        rw [copyEntry, if_neg (by simp [hdots])] at hround
        dsimp only at hround
        rw [below_slash, below_slash, List.cons_append] at hround
        rwa [clip, clip, List.take_of_length_le (by omega), List.take_of_length_le (by omega)]
          at hround
      apply hafter.present
      apply ih (by rw [← hc]; simp) (hgrown'.trans hbefore) (hafter.trans hend) _
        (hbefore.folder hnext) hcall
      rw [← List.append_assoc, List.dropLast_concat]
      exact hbefore.folder hfolder

/-- The file system after a copy that does what it is for: at `T` there is what the source held,
merged over what was there, and the files of the source are as they were. -/
structure ExactCopy (S T : List Text) (fs fs' : FileSystem) : Prop where
  stored : ∀ q, fs'.entry (T ++ q) = (fs.entry (S ++ q)).or (fs.entry (T ++ q))
  source : ∀ q t, fs.entry (S ++ q) = some (.file t) → fs'.entry (S ++ q) = some (.file t)

theorem Room.of_concat {w : Text} (h : Room src dest name (q ++ [w])) : Room src dest name q := by
  obtain ⟨hsrc, hdest⟩ := h
  rw [← below_slash] at hsrc
  rw [← List.cons_append, ← below_slash] at hdest
  simp only [List.length_append] at hsrc hdest
  exact ⟨by omega, by omega⟩

/-- No call replaces an entry by one of the other kind. -/
theorem ExactCopy.fits {fs' : FileSystem} (h : ExactCopy S T fs fs') (hgrown : fs.Grown fs')
    (he : fs.entry (S ++ q) = some e) : Fits fs (T ++ q) e := by
  intro old hold
  obtain ⟨e', he', hkind⟩ := hgrown.stays _ _ hold
  rw [h.stored, he, Option.some_or, Option.some.injEq] at he'
  rwa [← he'] at hkind

/-- The names that lead from the source over the destination and on, as far as they go: they end
at a folder. -/
private theorem Task.exists_longest (ht : Task cwd src dest name S T fs) {r : List Text}
    (hT : T = S ++ r) (hr : r ≠ [])
    (hfits : ∀ q e, fs.entry (S ++ q) = some e → Fits fs (T ++ q) e) :
    ∃ g, g <+: r ++ g ∧ fs.entry (S ++ g) = some .folder ∧
      ∀ g', g' <+: r ++ g' → g.length < g'.length → fs.entry (S ++ g') = none := by
  have hfinite : {g | g <+: r ++ g ∧ fs.entry (S ++ g) ≠ none}.Finite := by
    have hpre := ht.finite.preimage (f := (S ++ ·)) (List.append_right_injective S).injOn
    exact hpre.subset fun g hg ↦ hg.2
  have hnonempty : {g | g <+: r ++ g ∧ fs.entry (S ++ g) ≠ none}.Nonempty :=
    ⟨[], List.nil_prefix, by rw [List.append_nil]; exact ht.present⟩
  obtain ⟨g, ⟨hrepeats, hg⟩, hmax⟩ := Set.exists_max_image _ List.length hfinite hnonempty
  have hlongest : ∀ g', g' <+: r ++ g' → g.length < g'.length → fs.entry (S ++ g') = none := by
    intro g' hg' hlen
    by_contra hentry
    exact absurd (hmax g' ⟨hg', hentry⟩) (by omega)
  refine ⟨g, hrepeats, ?_, hlongest⟩
  have hfolder : fs.entry (S ++ r.dropLast) = some .folder := by
    have hparent := ht.parent
    rwa [hT, List.dropLast_append_of_ne_nil hr] at hparent
  have hpos := List.length_pos_iff.mpr hr
  by_cases hlen : r.length ≤ g.length
  · -- The destination is there; below it the names start again, one round earlier.
    obtain ⟨q, rfl⟩ := List.prefix_of_prefix_length_le (List.prefix_append r g) hrepeats hlen
    obtain ⟨e, he⟩ := Option.ne_none_iff_exists'.mp hg
    have hq : q <+: r ++ q := (List.prefix_append_right_inj r).mp hrepeats
    obtain ⟨z, hz⟩ := hq
    have hzne : z ≠ [] := by
      rintro rfl
      have hsame := congrArg List.length hz
      simp only [List.length_append, List.length_nil] at hsame
      omega
    have hqfolder : fs.entry (S ++ q) = some .folder := by
      rw [← hz, ← List.append_assoc] at hg
      exact FileSystem.folder_of_append hg hzne
    have hfit := hfits q _ hqfolder e (by rw [hT, List.append_assoc, he])
    rw [he, hfit.mpr rfl]
  · have hdrop : r.dropLast <+: r ++ r.dropLast :=
      (List.dropLast_prefix r).trans (List.prefix_append _ _)
    have hle : r.dropLast.length ≤ g.length := by
      by_contra hlt
      rw [hlongest _ hdrop (by omega)] at hfolder
      cases hfolder
    have hgr : g <+: r :=
      List.prefix_of_prefix_length_le hrepeats (List.prefix_append r g) (by omega)
    have hg : g = r.dropLast := by
      rw [List.length_dropLast] at hle
      rw [List.dropLast_eq_take, List.prefix_iff_eq_take.mp hgr]
      congr 1
      omega
    rwa [hg]

/-- No copy to a place below the source is exact. -/
theorem Task.not_exact_inside (ht : Task cwd src dest name S T fs) (hlists : readdir.Lists)
    {r : List Text} (hT : T = S ++ r) (hr : r ≠ [])
    (hroom : ∀ q, fs.entry (S ++ q) ≠ none → ∀ w ∈ T, Room src dest name (q ++ [w]))
    {fs' : FileSystem}
    (hrun : copyDirectory readdir cwd fuel src (below dest [name]) fs = some fs') :
    ¬ ExactCopy S T fs fs' := by
  intro hexact
  have hfits : ∀ q e, fs.entry (S ++ q) = some e → Fits fs (T ++ q) e :=
    fun q e he ↦ hexact.fits (copyDirectory_grown hrun) he
  obtain ⟨g, hrepeats, hg, hlongest⟩ := ht.exists_longest hT hr hfits
  obtain ⟨n, hnext⟩ := exists_repeats_concat hr hrepeats
  have hpos := List.length_pos_iff.mpr hr
  -- One more name leads to nothing, neither in the source nor at the destination.
  have hnone : fs.entry (S ++ (g ++ [n])) = none := hlongest _ hnext (by simp)
  have hnone' : fs.entry (T ++ (g ++ [n])) = none := by
    rw [hT, List.append_assoc]
    apply hlongest _ ((List.prefix_append_right_inj r).mpr hnext)
    simp only [List.length_append, List.length_singleton]
    omega
  have hgentry : ∀ q, q <+: g → fs.entry (S ++ q) = some .folder := by
    rintro q ⟨z, rfl⟩
    by_cases hz : z = []
    · rwa [hz, List.append_nil] at hg
    · apply FileSystem.folder_of_append (q := z) _ hz
      rw [List.append_assoc, hg]
      exact Option.some_ne_none _
  have hmem : ∀ w ∈ g ++ [n], w ∈ r := fun w hw ↦ mem_of_repeats hr hnext hw
  have hnames : ∀ w ∈ r, FileName w := by
    obtain ⟨D, -, hD, hDT⟩ := ht.destination
    intro w hw
    have hwT : w ∈ D ++ [name] := by
      rw [← hDT, hT]
      exact List.mem_append_right S hw
    obtain hwD | hwname := List.mem_append.mp hwT
    · apply ht.wellNamed.names (p := []) (q := D) _ w hwD
      rw [List.nil_append, hD]
      exact Option.some_ne_none _
    · rw [List.mem_singleton.mp hwname]
      exact ht.name
  have hrooms : ∀ q, q <+: g ++ [n] → Room src dest name q := by
    intro q hq
    obtain rfl | hqg := List.prefix_concat_iff.mp hq
    · apply hroom g (by simp [hg]) n
      rw [hT]
      exact List.mem_append_right S (hmem n (by simp))
    · obtain ⟨D, -, -, hDT⟩ := ht.destination
      exact (hroom q (by simp [hgentry q hqg]) name (by simp [hDT])).of_concat
  have hpre : ∀ q, q <+: g ++ [n] → q ≠ g ++ [n] → fs'.entry (T ++ q) = some .folder := by
    intro q hq hne
    rw [hexact.stored, hgentry q ((List.prefix_concat_iff.mp hq).resolve_left hne)]
    rfl
  have hreached : fs'.entry (T ++ (g ++ [n])) ≠ none := by
    apply ht.reaches hlists hT hr hnext (fun w hw ↦ hnames w (hmem w hw)) hrooms hpre
      (List.nil_append _) (.refl fs) (.refl fs')
    · rw [List.append_nil]
      exact ht.parent
    · exact hgentry [] List.nil_prefix
    · rwa [below_nil]
  apply hreached
  rw [hexact.stored, hnone, hnone']
  rfl

end Inside

/-! ### All copies -/

/-- The command ends, whatever the recursion costs, and leaves an exact copy. -/
def CopiesExactly (readdir : Readdir) (cwd : List Text) (buffer : Text) (S T : List Text)
    (fs : FileSystem) : Prop :=
  ∃ N, ∀ fuel ≥ N, ∃ fs' reply,
    copySame readdir cwd fuel buffer fs = some (fs', reply) ∧ ExactCopy S T fs fs'

/-- A source `S` that can be copied to `T`: the paths fit, nothing of the other kind is in the
way, the copy changes nothing in the source, and only empty files are copied onto themselves. -/
structure Copyable (src dest name : Text) (S T : List Text) (fs : FileSystem) : Prop where
  room : ∀ q, fs.entry (S ++ q) ≠ none → Room src dest name q
  fits : ∀ q e, fs.entry (S ++ q) = some e → Fits fs (T ++ q) e
  calm : Calm S T fs
  spared : T = S → ∀ q t, fs.entry (S ++ q) = some (.file t) → t = []

section Copies

variable {readdir : Readdir} {cwd S T : List Text} {buffer src pre dest name : Text}
  {fs fs' : FileSystem} {e : Entry} {fuel : Nat}

/-- `copy_same` copies to the destination with the name of the source added. -/
theorem copySame_eq (hscan : scanCopySame buffer = some (src, dest))
    (hsrc : SourcePath src pre name) (hroom : Room src dest name [])
    (hstat : fs.stat cwd src = some e) :
    copySame readdir cwd fuel buffer fs =
      (copyTree readdir cwd fuel e src (below dest [name]) fs).map
        (fun fs' ↦ (fs', lit "Finished Copying\n")) := by
  obtain ⟨hshort, hlong⟩ := hroom
  rw [below_nil] at hshort
  have hfinal : dest ++ lit "/" ++ name = below dest [name] := by simp [below, lit, slash]
  have hdest : dest.length < maxPathSize := by
    rw [← hfinal, List.length_append, List.length_append] at hlong
    omega
  have hslash : slash ∈ src := by simp [hsrc.split]
  have hname : afterLast slash src = name := by
    rw [hsrc.split, afterLast_append_cons hsrc.name.noSlash]
  rw [copySame, hscan]
  dsimp only
  rw [if_neg (by omega), hstat]
  dsimp only
  rw [if_neg (by simpa using hslash), hname, hfinal, clip, List.take_of_length_le (by omega)]

/-- What a run that has reached every entry leaves. -/
theorem Merged.exactCopy (h : Merged S T fs Set.univ fs') (hcalm : Calm S T fs)
    (hspared : T = S → ∀ q t, fs.entry (S ++ q) = some (.file t) → t = []) :
    ExactCopy S T fs fs' := by
  have hsame : ∀ q e, fs.entry (S ++ q) = some e → (if T = S then emptied e else e) = e := by
    intro q e he
    split
    · next hself =>
      cases e with
      | folder => rfl
      | file t => rw [hspared hself q t he, emptied]
    · rfl
  constructor
  · intro q
    cases he : fs.entry (S ++ q) with
    | none =>
      apply h.kept
      intro p _ hp heq
      rw [List.append_cancel_left heq] at he
      exact hp he
    | some e => rw [h.copied q trivial e he, hsame q e he, Option.some_or]
  · intro q t ht
    obtain hkept | ⟨hself, hemptied⟩ := h.source hcalm q
    · rw [hkept, ht]
    · rw [hemptied, ht, hspared hself q t ht]
      rfl

/-- What an exact copy writes into the source besides new entries was there already. -/
theorem ExactCopy.unchanged (h : ExactCopy S T fs fs') (hgrown : fs.Grown fs') {q : List Text}
    {old : Entry} (he : fs.entry (S ++ q) = some e) (hpre : S <+: T ++ q)
    (hold : fs.entry (T ++ q) = some old) : old = e := by
  have hkind := h.fits hgrown he old hold
  obtain ⟨p, hp⟩ := hpre
  cases old with
  | folder => exact (hkind.mp rfl).symm
  | file u =>
    have hkept := h.source p u (by rw [hp, hold])
    rw [hp, h.stored, he] at hkept
    exact (Option.some.inj hkept).symm

/-- The tree is copied and the copy is exact, whatever the recursion costs. -/
def TreeCopied (readdir : Readdir) (cwd : List Text) (e : Entry) (src dest : Text)
    (S T : List Text) (fs : FileSystem) : Prop :=
  ∃ N, ∀ fuel ≥ N, ∃ fs', copyTree readdir cwd fuel e src dest fs = some fs' ∧
    ExactCopy S T fs fs'

theorem copiesExactly_iff (hscan : scanCopySame buffer = some (src, dest))
    (hsrc : SourcePath src pre name) (hroom : Room src dest name [])
    (hstat : fs.stat cwd src = some e) :
    CopiesExactly readdir cwd buffer S T fs ↔
      TreeCopied readdir cwd e src (below dest [name]) S T fs := by
  have hrun : ∀ fuel, copySame readdir cwd fuel buffer fs =
      (copyTree readdir cwd fuel e src (below dest [name]) fs).map
        (fun fs' ↦ (fs', lit "Finished Copying\n")) :=
    fun fuel ↦ copySame_eq hscan hsrc hroom hstat
  constructor
  · rintro ⟨N, hN⟩
    refine ⟨N, fun fuel hfuel ↦ ?_⟩
    obtain ⟨fs', reply, hcopy, hexact⟩ := hN fuel hfuel
    rw [hrun, Option.map_eq_some_iff] at hcopy
    obtain ⟨fs₁, htree, hreply⟩ := hcopy
    obtain ⟨rfl, -⟩ := Prod.mk.inj hreply
    exact ⟨fs₁, htree, hexact⟩
  · rintro ⟨N, hN⟩
    refine ⟨N, fun fuel hfuel ↦ ?_⟩
    obtain ⟨fs', htree, hexact⟩ := hN fuel hfuel
    exact ⟨fs', lit "Finished Copying\n", by rw [hrun, htree]; rfl, hexact⟩

theorem Task.treeCopied (ht : Task cwd src dest name S T fs) (hlists : readdir.Lists)
    (he : fs.entry S = some e) (hc : Copyable src dest name S T fs) :
    TreeCopied readdir cwd e src (below dest [name]) S T fs := by
  obtain ⟨N, hN⟩ := ht.copyTree_merged hlists hc.calm hc.room hc.fits he
  refine ⟨N, fun fuel hfuel ↦ ?_⟩
  obtain ⟨fs', hrun, hm⟩ := hN fuel hfuel
  exact ⟨fs', hrun, hm.exactCopy hc.calm hc.spared⟩

/-- An exact copy writes nothing new into its source, unless it adds entries to a source below
the destination. -/
private theorem Task.calm_of_exact (ht : Task cwd src dest name S T fs) (hlists : readdir.Lists)
    (he : fs.entry S = some e)
    (hroom : ∀ q, fs.entry (S ++ q) ≠ none → ∀ w ∈ T, Room src dest name (q ++ [w]))
    (hadds : T <+: S → ∀ q, fs.entry (S ++ q) ≠ none → S <+: T ++ q → fs.entry (T ++ q) ≠ none)
    (hrun : copyTree readdir cwd fuel e src (below dest [name]) fs = some fs')
    (hexact : ExactCopy S T fs fs') : Calm S T fs := by
  intro q e' he' hpre
  by_cases hself : T = S
  · exact .inl hself
  · right
    obtain hinside | houtside := List.prefix_or_prefix_of_prefix hpre (List.prefix_append T q)
    · obtain ⟨r, hr⟩ := hinside
      have hne : r ≠ [] := by
        rintro rfl
        exact hself (by rw [← hr, List.append_nil])
      -- The source holds the folder of the destination.
      have hfolder : fs.entry S = some .folder := by
        have hparent := ht.parent
        rw [← hr, List.dropLast_append_of_ne_nil hne] at hparent
        by_cases hlast : r.dropLast = []
        · rwa [hlast, List.append_nil] at hparent
        · exact FileSystem.folder_of_append (by simp [hparent]) hlast
      obtain rfl : e = .folder := Option.some.inj (he.symm.trans hfolder)
      exact absurd hexact (ht.not_exact_inside hlists hr.symm hne hroom hrun)
    · obtain ⟨old, hold⟩ := Option.ne_none_iff_exists'.mp (hadds houtside q (by simp [he']) hpre)
      rw [hold, hexact.unchanged (copyTree_grown hrun) he' hpre hold]

theorem Task.copyable (ht : Task cwd src dest name S T fs) (hlists : readdir.Lists)
    (he : fs.entry S = some e)
    (hroom : ∀ q, fs.entry (S ++ q) ≠ none → ∀ w ∈ T, Room src dest name (q ++ [w]))
    (hadds : T <+: S → ∀ q, fs.entry (S ++ q) ≠ none → S <+: T ++ q → fs.entry (T ++ q) ≠ none)
    (hcopied : TreeCopied readdir cwd e src (below dest [name]) S T fs) :
    Copyable src dest name S T fs := by
  obtain ⟨N, hN⟩ := hcopied
  have hname : name ∈ T := by
    obtain ⟨D, -, -, hDT⟩ := ht.destination
    simp [hDT]
  have hfitting : ∀ q, fs.entry (S ++ q) ≠ none → Room src dest name q :=
    fun q hq ↦ (hroom q hq name hname).of_concat
  obtain ⟨fs₁, hrun₁, hexact₁⟩ := hN N (le_refl N)
  have hfits : ∀ q e, fs.entry (S ++ q) = some e → Fits fs (T ++ q) e :=
    fun q e hq ↦ hexact₁.fits (copyTree_grown hrun₁) hq
  have hcalm := ht.calm_of_exact hlists he hroom hadds hrun₁ hexact₁
  refine ⟨hfitting, hfits, hcalm, fun hself q t hq ↦ ?_⟩
  -- A file that is copied onto itself is empty afterwards.
  obtain ⟨M, hM⟩ := ht.copyTree_merged hlists hcalm hfitting hfits he
  obtain ⟨fs₂, hrun₂, hm⟩ := hM (max N M) (le_max_right N M)
  obtain ⟨fs₃, hrun₃, hexact⟩ := hN (max N M) (le_max_left N M)
  obtain rfl : fs₂ = fs₃ := Option.some.inj (hrun₂.symm.trans hrun₃)
  have hlost := hm.copied q trivial _ hq
  rw [hexact.stored, hq, Option.some_or, if_pos hself, emptied, Option.some.injEq,
    Entry.file.injEq] at hlost
  exact hlost

/-- A copy within a server runs to its end and is exact if the source is copyable. Conversely,
where the paths have room for one more name, only a copy that adds entries to a source below its
own destination may be exact although the source is not copyable. -/
theorem copy_same_exact_iff (hlists : readdir.Lists) (hfinite : fs.Finite)
    (hnamed : fs.WellNamed) (hscan : scanCopySame buffer = some (src, dest))
    (hsrc : SourcePath src pre name) (hexists : fs.stat cwd src ≠ none)
    (hdest : fs.stat cwd dest = some .folder) (hS : S = resolveFrom cwd src)
    (hT : T = resolveFrom cwd dest ++ [name]) :
    (Copyable src dest name S T fs → CopiesExactly readdir cwd buffer S T fs) ∧
      ((∀ q, fs.entry (S ++ q) ≠ none → ∀ w ∈ T, Room src dest name (q ++ [w])) →
        (T <+: S → ∀ q, fs.entry (S ++ q) ≠ none → S <+: T ++ q → fs.entry (T ++ q) ≠ none) →
        CopiesExactly readdir cwd buffer S T fs → Copyable src dest name S T fs) := by
  obtain ⟨e, hstat⟩ := Option.ne_none_iff_exists'.mp hexists
  obtain ⟨place, hplace, he⟩ := Option.bind_eq_some_iff.mp hstat
  obtain ⟨D, hD, hfolder⟩ := Option.bind_eq_some_iff.mp hdest
  obtain rfl : place = S := (FileSystem.locate_eq hplace).trans hS.symm
  have hDT : T = D ++ [name] := by rw [hT, ← FileSystem.locate_eq hD]
  have ht : Task cwd src dest name place T fs :=
    ⟨hplace, by simp [he], ⟨D, hD, hfolder, hDT⟩, hsrc.name, hfinite, hnamed⟩
  have hpresent : fs.entry (place ++ []) ≠ none := by simp [he]
  constructor
  · intro hc
    exact (copiesExactly_iff hscan hsrc (hc.room [] hpresent) hstat).mpr (ht.treeCopied hlists he hc)
  · intro hroom hadds hcopied
    have hfirst : Room src dest name [] := (hroom [] hpresent name (by simp [hDT])).of_concat
    apply ht.copyable hlists he hroom hadds
    exact (copiesExactly_iff hscan hsrc hfirst hstat).mp hcopied

end Copies

/-- A folder `s` with the folder `a`, in which there is the file `f`, and next to it a folder `d`. -/
private def sampleDisk : FileSystem :=
  (((FileSystem.empty.put [] (lit "d") .folder FileSystem.empty.top (fun _ ↦ rfl)).put
    [] (lit "s") .folder (by decide) (fun _ ↦ rfl)).put
    [lit "s"] (lit "a") .folder (by decide) (fun _ ↦ rfl)).put
    [lit "s", lit "a"] (lit "f") (.file (lit "hi")) (by decide) (by decide)

private theorem sampleDisk_finite : sampleDisk.Finite :=
  FileSystem.finite_put (FileSystem.finite_put (FileSystem.finite_put (FileSystem.finite_put
    FileSystem.finite_empty _ _) _ _) _ _) _ _

private theorem fileName_single {b : UInt8} (h : b ≠ 46 ∧ b ≠ 47 ∧ b ≠ 0) : FileName [b] := by
  refine ⟨by simp, ?_, ?_, ?_, ?_⟩
  · simpa [slash] using Ne.symm h.2.1
  · simpa using Ne.symm h.2.2
  · simpa [lit] using h.1
  · simp [lit]

private theorem sampleDisk_wellNamed : sampleDisk.WellNamed :=
  FileSystem.wellNamed_put (FileSystem.wellNamed_put (FileSystem.wellNamed_put
    (FileSystem.wellNamed_put FileSystem.wellNamed_empty (fileName_single (by decide)) _ _)
    (fileName_single (by decide)) _ _) (fileName_single (by decide)) _ _)
    (fileName_single (by decide)) _ _

private theorem sampleDisk_source {q : List Text} {e : Entry}
    (h : sampleDisk.entry ([lit "s", lit "a"] ++ q) = some e) :
    (q = [] ∧ e = .folder) ∨ (q = [lit "f"] ∧ e = .file (lit "hi")) := by
  by_cases hf : q = [lit "f"]
  · subst hf
    exact .inr ⟨rfl, (Option.some.inj h).symm⟩
  · rw [sampleDisk, FileSystem.put_of_ne _ _ (by simpa using hf)] at h
    by_cases hnil : q = []
    · subst hnil
      exact .inl ⟨rfl, (Option.some.inj h).symm⟩
    · rw [FileSystem.put_of_ne _ _ (by simpa using hnil), FileSystem.put_of_ne _ _ (by simp),
        FileSystem.put_of_ne _ _ (by simp)] at h
      simp [FileSystem.empty] at h

private theorem sampleDisk_copyable :
    Copyable (lit "./s/a") (lit "./d") (lit "a") [lit "s", lit "a"] [lit "d", lit "a"]
      sampleDisk := by
  have hapart : ∀ q, ¬ [lit "s", lit "a"] <+: [lit "d", lit "a"] ++ q := by
    rintro q ⟨r, hr⟩
    simp [lit] at hr
  have hfree : ∀ q, q = [] ∨ q = [lit "f"] →
      sampleDisk.entry ([lit "d", lit "a"] ++ q) = none ∧
        Room (lit "./s/a") (lit "./d") (lit "a") q := by
    rintro q (rfl | rfl)
    · exact ⟨by decide, by decide, by decide⟩
    · exact ⟨by decide, by decide, by decide⟩
  have hplace : ∀ q e, sampleDisk.entry ([lit "s", lit "a"] ++ q) = some e →
      q = [] ∨ q = [lit "f"] := by
    intro q e he
    obtain ⟨rfl, -⟩ | ⟨rfl, -⟩ := sampleDisk_source he
    · exact .inl rfl
    · exact .inr rfl
  constructor
  · intro q hq
    obtain ⟨e, he⟩ := Option.ne_none_iff_exists'.mp hq
    exact (hfree q (hplace q e he)).2
  · intro q e he old hold
    rw [(hfree q (hplace q e he)).1] at hold
    cases hold
  · exact fun q e _ hpre ↦ absurd hpre (hapart q)
  · exact fun hself ↦ absurd hself (by decide)

/-- The folder `./s/a` is copied into `./d`. -/
theorem copy_same_exact_sample :
    CopiesExactly Readdir.arbitrary [] (lit "copysame ./s/a ./d") [lit "s", lit "a"] [lit "d", lit "a"]
      sampleDisk := by
  have hsrc : SourcePath (lit "./s/a") (lit "./s") (lit "a") :=
    ⟨rfl, by decide, fileName_single (by decide)⟩
  have hdest : sampleDisk.stat [] (lit "./d") = some .folder := by decide
  exact (copy_same_exact_iff Readdir.arbitrary_lists sampleDisk_finite sampleDisk_wellNamed
    (by decide) hsrc (by decide) hdest (by decide) (by decide)).1 sampleDisk_copyable

/-- A folder `s` with the file `a`. -/
private def loneFile : FileSystem :=
  (FileSystem.empty.put [] (lit "s") .folder FileSystem.empty.top (fun _ ↦ rfl)).put
    [lit "s"] (lit "a") (.file (lit "hi")) (by decide) (by decide)

/-- A file that is copied into the folder it is in is truncated before it is read. -/
theorem copy_onto_itself_empties :
    ¬ ∀ (readdir : Readdir) (cwd : List Text) (buffer src pre dest name : Text) (fs : FileSystem),
      readdir.Lists → fs.Finite → fs.WellNamed → scanCopySame buffer = some (src, dest) →
      SourcePath src pre name → fs.stat cwd src ≠ none → fs.stat cwd dest = some .folder →
      CopiesExactly readdir cwd buffer (resolveFrom cwd src) (resolveFrom cwd dest ++ [name]) fs := by
  intro hall
  have hsrc : SourcePath (lit "./s/a") (lit "./s") (lit "a") :=
    ⟨rfl, by decide, fileName_single (by decide)⟩
  have hfinite : loneFile.Finite :=
    FileSystem.finite_put (FileSystem.finite_put FileSystem.finite_empty _ _) _ _
  have hnamed : loneFile.WellNamed :=
    FileSystem.wellNamed_put (FileSystem.wellNamed_put FileSystem.wellNamed_empty
      (fileName_single (by decide)) _ _) (fileName_single (by decide)) _ _
  have hstat : loneFile.stat [] (lit "./s/a") = some (.file (lit "hi")) := by decide
  have hscan : scanCopySame (lit "copysame ./s/a ./s") = some (lit "./s/a", lit "./s") := by
    decide
  have hroom : Room (lit "./s/a") (lit "./s") (lit "a") [] := ⟨by decide, by decide⟩
  obtain ⟨N, hN⟩ := (copiesExactly_iff hscan hsrc hroom hstat).mp
    (hall .arbitrary [] _ _ _ _ _ loneFile Readdir.arbitrary_lists hfinite hnamed hscan hsrc (by decide)
      (by decide))
  obtain ⟨fs', hrun, hexact⟩ := hN (N + 3) (by omega)
  have hkept := hexact.source [] (lit "hi") (by decide)
  have hlocate : loneFile.locate [] (lit "./s/a") = some [lit "s", lit "a"] := by decide
  have hlocate' : loneFile.locate [] (below (lit "./s") [lit "a"]) = some [lit "s", lit "a"] := by
    decide
  have hfits : Fits loneFile [lit "s", lit "a"] (.file (lit "hi")) := by
    intro old hold
    have hold' : old = .file (lit "hi") := (Option.some.inj hold).symm
    simp [hold']
  have hlen : (lit "hi").length < N + 3 := by
    have htwo : (lit "hi").length = 2 := by decide
    omega
  obtain ⟨fs₁, hcopy, hentry⟩ := copyFile_eq hlocate (by decide) hlocate' (by decide) (by decide)
    hfits hlen
  obtain rfl : fs₁ = fs' := Option.some.inj (hcopy.symm.trans hrun)
  have hplace : resolveFrom [] (lit "./s/a") ++ [] = [lit "s", lit "a"] := by decide
  rw [hplace, hentry, Function.update_self, if_pos rfl] at hkept
  exact absurd hkept (by decide)

end NetworkFileSystem.Transfer
