import NetworkFileSystem.Naming.Containment
import NetworkFileSystem.Naming.Slots
import NetworkFileSystem.Naming.Tables

/-!
# Root folders

`naming_server.c:105–173,917–1037`, `tries.c:256–279`, `README.md:235–244`. The naming
server reads the name of a root folder from its slot wherever it needs it, and never checks
the slot. It stays filled as long as no storage server confirms a removal of its folder or of
one above it, and every index names a folder.
-/

namespace NetworkFileSystem.Naming

open Base Protocol Trie TrieNode Prog

/-- The tables, with the root name that each entry had when its server registered. -/
structure Roster where
  tables : NsState
  recorded : List (Option Text)

namespace Roster

/-- The naming server before any registration. -/
def initial : Roster := ⟨.initial, []⟩

/-- A registration of a server whose root path has passed `validate_path`, a client command with
any answers, or a write notification, restricted by conditions on the first two. -/
inductive Step (admits : NsState → Registration → Prop)
    (allows : NsState → Text → List NsEvent → Prop) : Roster → Roster → Prop where
  | register {c : Roster} {st' : NsState} {rootPath : Text} {r : Registration}
      {tr : List NsEvent} : lit "./" <+: rootPath → ReportsBelow rootPath r.segments →
      admits c.tables r → Exec (r.register c.tables) tr (some st') →
      Step admits allows c ⟨st', if c.tables.roots.length < st'.roots.length then
        c.recorded ++ [r.name] else c.recorded⟩
  | command {c : Roster} {st' : NsState} {line : Text} {tr : List NsEvent} :
      allows c.tables line tr → Exec (processClient c.tables line) tr (some st') →
      Step admits allows c ⟨st', c.recorded⟩
  | notify {c : Roster} {st' : NsState} {line : Text} {tr : List NsEvent} :
      Exec (listenAsync c.tables line) tr (some st') → Step admits allows c ⟨st', c.recorded⟩

/-- Every counted entry has the root name recorded for it in its slot. -/
def RootsSurvive (c : Roster) : Prop :=
  ∀ i < c.tables.storageServerIndex,
    ∃ name, c.recorded[i]? = some (some name) ∧ c.tables.rootName i = some name

end Roster

/-- A run of a client command in which `DeletePath` is called with `path`, line 1031: the server
of the path has confirmed its removal. -/
def DeletesPath (line : Text) (tr : List NsEvent) (path : Text) : Prop :=
  ∃ command rest, words line = command :: path :: rest ∧
    (command = lit "rmdir" ∨ command = lit "rm") ∧ Confirmed tr

/-- In a run of a client command, `DeletePath` is called with some component. -/
def DeletesComponents (line : Text) (tr : List NsEvent) : Prop :=
  ∀ path, DeletesPath line tr path → components path ≠ []

/-- The name that the index of a server gives its exported folder. -/
def Registration.exported (r : Registration) : Option Text :=
  exportedName ((indexedLines r.segments []).map components)

/-- The index names a folder, and there is room for the server unless it is known. -/
structure Admits (st : NsState) (r : Registration) : Prop where
  named : r.exported ≠ none
  room : st.storageServerIndex < maxStorageServers ∨ r.exported ∈ st.names

/-- No server confirms the removal of its root folder or of one above it, and a new index names
the root folder of its server. -/
structure Spares (st : NsState) (line : Text) (tr : List NsEvent) : Prop where
  removal : ∀ path i root, DeletesPath line tr path → st.resolve path = some i →
    st.roots[i]? = some root → ¬ TowardsRoot root (components path)
  reindex : ∀ j segments, (⟨.recvIndex j, segments⟩ : NsEvent) ∈ tr →
    exportedName ((indexedLines segments []).map components) = st.rootName j

/-! ### The slots -/

/-- The slots carry the recorded names, and cached indices are registered. -/
structure Roster.Kept (c : Roster) : Prop where
  names : c.tables.names = c.recorded
  filled : none ∉ c.recorded
  counter : c.recorded.length = c.tables.storageServerIndex
  indexed : c.tables.Indexed

/-- A trie with the same name in its slot leaves the names as they are. -/
theorem names_set {st st' : NsState} {i : Nat} {n m : TrieNode} (hi : st.roots[i]? = some n)
    (hname : nameOf m = nameOf n) (hroots : st'.roots = st.roots.set i m) :
    st'.names = st.names := by
  rw [NsState.names, hroots, List.map_set, hname]
  apply List.ext_getElem?
  intro j
  rw [List.getElem?_set]
  split_ifs with hij hlt
  · rw [NsState.names, List.getElem?_map, ← hij, hi, Option.map_some]
  · rw [NsState.names, List.getElem?_eq_none (by rw [List.length_map] at hlt ⊢; omega)]
  · rfl

theorem LooksUp.roots {st st' : NsState} (h : Relation.ReflTransGen LooksUp st st') :
    st'.roots = st.roots := by
  induction h with
  | refl => rfl
  | tail _ hstep ih => exact hstep.1.trans ih

namespace Roster.Kept

variable {c : Roster}

theorem start : Roster.initial.Kept := by
  constructor <;> simp [Roster.initial, NsState.initial, NsState.names, NsState.roots,
    NsState.Indexed]

/-- The name in the slot of a registered trie. -/
theorem nameOf_root (h : c.Kept) {i : Nat} {n : TrieNode} (hi : c.tables.roots[i]? = some n) :
    ∃ name, nameOf n = some name := by
  have hmem : nameOf n ∈ c.recorded := by
    rw [← h.names, NsState.names]
    exact List.mem_map_of_mem (List.mem_of_getElem? hi)
  exact Option.ne_none_iff_exists'.mp fun hnone ↦ h.filled (hnone ▸ hmem)

/-- The recorded names are in the slots. -/
theorem survive (h : c.Kept) : c.RootsSurvive := by
  intro i hi
  have hlt : i < c.recorded.length := h.counter ▸ hi
  have hrec := List.getElem?_eq_getElem hlt
  obtain ⟨name, hname⟩ := Option.ne_none_iff_exists'.mp fun hnone ↦
    h.filled (hnone ▸ List.getElem_mem hlt)
  rw [hname] at hrec
  exact ⟨name, hrec, by rw [NsState.rootName_eq_names, h.names, hrec]; rfl⟩

theorem of_names (h : c.Kept) {st' : NsState} (hnames : st'.names = c.tables.names)
    (hskeleton : st'.skeleton = c.tables.skeleton) (hindexed : st'.Indexed) :
    Kept ⟨st', c.recorded⟩ :=
  ⟨hnames.trans h.names, h.filled, h.counter.trans (congrArg Prod.snd hskeleton).symm, hindexed⟩

theorem registered (h : c.Kept) {r : Registration} {tr : List NsEvent} {st' : NsState}
    (hadmits : Admits c.tables r) (hindexed : st'.Indexed) (hr : Registered c.tables r tr st') :
    Kept ⟨st', if c.tables.roots.length < st'.roots.length then c.recorded ++ [r.name]
      else c.recorded⟩ := by
  cases hr with
  | revived hi hname =>
    rw [roots_revive, if_neg (Nat.lt_irrefl _)]
    exact ⟨(names_revive _ _ _).trans h.names, h.filled, h.counter, hindexed⟩
  | full hfresh hfull =>
    obtain hroom | hknown := hadmits.room
    · omega
    · obtain ⟨root, hroot, hname⟩ := List.mem_map.mp hknown
      obtain ⟨hnamed, -, hne⟩ := hfresh root hroot
      obtain ⟨root', hroot'⟩ : ∃ root', r.root = some root' :=
        Option.ne_none_iff_exists'.mp fun hnone ↦ hnamed (by rw [Registration.name, hnone]; rfl)
      exact absurd (hname.trans (Registration.name_eq hroot').symm) hne
  | @added root st₁ _ hroot hfresh hroom hst hx =>
    subst hst
    have hlonger : c.tables.roots.length < (c.tables.added r root).roots.length := by
      rw [roots_added, List.length_append]
      exact Nat.lt_succ_self _
    have hnamed : r.name ≠ none := by
      rw [Registration.name_eq hroot]
      exact hadmits.named
    have hkept : Kept ⟨{ c.tables.added r root with
        storageServerIndex := c.tables.storageServerIndex + 1 }, c.recorded ++ [r.name]⟩ := by
      constructor
      · exact (names_added hroot).trans (congrArg (· ++ [r.name]) h.names)
      · simp [h.filled, hnamed.symm]
      · rw [List.length_append, h.counter]
        rfl
      · exact hindexed
    exact (congrArg (fun names ↦ Kept ⟨_, names⟩) (if_pos hlonger)).mpr hkept

/-- The trie behind a confirmed command has the name in its slot that it had before. -/
theorem entry (h : c.Kept) {e : EntryChange} {st' : NsState} {tr : List NsEvent}
    (hr : EntryResult e c.tables tr st')
    (hop : ∀ (i : Nat) (n m : TrieNode) (f : Text), c.tables.resolve e.lookup = some i →
      c.tables.roots[i]? = some n → Confirmed tr → e.trieOp n = some m → nameOf n = some f →
      nameOf m = some f) : st'.names = c.tables.names := by
  have hsame : st'.roots = c.tables.roots → st'.names = c.tables.names :=
    fun hroots ↦ congrArg (List.map nameOf) hroots
  cases hr with
  | invalid hroots _ => exact hsame hroots
  | unknown hroots _ _ => exact hsame hroots
  | failed _ _ hroots _ _ => exact hsame hroots
  | done _ hk hn hm hroots _ hconf =>
    obtain ⟨f, hf⟩ := h.nameOf_root hn
    exact names_set hn ((hop _ _ _ f hk hn hconf hm hf).trans hf.symm) hroots

/-- A client command that spares the root folders keeps the names. -/
theorem client (h : c.Kept) {line : Text} {tr : List NsEvent} {st' : NsState}
    (hspares : Spares c.tables line tr) (hr : ClientResult c.tables line tr st') :
    st'.names = c.tables.names := by
  cases hr with
  | looked hl => exact congrArg (List.map nameOf) (LooksUp.roots hl)
  | @made _ path _ _ _ hr =>
    refine h.entry hr fun i n m f _ _ _ hm hf ↦ ?_
    obtain ⟨ws, -, rfl⟩ := Option.map_eq_some_iff.mp hm
    exact nameOf_addLoop hf ws
  | @removed command path rest hw hc hr =>
    refine h.entry hr fun i n m f hi hn hconf hm hf ↦ ?_
    have hkeeps := hspares.removal path i n ⟨command, rest, hw, hc, hconf⟩ hi hn
    obtain ⟨ws, hws, hdelete⟩ := Option.bind_eq_some_iff.mp (show deletePath path n = some m from hm)
    obtain rfl := (length_of_parsePath hws).2
    split at hdelete
    · exact nameOf_deleteLoop hf hdelete hkeeps
    · exact Option.some.inj hdelete ▸ hf
  | @copied _ _ _ _ _ _ j segments root _ _ _ _ _ _ _ _ hseg hi hroots _ =>
    have hindex := congrArg (Option.map Prod.fst) hi
    rw [indexHelper_eq] at hindex
    have hname := (nameOf_index (childeren_createNode _) hindex).trans
      (hspares.reindex j segments hseg)
    cases hj : c.tables.roots[j]? with
    | some n =>
      refine names_set hj (hname.trans ?_) hroots
      rw [NsState.rootName_eq_names, NsState.names, List.getElem?_map, hj]
      rfl
    | none =>
      rw [List.set_eq_of_length_le (List.getElem?_eq_none_iff.mp hj)] at hroots
      exact congrArg (List.map nameOf) hroots

theorem step (h : c.Kept) {c' : Roster} (hs : Step Admits Spares c c') : c'.Kept := by
  cases hs with
  | register _ _ hadmits hx =>
    exact h.registered hadmits (indexed_register hx h.indexed) (exec_register hx)
  | command hspares hx =>
    have hrun := exec_processClient hx
    exact h.of_names (h.client hspares hrun.result) hrun.skeleton (hrun.result.indexed h.indexed)
  | notify hx =>
    have hlooked := listenAsync_result hx
    exact h.of_names (congrArg (List.map nameOf) (LooksUp.roots hlooked)) (listenAsync_skeleton hx)
      (LooksUp.indexed hlooked h.indexed)

end Roster.Kept

/-! ### Calls of `DeletePath` -/

/-- A confirmed command has found the server of its path. -/
theorem EntryRun.resolves {e : EntryChange} {st : NsState} {line command path : Text}
    {tr : List NsEvent} {out : Option NsState} (h : EntryRun e st line command path tr out)
    (hconf : Confirmed tr) : ∃ i, st.resolve e.lookup = some i := by
  have hfound : ∀ {t : List NsEvent} {i : Nat} {st₁ : NsState},
      Exec (searchStorageServer st e.lookup) t (some (some i, st₁)) →
      ∃ i, st.resolve e.lookup = some i := fun hl ↦ ⟨_, (exec_lookup hl).2.1.symm⟩
  cases h with
  | invalid _ => exact absurd hconf (by simp [Confirmed])
  | overruns _ _ => exact absurd hconf (by simp [Confirmed])
  | unknown _ hl =>
    exact absurd hconf (not_confirmed_of_pings (exec_lookup hl).1 (by simp [Confirmed]))
  | overlong _ hl _ => exact hfound hl
  | down _ hl _ => exact hfound hl
  | unsent _ hl => exact hfound hl
  | unanswered _ hl => exact hfound hl
  | refused _ hl _ _ => exact hfound hl
  | carriedOut _ hl _ _ _ => exact hfound hl

/-- When `DeletePath` is called, the server of its path was found. -/
theorem DeletesPath.resolves {st : NsState} {line path : Text} {tr : List NsEvent}
    {out : Option NsState} (h : DeletesPath line tr path)
    (hx : Exec (processClient st line) tr out) : ∃ i, st.resolve path = some i := by
  obtain ⟨command, rest, hw, hc, hconf⟩ := h
  have hverbs : ∀ p ∈ [lit "ls", lit "copy", lit "write"],
      blank ∉ p ∧ p ≠ [] ∧ startsWith p command = false := by
    rcases hc with rfl | rfl <;> decide
  have hverb : ∀ p ∈ [lit "ls", lit "copy", lit "write"], startsWith p line = false := by
    intro p hp
    obtain ⟨hblank, hne, hcommand⟩ := hverbs p hp
    by_contra hstart
    rw [Bool.not_eq_false] at hstart
    exact absurd (startsWith_of_words hblank hne hstart hw) (Bool.eq_false_iff.mp hcommand)
  cases exec_processClient hx with
  | listing hlist _ =>
    have hls : startsWith (lit "ls") line = true := by
      obtain hl | hl := (Bool.or_eq_true _ _).mp hlist
      · rw [eq_of_beq hl]
        decide
      · rw [eq_of_beq hl]
        decide
    exact absurd hls (Bool.eq_false_iff.mp (hverb _ (by simp)))
  | copy _ hcopy _ => exact absurd hcopy (Bool.eq_false_iff.mp (hverb _ (by simp)))
  | pathless _ _ _ => exact absurd hconf (by simp [Confirmed])
  | writeStops _ _ _ _ hwrite _ => exact absurd hwrite (Bool.eq_false_iff.mp (hverb _ (by simp)))
  | write _ _ _ _ hwrite _ _ => exact absurd hwrite (Bool.eq_false_iff.mp (hverb _ (by simp)))
  | make _ _ hw' _ _ hc' _ =>
    obtain ⟨rfl, -⟩ := List.cons.inj (hw.symm.trans hw')
    exact absurd hc' (by rcases hc with rfl | rfl <;> decide)
  | remove _ _ hw' _ _ _ hr =>
    obtain ⟨-, htail⟩ := List.cons.inj (hw.symm.trans hw')
    obtain ⟨rfl, -⟩ := List.cons.inj htail
    exact hr.resolves hconf
  | read _ _ hw' _ _ _ hc' _ =>
    obtain ⟨rfl, -⟩ := List.cons.inj (hw.symm.trans hw')
    exact absurd hc hc'

/-- Root folder protection: as long as every index names a folder, there is room for every new
name, and no server confirms the removal of its root folder or of one above it, the slot of
every entry carries its recorded name, and `DeletePath` is called with components only. -/
theorem root_folders_survive {c : Roster}
    (h : Reachable (fun s ↦ s = Roster.initial) (Roster.Step Admits Spares) c) :
    c.RootsSurvive ∧ ∀ line tr out, Exec (processClient c.tables line) tr out →
      Spares c.tables line tr → DeletesComponents line tr := by
  have hkept : c.Kept := by
    refine h.invariant (I := Roster.Kept) ?_ (fun _ _ hI hs ↦ hI.step hs)
    rintro _ rfl
    exact .start
  refine ⟨hkept.survive, fun line tr out hx hspares path hdelete hnone ↦ ?_⟩
  obtain ⟨i, hi⟩ := hdelete.resolves hx
  have hroot := List.getElem?_eq_getElem (hkept.indexed.resolve hi)
  obtain ⟨name, hname⟩ := hkept.nameOf_root hroot
  obtain ⟨top, folder, htop, hfolder, -⟩ := nameOf_eq_some.mp hname
  exact hspares.removal path i _ hdelete hi hroot ⟨top, folder, htop, hfolder, hnone ▸
    List.nil_prefix⟩

/-! ### Two removals -/

/-- A server that exports `./s` with one folder in it. -/
private def folderServer : Registration :=
  ⟨4, lit "10.0.0.1", 4000, [lit "./s\n./s/a\n@!-Finished Indexing-!@\n"]⟩

private theorem folderServer_reports : ReportsBelow (lit "./s") folderServer.segments := by
  have hl : indexedLines folderServer.segments [] = [lit "./s", lit "./s/a"] := by decide
  intro l hmem
  rw [hl, List.mem_cons, List.mem_singleton] at hmem
  obtain rfl | rfl := hmem
  · exact .inl rfl
  · exact .inr ⟨lit "a", by decide⟩

/-- The server has confirmed `line`. -/
private def confirmedBy (line answer : Text) : List NsEvent :=
  [⟨.ping 0, PingResult.up⟩, ⟨.forward 0 line, true⟩, ⟨.recvServer 0, some answer⟩,
    ⟨.sendClient answer, true⟩]

private theorem reachable_of_removal (admits : NsState → Registration → Prop)
    (allows : NsState → Text → List NsEvent → Prop) (line answer : Text) (name : Option Text)
    (hadmits : admits .initial folderServer)
    (hallows : ∀ st, allows st line (confirmedBy line answer))
    (hrun : ((folderServer.register .initial).replay []).join.bind (fun st ↦
      ((processClient st line).replay (confirmedBy line answer)).join.map
        (fun st' ↦ (st'.storageServerIndex, st'.rootName 0))) = some (1, name)) :
    ∃ c, Reachable (fun s ↦ s = Roster.initial) (Roster.Step admits allows) c ∧
      c.tables.storageServerIndex = 1 ∧ c.tables.rootName 0 = name := by
  obtain ⟨st, hst, hrest⟩ := Option.bind_eq_some_iff.mp hrun
  obtain ⟨st', hst', hfacts⟩ := Option.map_eq_some_iff.mp hrest
  obtain ⟨hindex, hname⟩ := Prod.mk.inj hfacts
  have hregister : Roster.Step admits allows .initial _ :=
    .register (by decide) folderServer_reports hadmits
      (exec_of_replay (Option.join_eq_some_iff.mp hst))
  have hremove : ∀ recorded, Roster.Step admits allows ⟨st, recorded⟩ ⟨st', recorded⟩ :=
    fun _ ↦ .command (hallows st) (exec_of_replay (Option.join_eq_some_iff.mp hst'))
  exact ⟨_, .next (.next (.start rfl) hregister) (hremove _), hindex, hname⟩

/-- The folder below the root folder is removed, and the root folder stays. -/
theorem root_folders_survive_rmdir :
    ∃ c, Reachable (fun s ↦ s = Roster.initial) (Roster.Step Admits Spares) c ∧
      c.tables.storageServerIndex = 1 ∧ c.RootsSurvive := by
  have hspares : ∀ st, Spares st (lit "rmdir ./s/a")
      (confirmedBy (lit "rmdir ./s/a") (lit "Deleted folder @ ./s/a\n")) := by
    intro st
    constructor
    · rintro path i root ⟨command, rest, hw, -⟩ - - ⟨top, folder, -, -, hpre⟩
      have hwords : words (lit "rmdir ./s/a") = [lit "rmdir", lit "./s/a"] := by decide
      rw [hwords, List.cons.injEq, List.cons.injEq] at hw
      obtain ⟨-, rfl, -⟩ := hw
      have hthree : (components (lit "./s/a")).length = 3 := by decide
      have htwo : (components (lit "./s/a")).length ≤ 2 := hpre.length_le
      omega
    · simp [confirmedBy]
  have hadmits : Admits .initial folderServer := ⟨by decide, .inl (by decide)⟩
  obtain ⟨c, hreach, hone, -⟩ := reachable_of_removal Admits Spares
    (lit "rmdir ./s/a") (lit "Deleted folder @ ./s/a\n") (some (lit "s")) hadmits hspares (by decide +kernel)
  exact ⟨c, hreach, hone, (root_folders_survive hreach).1⟩

/-- A client's `rmdir ./s` empties the slot of the server of `./s`. -/
theorem root_folder_is_removed :
    ¬ ∀ c, Reachable (fun s ↦ s = Roster.initial)
        (Roster.Step (fun _ _ ↦ True) (fun _ _ _ ↦ True)) c →
      c.RootsSurvive ∧ ∀ line tr out, Exec (processClient c.tables line) tr out →
        DeletesComponents line tr := by
  intro hall
  obtain ⟨c, hreach, hone, hnone⟩ := reachable_of_removal (fun _ _ ↦ True) (fun _ _ _ ↦ True)
    (lit "rmdir ./s") (lit "Deleted folder @ ./s\n") none trivial (fun _ ↦ trivial)
    (by decide +kernel)
  obtain ⟨name, -, hname⟩ := (hall c hreach).1 0 (by omega)
  rw [hnone] at hname
  cases hname

end NetworkFileSystem.Naming
