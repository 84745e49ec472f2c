import NetworkFileSystem.Client.RootListing
import NetworkFileSystem.Cluster.Mirror
import NetworkFileSystem.Trie.ReadBack

/-!
# What a listing of the roots shows

`naming_server.c:738–753`, `tries.c:15–34,170–223`, `client.c:406–418`. The drawing of a server
starts in the first slot below the first slot of its trie. There the exported folder is, or
nothing once the folder has been removed. So whoever reads the listing that a client prints finds
what exists on the disks.
-/

namespace NetworkFileSystem.Cluster

open Base Protocol Trie Trie.TrieNode Naming Storage Client Prog

/-! ### The first slots -/

/-- The exported folder has the first slot below the first slot, and nothing else is there. -/
def OnlyRoot (n : TrieNode) (name : Text) : Prop :=
  ∃ top, n.childeren firstSlot = some top ∧ top.data = lit "." ∧
    ∀ j c, top.childeren j = some c → j = firstSlot ∧ c.data = name

section Slots

variable {n m c : TrieNode} {name : Text} {ws : List Text} {j k : Fin maxFolders}

/-- An insertion keeps the names of the other slots. -/
private theorem childeren_of_setChild {d : TrieNode}
    (h : (n.setChild j (some d)).childeren k = some c) : k = j ∧ c = d ∨ k ≠ j ∧ n.childeren k = some c := by
  rw [childeren_setChild] at h
  by_cases hkj : k = j
  · subst hkj
    rw [Function.update_self] at h
    exact .inl ⟨rfl, (Option.some.inj h).symm⟩
  · rw [Function.update_of_ne hkj] at h
    exact .inr ⟨hkj, h⟩

theorem OnlyRoot.addLoop (h : OnlyRoot n name) (ws : List Text) :
    OnlyRoot (addLoop (lit "." :: name :: ws) n) name := by
  obtain ⟨top, htop, hdot, honly⟩ := h
  rw [addLoop_firstSlot htop hdot]
  refine ⟨Trie.addLoop (name :: ws) top, by simp, by rw [data_addLoop, hdot], fun k c hk ↦ ?_⟩
  cases hfolder : top.childeren firstSlot with
  | some folder =>
    have hname := (honly _ _ hfolder).2
    rw [addLoop_firstSlot hfolder hname] at hk
    obtain ⟨rfl, rfl⟩ | ⟨-, hk⟩ := childeren_of_setChild hk
    · exact ⟨rfl, (data_addLoop ws folder).trans hname⟩
    · exact honly k c hk
  | none =>
    have hempty : ∀ j, top.childeren j = none := by
      intro j
      cases hj : top.childeren j with
      | none => rfl
      | some c =>
        obtain ⟨rfl, -⟩ := honly j c hj
        cases hfolder.symm.trans hj
    have hfind : top.findSlot name = none :=
      (top.findSlot_eq_none name).mpr (fun j c hj ↦ by simp [hempty j] at hj)
    have hfree : top.freeSlot = some firstSlot := find_firstSlot (by simp [hempty])
    simp only [Trie.addLoop, hfind, hfree, childeren_markFolder] at hk
    obtain ⟨rfl, rfl⟩ | ⟨-, hk⟩ := childeren_of_setChild hk
    · exact ⟨rfl, data_addLoop ws _⟩
    · exact honly k c hk

/-- What a deletion leaves in a slot has the name of what was in it. -/
theorem childeren_of_deleteLoop (h : deleteLoop ws n = some m) (hk : m.childeren k = some c) :
    ∃ d, n.childeren k = some d ∧ c.data = d.data := by
  match ws with
  | [] => cases h
  | [w] =>
    simp only [deleteLoop, Option.some.injEq] at h
    subst h
    split at hk
    · next j hj =>
      rw [childeren_setChild] at hk
      by_cases hkj : k = j
      · subst hkj
        rw [Function.update_self] at hk
        cases hk
      · rw [Function.update_of_ne hkj] at hk
        exact ⟨c, hk, rfl⟩
    · exact ⟨c, hk, rfl⟩
  | w :: w' :: us =>
    simp only [deleteLoop] at h
    split at h
    · next j hj =>
      obtain ⟨d, hd, -⟩ := findSlot_some hj
      obtain ⟨c', hc', rfl⟩ := Option.map_eq_some_iff.mp h
      rw [hd, Option.bind_some] at hc'
      obtain ⟨rfl, rfl⟩ | ⟨-, hk⟩ := childeren_of_setChild hk
      · exact ⟨d, hd, data_deleteLoop hc'⟩
      · exact ⟨c, hk, rfl⟩
    · cases h
      exact ⟨c, hk, rfl⟩

theorem OnlyRoot.deleteLoop (h : OnlyRoot n name) (hws : ws ≠ [])
    (hm : deleteLoop (lit "." :: ws) n = some m) : OnlyRoot m name := by
  obtain ⟨top, htop, hdot, honly⟩ := h
  have hne : lit "." :: ws ≠ [top.data] := by
    intro heq
    exact hws (List.cons.inj heq).2
  obtain hsame | ⟨us, top', -, htop', hslot⟩ := childeren_deleteLoop hm htop hne
  · exact ⟨top, hsame, hdot, honly⟩
  · refine ⟨top', hslot, (data_deleteLoop htop').trans hdot, fun k c hk ↦ ?_⟩
    obtain ⟨d, hd, hdata⟩ := childeren_of_deleteLoop htop' hk
    obtain ⟨hfirst, hname⟩ := honly k d hd
    exact ⟨hfirst, hdata.trans hname⟩

/-- The trie of a server that has registered. -/
theorem Mirrors.onlyRoot {s : SsState} (h : Mirrors n s) (hn : NamesRoot n (rootName s)) :
    OnlyRoot n (rootName s) := by
  obtain ⟨top, folder, htop, hdot, hfolder, hname⟩ := hn
  refine ⟨top, htop, hdot, fun k c hk ↦ ?_⟩
  have hnode : nodeAt n [firstSlot, k] = some c := by
    rw [nodeAt_cons htop, nodeAt_cons hk]
    rfl
  have hshown : namesAt n [firstSlot, k] ∈ shown s := h.paths ▸ h.distinct.namesAt_mem_paths hnode
  rw [namesAt_cons htop, namesAt_cons hk, hdot] at hshown
  have hdata : c.data = rootName s := by
    obtain hnil | hone | ⟨p, ⟨hroot, -⟩, hp⟩ := hshown
    · cases hnil
    · cases (List.cons.inj hone).2
    · rw [← (List.cons.inj hp).2] at hroot
      exact (List.cons.inj (hroot.eq_of_length rfl)).1.symm
  exact ⟨(h.distinct.childeren htop).inj hk hfolder (hdata.trans hname.symm), hdata⟩

/-- A drawing of the exported folder shows what a server exports. -/
theorem Mirrors.mem_exported {s : SsState} (h : Mirrors n s) (hn : OnlyRoot n (rootName s))
    {ws : List Text} : ws ∈ exported s ↔
      ∃ folder, (exportedFolder n).join = some folder ∧ ws ∈ ways folder := by
  obtain ⟨top, htop, hdot, honly⟩ := hn
  have hjoin : (exportedFolder n).join = top.childeren firstSlot := by simp [exportedFolder, htop]
  have hpaths : ∀ folder, top.childeren firstSlot = some folder → ∀ q,
      lit "." :: folder.data :: q ∈ n.paths ↔ q ∈ folder.paths := by
    intro folder hfolder q
    have hnode : nodeAt n [firstSlot, firstSlot] = some folder := by
      rw [nodeAt_cons htop, nodeAt_cons hfolder]
      rfl
    have hbehind := h.distinct.append_mem_paths hnode q
    rwa [namesAt_cons htop, namesAt_cons hfolder, hdot] at hbehind
  rw [hjoin]
  constructor
  · rintro hws
    have hfound : lit "." :: ws ∈ n.paths := h.paths ▸ .inr (.inr ⟨ws, hws, rfl⟩)
    obtain ⟨q, rfl⟩ := hws.1
    obtain ⟨top', htop', hfound⟩ := (n.cons_mem_paths _ _).mp hfound
    obtain ⟨⟨j, hj⟩, hdot'⟩ := (h.distinct.child_eq_some _ _).mp htop'
    obtain rfl := h.distinct.inj htop hj (hdot.trans hdot'.symm)
    obtain rfl := Option.some.inj (htop.symm.trans hj)
    have hd := h.distinct.childeren htop
    obtain ⟨folder, hfolder, hq⟩ := (top.cons_mem_paths _ _).mp hfound
    obtain ⟨⟨k, hk⟩, hname⟩ := (hd.child_eq_some _ _).mp hfolder
    obtain ⟨rfl, -⟩ := honly k folder hk
    exact ⟨folder, hk, (hd.childeren hk).mem_ways.mpr ⟨q, hq, by rw [hname]; rfl⟩⟩
  · rintro ⟨folder, hfolder, hws⟩
    have hd := (h.distinct.childeren htop).childeren hfolder
    obtain ⟨q, hq, rfl⟩ := hd.mem_ways.mp hws
    have hshown : lit "." :: folder.data :: q ∈ shown s :=
      h.paths ▸ (hpaths folder hfolder q).mpr hq
    obtain hnil | hone | ⟨p, hp, heq⟩ := hshown
    · cases hnil
    · cases (List.cons.inj hone).2
    · rw [(List.cons.inj heq).2]
      exact hp

end Slots

/-! ### Runs -/

section Runs

variable {c c' : Site}

/-- The drawings of all servers start at their exported folders. -/
def Rooted (c : Site) : Prop :=
  ∀ (i : Nat) (n : TrieNode), c.naming.roots[i]? = some n →
    OnlyRoot n (rootName (c.world.servers i))

theorem Site.Start.rooted (h : c.Start Clear) : Rooted c := by
  obtain ⟨ss, hreg, -, hservers⟩ := h
  obtain ⟨-, -, hlen, -, hall⟩ := hreg.mirrors
  intro i n hn
  have hi : i < ss.length := hlen ▸ (List.getElem?_eq_some_iff.mp hn).1
  have hs := List.getElem?_eq_getElem hi
  obtain ⟨-, n', hn', hmirrors, hnames⟩ := hall i _ hs
  obtain rfl := Option.some.inj (hn.symm.trans hn')
  rw [(hservers i _ hs).rootName]
  exact hmirrors.onlyRoot hnames

theorem Rooted.keep {st' : NsState} {w' : World} (h : Rooted c) (hm : Mirrored c)
    (hroots : st'.roots = c.naming.roots) (hkeeps : c.world.Keeps w') : Rooted ⟨st', w'⟩ := by
  intro i n hn
  simp only [hroots] at hn
  have hi := (List.getElem?_eq_some_iff.mp hn).1
  rw [(hkeeps i (hm.proper i hi)).rootName]
  exact h i n hn

/-- The step lemma for the commands on entries. -/
private theorem Rooted.entry {change : EntryChange} {call : Call} {ws : List Text} {st' : NsState}
    {w' : World} (h : Rooted c) (hm : Mirrored c) (hout : EntryOutcome change call ws c st' w')
    (hhead : ∀ i, isTopPath change.lookup = false → c.naming.resolve change.lookup = some i →
      ws.head? = some (rootName (c.world.servers i)))
    (htrie : ∀ (n m : TrieNode) (name : Text), ws.head? = some name → OnlyRoot n name →
      change.trieOp n = some m → OnlyRoot m name) : Rooted ⟨st', w'⟩ := by
  cases hout with
  | kept hroots hkeeps _ => exact h.keep hm hroots hkeeps
  | @done i n m htop hi hn hop hroots _ hothers hchange =>
    have hlt := (List.getElem?_eq_some_iff.mp hn).1
    have hroot := hhead i htop hi
    intro j n' hn'
    simp only [hroots, List.getElem?_set] at hn'
    split at hn'
    · next hij =>
      subst hij
      cases hn'
      have hspec := (hchange (hm.proper i hlt)).spec (prefix_of_head hroot)
      have hname : rootName (w'.servers i) = rootName (c.world.servers i) := by
        rw [rootName, hspec.2.1, rootName]
      rw [hname]
      exact htrie n m _ hroot (h i n hn) hop
    · next hij =>
      have hj := (List.getElem?_eq_some_iff.mp hn').1
      rw [(hothers j (Ne.symm hij) (hm.proper j hj)).rootName]
      exact h j n' hn'

private theorem components_canonical {ws : List Text} (hws : Canonical ws) :
    components (pathText ws) = lit "." :: ws := components_pathText hws.toPlain.component

private theorem OnlyRoot.made {n m : TrieNode} {ws : List Text} {name : Text} (hws : Canonical ws)
    (hhead : ws.head? = some name) (h : OnlyRoot n name)
    (hm : (makeChange (pathText ws)).trieOp n = some m) : OnlyRoot m name := by
  obtain ⟨us, hus, rfl⟩ := Option.map_eq_some_iff.mp hm
  obtain ⟨q, rfl⟩ := List.head?_eq_some_iff.mp hhead
  rw [(length_of_parsePath hus).2, components_canonical hws]
  exact h.addLoop q

private theorem OnlyRoot.removed {n m : TrieNode} {ws : List Text} {name : Text}
    (hws : Canonical ws) (h : OnlyRoot n name) (hm : (removeChange (pathText ws)).trieOp n = some m) :
    OnlyRoot m name := by
  obtain ⟨us, hus, hdelete⟩ := Option.bind_eq_some_iff.mp hm
  rw [(length_of_parsePath hus).2, components_canonical hws] at hdelete
  split at hdelete
  · exact h.deleteLoop hws.ne_nil hdelete
  · cases hdelete
    exact h

theorem Rooted.step (h : Rooted c) (hm : Mirrored c) (hs : Site.Step c c') : Rooted c' := by
  cases hs with
  | @command st st' w w' line tr hline hx hacc _ =>
    cases hline with
    | @entry v ws hv hws =>
      obtain ⟨-, hrun⟩ | ⟨-, hrun⟩ := entryRun_commandLine hv hws hx
      · obtain ⟨-, -, hout, -⟩ := entryOutcome hv hws hrun hacc hm.rests
        exact h.entry hm hout (fun i htop hi ↦ (hm.make_head hws htop hi).2)
          (fun _ _ _ hhead hn hop ↦ hn.made hws hhead hop)
      · obtain ⟨-, -, hout, -⟩ := entryOutcome hv hws hrun hacc hm.rests
        exact h.entry hm hout (fun i _ hi ↦ (hm.resolve hws hi).2)
          (fun _ _ _ _ hn hop ↦ hn.removed hws hop)
    | @lookup verb ws hblank hne hcopy hwrite hother hws =>
      obtain ⟨hname | hname, -⟩ | ⟨hname | hname, -⟩ | ⟨-, -, hrun⟩ :=
        clientRun_commandLine hblank hne hws hcopy hwrite hx
      · exact absurd hname (hother .mkdir (.inl rfl))
      · exact absurd hname (hother .touch (.inr (.inl rfl)))
      · exact absurd hname (hother .rmdir (.inr (.inr (.inr rfl))))
      · exact absurd hname (hother .rm (.inr (.inr (.inl rfl))))
      · obtain ⟨-, hkeeps⟩ := hm.rests.accepts (fun e he ↦ .inl (hrun.offLink e he)) hacc
        exact h.keep hm (roots_of_frozen (LocateRun.tables hrun).1) hkeeps

/-- The folders whose drawings make up a listing. -/
def foldersOf (st : NsState) : List TrieNode :=
  st.roots.filterMap (fun root ↦ (exportedFolder root).join)

theorem listing_eq_flatMap (st : NsState) :
    st.listing = (foldersOf st).flatMap (treeLines [] none) := by
  rw [NsState.listing, foldersOf]
  induction st.roots with
  | nil => rfl
  | cons root roots ih =>
    rw [List.flatMap_cons, ih]
    cases hfolder : (exportedFolder root).join with
    | none => simp only [List.filterMap_cons, hfolder, slotLines, List.nil_append]
    | some folder => simp only [List.filterMap_cons, hfolder, slotLines, List.flatMap_cons]

/-- The names in the drawings are names on the disks. -/
theorem Rooted.of_mem_folders (h : Rooted c) (hm : Mirrored c) {P : Text → Prop}
    (hP : ∀ i < c.naming.roots.length, ∀ ws ∈ exported (c.world.servers i), ∀ w ∈ ws, P w)
    {folder m : TrieNode} {a : Pointer} (hfolder : folder ∈ foldersOf c.naming)
    (ha : nodeAt folder a = some m) : P m.data := by
  obtain ⟨root, hroot, hjoin⟩ := List.mem_filterMap.mp hfolder
  obtain ⟨i, hi⟩ := List.mem_iff_getElem?.mp hroot
  have hmirrors := hm.mirrors i root hi
  have hway : folder.data :: namesAt folder a ∈ exported (c.world.servers i) :=
    (hmirrors.mem_exported (h i root hi)).mpr
      ⟨folder, hjoin, List.mem_map_of_mem ((mem_pointers folder a).mpr (by rw [ha]; rfl))⟩
  apply hP i (List.getElem?_eq_some_iff.mp hi).1 _ hway
  by_cases hnil : a = []
  · subst hnil
    cases ha
    exact List.mem_cons_self
  · exact List.mem_cons_of_mem _ (data_mem_namesAt ha hnil)

/-- The ways in all drawings are the paths on all disks. -/
theorem Rooted.mem_ways (h : Rooted c) (hm : Mirrored c) {ws : List Text} :
    ws ∈ (foldersOf c.naming).flatMap ways ↔
      ∃ i < c.naming.roots.length, ws ∈ exported (c.world.servers i) := by
  rw [List.mem_flatMap]
  constructor
  · rintro ⟨folder, hfolder, hws⟩
    obtain ⟨root, hroot, hjoin⟩ := List.mem_filterMap.mp hfolder
    obtain ⟨i, hi⟩ := List.mem_iff_getElem?.mp hroot
    exact ⟨i, (List.getElem?_eq_some_iff.mp hi).1,
      ((hm.mirrors i root hi).mem_exported (h i root hi)).mpr ⟨folder, hjoin, hws⟩⟩
  · rintro ⟨i, hlt, hws⟩
    have hi := List.getElem?_eq_getElem hlt
    obtain ⟨folder, hjoin, hws⟩ := ((hm.mirrors i _ hi).mem_exported (h i _ hi)).mp hws
    exact ⟨folder, List.mem_filterMap.mpr ⟨_, List.getElem_mem hlt, hjoin⟩, hws⟩

/-- No path is drawn twice: the servers have different roots. -/
theorem Rooted.nodup_ways (h : Rooted c) (hm : Mirrored c) :
    ((foldersOf c.naming).flatMap ways).Nodup := by
  have hexported : ∀ i root folder, c.naming.roots[i]? = some root →
      (exportedFolder root).join = some folder → ∀ ws ∈ ways folder,
        ws ∈ exported (c.world.servers i) := by
    intro i root folder hi hjoin ws hws
    exact ((hm.mirrors i root hi).mem_exported (h i root hi)).mpr ⟨folder, hjoin, hws⟩
  rw [List.nodup_flatMap]
  constructor
  · intro folder hfolder
    obtain ⟨root, hroot, hjoin⟩ := List.mem_filterMap.mp hfolder
    obtain ⟨i, hi⟩ := List.mem_iff_getElem?.mp hroot
    obtain ⟨top, htop, -, -⟩ := h i root hi
    have hslot : top.childeren firstSlot = some folder := by
      simpa [exportedFolder, htop] using hjoin
    exact (((hm.mirrors i root hi).distinct.childeren htop).childeren hslot).nodup_ways
  · rw [foldersOf, List.pairwise_filterMap, List.pairwise_iff_getElem]
    intro i j hi hj hij folder hfolder folder' hfolder' ws hws hws'
    have hpre := (hexported i _ _ (List.getElem?_eq_getElem hi) hfolder ws hws).1
    have hpre' := (hexported j _ _ (List.getElem?_eq_getElem hj) hfolder' ws hws').1
    have hsame := (head_of_singleton hpre).symm.trans (head_of_singleton hpre')
    exact absurd (hm.distinct i j hi hj (Option.some.inj hsame)) hij.ne

/-- In every reachable state, what a client prints for `ls ~` can be read back: every path that
exists on a disk below the folder that its server exports is found in it, once, and no other. -/
theorem root_listing_shows_disks (h : Reachable (Site.Start Clear) Site.Step c)
    (hnames : ∀ i < c.naming.roots.length, ∀ ws ∈ exported (c.world.servers i), ∀ w ∈ ws,
      newline ∉ w ∧ ¬ listingOver <:+: w)
    (hnarrow : ∀ l ∈ c.naming.listing, l.length < bufferSize) {line : Text}
    (hline : isListing line = true) {tr : List NsEvent} {out : Option NsState}
    (hx : Exec (Naming.processClient c.naming line) tr out) (hheard : Heard tr) {chunks : List Text}
    (hcut : chunks.flatten = (sent tr).flatten)
    (hsize : ∀ bytes ∈ chunks, bytes.length ≤ bufferSize)
    (hwell : WellCut c.naming.listing.flatten chunks) :
    out = some c.naming ∧ ∃ text found,
      receiveListing chunks (CharArray.zeros bufferSize) = some (text, []) ∧
      readDrawing text = some found ∧ found.Nodup ∧
      ∀ ws, ws ∈ found ↔ ∃ i < c.naming.roots.length, ws ∈ exported (c.world.servers i) := by
  obtain ⟨hm, hr⟩ : Mirrored c ∧ Rooted c :=
    h.invariant (I := fun c ↦ Mirrored c ∧ Rooted c) (fun _ hs ↦ ⟨hs.mirrored, hs.rooted⟩)
      (fun _ _ hI hs ↦ ⟨hI.1.step hs, hI.2.step hI.1 hs⟩)
  have hnames' : ∀ folder ∈ foldersOf c.naming, ∀ a m, nodeAt folder a = some m →
      newline ∉ m.data ∧ ¬ listingOver <:+: m.data :=
    fun folder hfolder a m ha ↦ hr.of_mem_folders hm hnames hfolder ha
  have hmarker : ¬ listingOver <:+: c.naming.listing.flatten := by
    intro hmarker
    rw [listing_eq_flatMap] at hmarker
    obtain ⟨folder, hfolder, a, m, ha, hin⟩ := marker_of_treeLines hmarker
    exact (hnames' folder hfolder a m ha).2 hin
  have hdrawn : drawn c.naming.listing = c.naming.listing :=
    (List.map_congr_left (fun l hl ↦ if_pos (hnarrow l hl))).trans (List.map_id _)
  have hsafe : ListingSafe c.naming := by
    refine ⟨hm.table.trans_eq (List.length_map _), fun root hroot ↦ ?_,
      fun l hl ↦ (hnarrow l hl).le, fun l hl ↦ ?_⟩
    · obtain ⟨i, hi⟩ := List.mem_iff_getElem?.mp hroot
      obtain ⟨top, htop, -⟩ := hr i root hi
      simp [exportedFolder, htop]
    · rw [hdrawn] at hl
      rw [Bool.eq_false_iff, ne_eq, containsText_iff]
      exact fun hin ↦ hmarker (hin.trans (List.infix_of_mem_flatten hl))
  rw [Naming.processClient, if_pos (by simpa [isListing] using hline)] at hx
  obtain ⟨hout, hsent⟩ := exec_listAll hsafe hx hheard
  rw [hsent, hdrawn, List.flatten_append, List.flatten_singleton] at hcut
  refine ⟨hout, _, _, receiveListing_of_wellCut hcut hsize hmarker hwell, ?_,
    hr.nodup_ways hm, fun ws ↦ hr.mem_ways hm⟩
  rw [listing_eq_flatMap]
  exact readDrawing_treeLines (fun folder hfolder a m ha ↦ (hnames' folder hfolder a m ha).1)

end Runs

private theorem exported_mkdir (ws : List Text) :
    ws ∈ exported (smallServer (entryDisk (lit "a") .folder)) ↔
      ws = [lit "s"] ∨ ws = [lit "s", lit "a"] := by
  change [lit "s"] <+: ws ∧ (entryDisk (lit "a") .folder).entry ws ≠ none ↔ _
  rw [entry_entryDisk, entry_emptyDisk]
  constructor
  · rintro ⟨hroot, hsome⟩
    by_contra hnot
    rw [not_or] at hnot
    rw [if_neg hnot.2] at hsome
    obtain rfl : ws = [] := by
      by_contra hne
      exact hsome (if_neg (by simp [hnot.1, hne]))
    exact absurd hroot (by decide)
  · rintro (rfl | rfl)
    · exact ⟨by decide, by simp⟩
    · exact ⟨by decide, by simp⟩

/-- A client has made the folder `./s/a`; the listing arrives in two pieces, of which the first
ends in the line of `a`. -/
theorem root_listing_shows_disks_of_mkdir :
    ∃ c chunks text found, Reachable (Site.Start Clear) Site.Step c ∧ chunks.length = 2 ∧
      receiveListing chunks (CharArray.zeros bufferSize) = some (text, []) ∧
      readDrawing text = some found ∧ found.Nodup ∧
      ∀ ws, ws ∈ found ↔ ws = [lit "s"] ∨ ws = [lit "s", lit "a"] := by
  let lines : List Text :=
    [treeLine [] none false (lit "s"), treeLine [false] (some true) true (lit "a")]
  have hrun : ((registerStorageServer .initial 4 (lit "10.0.0.1") 4000
      (indexOf (smallServer emptyDisk) .done)).replay []).join.bind (fun st ↦
        ((Naming.processClient st mkdirLine).replay mkdirTrace).join.map (fun st' ↦
          (st'.roots.length, st'.listing,
            sent ((Naming.processClient st' (lit "ls ~")).runWith hearing).1))) =
      some (1, lines, lines ++ [listingOver]) := by
    decide +kernel
  obtain ⟨st, hst, hrest⟩ := Option.bind_eq_some_iff.mp hrun
  obtain ⟨st', hst', hfacts⟩ := Option.map_eq_some_iff.mp hrest
  obtain ⟨hcount, hlisting, hsent⟩ : st'.roots.length = 1 ∧ st'.listing = lines ∧
      sent ((Naming.processClient st' (lit "ls ~")).runWith hearing).1 = lines ++ [listingOver] := by
    simpa using hfacts
  obtain ⟨w, hreach, hserver⟩ := reachable_mkdir
    (exec_of_replay (Option.join_eq_some_iff.mp hst))
    (exec_of_replay (Option.join_eq_some_iff.mp hst')) hcount
  have hheard : Heard ((Naming.processClient st' (lit "ls ~")).runWith hearing).1 := by
    intro bytes hmem
    cases answer_of_mem_runWith hmem
  have hnames : ∀ i < st'.roots.length, ∀ ws ∈ exported (w.servers i), ∀ n ∈ ws,
      newline ∉ n ∧ ¬ listingOver <:+: n := by
    intro i hi ws hws
    obtain rfl : i = 0 := by omega
    rw [hserver] at hws
    obtain rfl | rfl := (exported_mkdir ws).mp hws
    · decide
    · decide
  let chunks : List Text := [lines.flatten.take 20, lines.flatten.drop 20 ++ listingOver]
  have hchunks : chunks.flatten =
      (sent ((Naming.processClient st' (lit "ls ~")).runWith hearing).1).flatten := by
    rw [hsent]
    decide
  have hwell : WellCut st'.listing.flatten chunks := by
    rw [hlisting]
    exact ⟨by decide, ⟨by decide, by decide, trivial⟩, by simp [chunks]⟩
  obtain ⟨-, shown, found, hprinted, hread, hnodup, hmem⟩ :=
    root_listing_shows_disks hreach hnames (by rw [hlisting]; decide) (by decide)
      (exec_runWith hearing _) hheard hchunks (by decide) hwell
  refine ⟨_, chunks, shown, found, hreach, rfl, hprinted, hread, hnodup, fun ws ↦ ?_⟩
  rw [hmem]
  constructor
  · rintro ⟨i, hi, hws⟩
    obtain rfl : i = 0 := by
      have hone : i < st'.roots.length := hi
      omega
    rw [← exported_mkdir, ← hserver]
    exact hws
  · intro hws
    refine ⟨0, by rw [hcount]; decide, ?_⟩
    rw [← exported_mkdir, ← hserver] at hws
    exact hws

end NetworkFileSystem.Cluster
