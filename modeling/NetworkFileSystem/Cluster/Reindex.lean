import NetworkFileSystem.Cluster.Mirror

/-!
# Incremental updates and a fresh index

`naming_server.c:674–679,829–1037`, `helper.c:432–488`, `tries.c:136–164`. The walk of an
index leaves out hidden names, while `mkdir` and `touch` put any name into the trie. As long as
nothing hidden is made, and nothing that a line of the index cannot say, the trie of a server is
the one that a new index of it would build.
-/

namespace NetworkFileSystem.Cluster

open Base Base.Prog Protocol Trie Trie.TrieNode Naming Storage

/-! ### The part that an index shows -/

/-- The listing without hidden entries. -/
def shownListing : Listing → Listing
  | .done => .done
  | .file name content rest =>
    if isHidden name then shownListing rest else .file name content (shownListing rest)
  | .folder name sub rest =>
    if isHidden name then shownListing rest
    else .folder name (shownListing sub) (shownListing rest)

/-- A walk does not see hidden entries. -/
theorem entryPaths_shown (base : Text) (l : Listing) :
    entryPaths base (shownListing l) = entryPaths base l := by
  induction l generalizing base with
  | done => rfl
  | file name content rest ih =>
    cases hhid : isHidden name with
    | true => simp [shownListing, entryPaths, hhid, ih]
    | false => simp [shownListing, entryPaths, hhid, ih]
  | folder name sub rest ihs ih =>
    cases hhid : isHidden name with
    | true => simp [shownListing, entryPaths, hhid, ih]
    | false => simp [shownListing, entryPaths, hhid, ihs, ih]

theorem has_shown {l : Listing} {p : List Text} {e : Entry} :
    (shownListing l).Has p e ↔ l.Has p e ∧ p.any isHidden = false := by
  induction l generalizing p with
  | done => simp [shownListing, Listing.Has]
  | file name content rest ih =>
    cases hhid : isHidden name with
    | true =>
      simp only [shownListing, hhid, if_true, ih, Listing.Has, or_and_right]
      refine ⟨.inr, ?_⟩
      rintro (⟨⟨rfl, -⟩, hvis⟩ | h)
      · simp [hhid] at hvis
      · exact h
    | false =>
      simp only [shownListing, hhid, Bool.false_eq_true, if_false, ih, Listing.Has, or_and_right]
      refine or_congr_left ⟨?_, And.left⟩
      rintro ⟨rfl, rfl⟩
      exact ⟨⟨rfl, rfl⟩, by simp [hhid]⟩
  | folder name sub rest ihs ih =>
    cases hhid : isHidden name with
    | true =>
      simp only [shownListing, hhid, if_true, ih, Listing.Has, or_and_right]
      refine ⟨fun h ↦ .inr (.inr h), ?_⟩
      rintro (⟨⟨rfl, -⟩, hvis⟩ | ⟨⟨q, rfl, -⟩, hvis⟩ | h)
      · simp [hhid] at hvis
      · simp [hhid] at hvis
      · exact h
    | false =>
      simp only [shownListing, hhid, Bool.false_eq_true, if_false, ihs, ih, Listing.Has,
        or_and_right]
      refine or_congr ⟨?_, And.left⟩ (or_congr_left ⟨?_, ?_⟩)
      · rintro ⟨rfl, rfl⟩
        exact ⟨⟨rfl, rfl⟩, by simp [hhid]⟩
      · rintro ⟨q, rfl, hq, hvis⟩
        exact ⟨⟨q, rfl, hq⟩, by simpa [hhid] using hvis⟩
      · rintro ⟨⟨q, rfl, hq⟩, hvis⟩
        exact ⟨q, rfl, hq, by simpa [hhid] using hvis⟩

/-- The names from the top lead below the root, and one of them is hidden there. -/
def hides (s : SsState) (q : List Text) : Bool :=
  (s.cwd ++ [rootName s]).isPrefixOf q && (q.drop (s.cwd.length + 1)).any isHidden

theorem hides_root (s : SsState) (p : List Text) :
    hides s (s.cwd ++ rootName s :: p) = p.any isHidden := by
  have hpre : (s.cwd ++ [rootName s]).isPrefixOf (s.cwd ++ rootName s :: p) = true :=
    List.isPrefixOf_iff_prefix.mpr ⟨p, by simp⟩
  have hdrop : (s.cwd ++ rootName s :: p).drop (s.cwd.length + 1) = p := by
    rw [← List.singleton_append, ← List.append_assoc]
    exact List.drop_left' (by simp)
  rw [hides, hpre, hdrop, Bool.true_and]

/-- The disk without the entries that are hidden below the root. -/
def shownDisk (s : SsState) : FileSystem where
  entry q := if hides s q then none else s.disk.entry q
  top := by
    have hnot : (s.cwd ++ [rootName s]).isPrefixOf [] = false := by
      cases s.cwd <;> rfl
    simp [hides, hnot, s.disk.top]
  parent := by
    intro dir name h
    have hhides : hides s dir = true → hides s (dir ++ [name]) = true := by
      intro hdir
      obtain ⟨hpre, hany⟩ := (Bool.and_eq_true _ _).mp hdir
      have hroot := List.isPrefixOf_iff_prefix.mp hpre
      refine (Bool.and_eq_true _ _).mpr ⟨List.isPrefixOf_iff_prefix.mpr
        (hroot.trans (List.prefix_append _ _)), ?_⟩
      have hlen := hroot.length_le
      rw [List.length_append, List.length_singleton] at hlen
      rw [List.drop_append_of_le_length hlen, List.any_append, hany, Bool.true_or]
    split at h
    · exact absurd rfl h
    · next hnot =>
      rw [if_neg (fun hdir ↦ hnot (hhides hdir))]
      exact s.disk.parent dir name h

/-- The server without what is hidden below its root. -/
def shownPart (s : SsState) : SsState := { s with disk := shownDisk s }

@[simp] theorem cwd_shownPart (s : SsState) : (shownPart s).cwd = s.cwd := rfl

@[simp] theorem rootPath_shownPart (s : SsState) : (shownPart s).rootPath = s.rootPath := rfl

@[simp] theorem rootName_shownPart (s : SsState) : rootName (shownPart s) = rootName s := rfl

/-- The entries at and below the root. -/
theorem entry_shownPart (s : SsState) (p : List Text) :
    (shownPart s).disk.entry (s.cwd ++ rootName s :: p) =
      if p.any isHidden then none else s.disk.entry (s.cwd ++ rootName s :: p) := by
  change (if hides s _ then none else _) = _
  rw [hides_root]

theorem exported_shownPart (s : SsState) :
    exported (shownPart s) = {p | p ∈ exported s ∧ p.tail.any isHidden = false} := by
  ext p
  simp only [exported, rootName_shownPart, cwd_shownPart, Set.mem_ofPred_eq]
  constructor
  · rintro ⟨⟨r, rfl⟩, h⟩
    rw [List.singleton_append, entry_shownPart] at h
    split at h
    · exact absurd rfl h
    · next hvis => exact ⟨⟨⟨r, rfl⟩, h⟩, by simpa using hvis⟩
  · rintro ⟨⟨⟨r, rfl⟩, h⟩, hvis⟩
    refine ⟨⟨r, rfl⟩, ?_⟩
    rw [List.singleton_append, entry_shownPart, if_neg (by simpa using hvis)]
    exact h

/-! ### What changes of it -/

variable {s s' : SsState} {call : Call} {ws : List Text}

theorem proper_shownPart : Proper (shownPart s) ↔ Proper s :=
  ⟨fun h ↦ ⟨h.root, h.name, h.ne_backup⟩, fun h ↦ ⟨h.root, h.name, h.ne_backup⟩⟩

theorem roomy_shownPart (h : Roomy s) : Roomy (shownPart s) := by
  intro p hp
  refine (Set.encard_le_encard fun w hw ↦ ?_).trans (h p hp)
  intro hnone
  refine hw ?_
  change (if hides s _ then none else s.disk.entry _) = none
  split
  · rfl
  · exact hnone

theorem KeepsExport.roomy (hk : KeepsExport s s') (h : Roomy s) : Roomy s' := by
  intro p hp
  rw [hk.rootName] at hp
  refine (Set.encard_le_encard fun w hw ↦ ?_).trans (h p hp)
  rw [FileSystem.names, Set.mem_ofPred_eq, List.append_assoc] at hw ⊢
  rw [hk.cwd, hk.entries _ (hp.trans (List.prefix_append p [w]))] at hw
  exact hw

theorem KeepsExport.shownPart (h : KeepsExport s s') :
    KeepsExport (shownPart s) (Cluster.shownPart s') := by
  refine ⟨h.cwd, h.rootPath, ?_⟩
  rintro p ⟨r, rfl⟩
  have hsame := entry_shownPart s' r
  rw [h.cwd, h.rootName, h.entries (Cluster.rootName s :: r) ⟨r, rfl⟩] at hsame
  exact hsame.trans (entry_shownPart s r).symm

/-- A call on an entry that is not hidden works on the shown part alike. -/
theorem effect_shownDisk {q : List Text} (hq : hides s q = false) (hhides : hides s' = hides s)
    (h : call.Effect q s.disk s'.disk) : call.Effect q (shownDisk s) (shownDisk s') := by
  have hentry : (shownDisk s).entry q = s.disk.entry q := by
    change (if hides s q then none else _) = _
    rw [hq]
    rfl
  have hupdate : (shownDisk s').entry = Function.update (shownDisk s).entry q call.leaves := by
    funext p
    change (if hides s' p then none else s'.disk.entry p) = _
    rw [hhides, h.entry]
    by_cases hp : p = q
    · subst hp
      simp [hq]
    · rw [Function.update_of_ne hp, Function.update_of_ne hp]
      rfl
  cases call with
  | mkdir => exact ⟨hentry.trans h.1, hupdate⟩
  | create => exact ⟨by rw [hentry]; exact h.1, hupdate⟩
  | remove => exact ⟨by rw [hentry]; exact h.1, hupdate⟩
  | rmdir => exact ⟨hentry.trans h.1, hupdate⟩

theorem Changes.shownPart (h : Changes call ws s s') (hws : [rootName s] <+: ws)
    (hvis : ws.tail.any isHidden = false) :
    Changes call ws (shownPart s) (Cluster.shownPart s') := by
  obtain ⟨a, b, hsa, heffect, hcwd, hroot, hbs⟩ := h
  obtain ⟨r, rfl⟩ := hws
  have hname : rootName b = rootName a := by rw [rootName, hroot, rootName]
  have hhides : hides b = hides a := by
    funext q
    rw [hides, hcwd, hname, hides]
  refine ⟨Cluster.shownPart a, Cluster.shownPart b, hsa.shownPart,
    effect_shownDisk ?_ hhides heffect, hcwd, hroot, hbs.shownPart⟩
  rw [List.singleton_append, ← hsa.rootName]
  exact (hides_root a r).trans hvis

/-- A change of a hidden entry does not touch the shown part. -/
theorem Changes.hidden (h : Changes call ws s s') (hws : [rootName s] <+: ws)
    (hhid : ws.tail.any isHidden = true) :
    KeepsExport (Cluster.shownPart s) (Cluster.shownPart s') := by
  obtain ⟨hcwd, hroot, hother, -, -⟩ := h.spec hws
  have hname : Cluster.rootName s' = Cluster.rootName s := by
    rw [Cluster.rootName, hroot, Cluster.rootName]
  refine ⟨hcwd, hroot, ?_⟩
  rintro p ⟨r, rfl⟩
  have hnew := entry_shownPart s' r
  rw [hcwd, hname] at hnew
  refine hnew.trans ((entry_shownPart s r).symm ▸ ?_)
  split
  · rfl
  · next hvis =>
    refine hother _ ⟨r, rfl⟩ ?_
    rintro rfl
    exact hvis hhid

/-! ### Sites -/

/-- The world without what is hidden below the roots. -/
def World.shownPart (w : World) : World := { w with servers := fun i ↦ Cluster.shownPart (w.servers i) }

/-- The site without what is hidden below the roots. -/
def Site.shownPart (c : Site) : Site := ⟨c.naming, c.world.shownPart⟩

theorem World.Keeps.shownPart {w w' : World} (h : w.Keeps w') : w.shownPart.Keeps w'.shownPart :=
  fun i hi ↦ (h i (proper_shownPart.mp hi)).shownPart

/-- A path that a new index shows: nothing below the root is hidden, and its line says what it
is meant to say. -/
structure Carried (ws : List Text) : Prop extends Indexed ws where
  visible : ws.tail.any isHidden = false

/-- One of the four commands on entries is handled. No folder grows beyond the slots of a node,
and a path that was made satisfies `ok`. -/
inductive Site.Increment (ok : List Text → Prop) : Site → Site → Prop where
  | command {st st' : NsState} {w w' : World} {v : Verb} {ws : List Text} {tr : List NsEvent} :
      IsEntry v → Canonical ws → Exec (processClient st (commandLine v.name ws)) tr (some st') →
      storage.Accepts w tr w' → (∀ i, i < st'.roots.length → Roomy (w'.servers i)) →
      (v.call.makes = true → Confirmed tr → ok ws) → Site.Increment ok ⟨st, w⟩ ⟨st', w'⟩

/-- What is shown of the disks is mirrored by the tries, and an index can say it. -/
structure Agreeing (c : Site) : Prop where
  mirrored : Mirrored c.shownPart
  roomy : ∀ i, i < c.naming.roots.length → Roomy (c.world.servers i)
  carried : ∀ i, i < c.naming.roots.length →
    ∀ p ∈ exported (c.world.shownPart.servers i), Indexed p

variable {c : Site}

/-- An outcome of a command on an entry that is not hidden is one on the shown part. -/
theorem EntryOutcome.shownPart {change : EntryChange} {st' : NsState} {w' : World}
    (h : EntryOutcome change call ws c st' w')
    (hpre : ∀ i, isTopPath change.lookup = false → c.naming.resolve change.lookup = some i →
      [rootName (c.world.servers i)] <+: ws) (hvis : ws.tail.any isHidden = false) :
    EntryOutcome change call ws c.shownPart st' w'.shownPart := by
  cases h with
  | kept hroots hkeeps hcache => exact .kept hroots hkeeps.shownPart hcache
  | done htop hi hn hm hroots hcache hothers hchange =>
    exact .done htop hi hn hm hroots hcache
      (fun j hj hp ↦ (hothers j hj (proper_shownPart.mp hp)).shownPart)
      (fun hp ↦ (hchange (proper_shownPart.mp hp)).shownPart (hpre _ htop hi) hvis)

/-- An outcome of a command that does not touch the shown part, nor the tries. -/
theorem EntryOutcome.unshown {change : EntryChange} {st' : NsState} {w' : World}
    (h : EntryOutcome change call ws c st' w') (hkeeps : c.world.shownPart.Keeps w'.shownPart)
    (hroots : st'.roots = c.naming.roots) :
    EntryOutcome change call ws c.shownPart st' w'.shownPart := by
  cases h with
  | kept _ _ hcache => exact .kept hroots hkeeps hcache
  | done htop hi _ _ _ hcache _ _ => exact .kept hroots hkeeps (.inr ⟨htop, .inr ⟨_, hi, hcache⟩⟩)

/-- What is exported behind a command was exported before, or the command has made it. -/
theorem EntryOutcome.exported {change : EntryChange} {st' : NsState} {w' : World}
    (h : EntryOutcome change call ws c st' w') {i : Nat} (hi : Proper (c.world.servers i))
    (hpre : ∀ j, isTopPath change.lookup = false → c.naming.resolve change.lookup = some j →
      [rootName (c.world.servers j)] <+: ws) {p : List Text}
    (hp : p ∈ Cluster.exported (w'.servers i)) :
    p ∈ Cluster.exported (c.world.servers i) ∨ p = ws ∧ call.makes = true := by
  cases h with
  | kept _ hkeeps _ => exact .inl ((hkeeps i hi).exported ▸ hp)
  | @done j n m htop hj _ _ _ _ hothers hchange =>
    by_cases hij : i = j
    · subst hij
      obtain ⟨hcwd, hroot, hother, -, hremoved⟩ := (hchange hi).spec (hpre i htop hj)
      have hname : rootName (w'.servers i) = rootName (c.world.servers i) := by
        rw [rootName, hroot, rootName]
      obtain ⟨hroot', hentry⟩ := hp
      rw [hname] at hroot'
      rw [hcwd] at hentry
      by_cases hpw : p = ws
      · refine .inr ⟨hpw, ?_⟩
        by_contra hmakes
        rw [hpw, (hremoved (Bool.eq_false_iff.mpr hmakes)).1] at hentry
        exact hentry rfl
      · rw [hother p hroot' hpw] at hentry
        exact .inl ⟨hroot', hentry⟩
    · exact .inl ((hothers i hij hi).exported ▸ hp)

/-- The removal of a hidden entry touches neither the shown part nor a trie. -/
private theorem Agreeing.unshown (h : Agreeing c) (hws : Canonical ws)
    (hhid : ws.tail.any isHidden = true) {st' : NsState} {w' : World}
    (hout : EntryOutcome (removeChange (pathText ws)) call ws c st' w') :
    EntryOutcome (removeChange (pathText ws)) call ws c.shownPart st' w'.shownPart := by
  cases hout with
  | kept hroots hkeeps hcache => exact .kept hroots hkeeps.shownPart hcache
  | @done i n m htop hi hn hm hroots hcache hothers hchange =>
    obtain ⟨hlt, hhead⟩ := h.mirrored.resolve hws hi
    have hpre : [rootName (c.world.servers i)] <+: ws := prefix_of_head hhead
    have hkeeps : c.world.shownPart.Keeps w'.shownPart := by
      intro j hj
      by_cases hji : j = i
      · subst hji
        exact (hchange (proper_shownPart.mp hj)).hidden hpre hhid
      · exact (hothers j hji (proper_shownPart.mp hj)).shownPart
    have hpaths : n.paths = shown (shownPart (c.world.servers i)) :=
      (h.mirrored.mirrors i n hn).paths
    have habsent : ¬ searchPathHelper (lit "." :: ws) n = true := by
      change lit "." :: ws ∉ n.paths
      rw [hpaths]
      rintro (hx | hx | ⟨p, hp, hx⟩)
      · cases hx
      · exact hws.ne_nil (List.cons.inj hx).2
      · rw [exported_shownPart] at hp
        rw [(List.cons.inj hx).2, hp.2] at hhid
        cases hhid
    have hsame : m = n := by
      have hdelete : deletePath (pathText ws) n = some m := hm
      rw [Trie.deletePath, parsePath_of_lt hws.length, Option.bind_some,
        components_pathText hws.component, if_neg habsent] at hdelete
      exact (Option.some.inj hdelete).symm
    refine .kept ?_ hkeeps (.inr ⟨htop, .inr ⟨i, hi, hcache⟩⟩)
    obtain ⟨hlt', rfl⟩ := List.getElem?_eq_some_iff.mp hn
    rw [hroots, hsame]
    exact List.set_getElem_self hlt'

/-- A command that makes only what an index shows keeps the agreement. -/
theorem Agreeing.step {c' : Site} (h : Agreeing c) (hs : Site.Increment Carried c c') :
    Agreeing c' := by
  cases hs with
  | @command st st' w w' v ws tr hv hws hx hacc hroom hok =>
    have hkept : ∀ (hlen : st'.roots.length = st.roots.length), w.Keeps w' →
        ∀ i, i < st'.roots.length → ∀ p ∈ exported (w'.shownPart.servers i), Indexed p := by
      intro hlen hkeeps i hi p hp
      rw [hlen] at hi
      rw [(hkeeps.shownPart i (h.mirrored.proper i hi)).exported] at hp
      exact h.carried i hi p hp
    have hchanged : ∀ {change : EntryChange},
        EntryOutcome change v.call ws (Site.shownPart ⟨st, w⟩) st' w'.shownPart →
        (∀ j, isTopPath change.lookup = false → st.resolve change.lookup = some j →
          [rootName (w.servers j)] <+: ws) → (v.call.makes = true → Indexed ws) →
        ∀ i, i < st'.roots.length → ∀ p ∈ exported (w'.shownPart.servers i), Indexed p := by
      intro change hout hpre hnew i hi p hp
      rw [hout.length] at hi
      obtain hp | ⟨rfl, hmakes⟩ := hout.exported (h.mirrored.proper i hi) hpre hp
      · exact h.carried i hi p hp
      · exact hnew hmakes
    obtain ⟨hmakes, hrun⟩ | ⟨hmakes, hrun⟩ := entryRun_commandLine hv hws hx
    · obtain ⟨hrests, hindex, hout, hconf⟩ :=
        entryOutcome (c := ⟨st, w⟩) hv hws hrun hacc h.mirrored.rests
      have hlen := hout.length
      have hpre : ∀ j, isTopPath (makeChange (pathText ws)).lookup = false →
          st.resolve (makeChange (pathText ws)).lookup = some j →
          [rootName (w.servers j)] <+: ws :=
        fun j htop hj ↦ prefix_of_head (h.mirrored.make_head hws htop hj).2
      have hroom' : ∀ i, st.resolve (makeChange (pathText ws)).lookup = some i →
          i < st.roots.length → Roomy (w'.shownPart.servers i) :=
        fun i _ hi ↦ roomy_shownPart (hroom i (by rwa [hlen]))
      obtain hconf | ⟨hroots, hkeeps⟩ := hconf
      · have hcarried := hok hmakes hconf
        have hshown := hout.shownPart hpre hcarried.visible
        exact ⟨h.mirrored.made hmakes hws hrests hindex hshown hroom', hroom,
          hchanged hshown hpre (fun _ ↦ hcarried.toIndexed)⟩
      · have hshown := hout.unshown hkeeps.shownPart hroots
        exact ⟨h.mirrored.made hmakes hws hrests hindex hshown hroom', hroom, hkept hlen hkeeps⟩
    · obtain ⟨hrests, hindex, hout, -⟩ :=
        entryOutcome (c := ⟨st, w⟩) hv hws hrun hacc h.mirrored.rests
      have hpre : ∀ j, isTopPath (removeChange (pathText ws)).lookup = false →
          st.resolve (removeChange (pathText ws)).lookup = some j →
          [rootName (w.servers j)] <+: ws :=
        fun j _ hj ↦ prefix_of_head (h.mirrored.resolve hws hj).2
      have hshown : EntryOutcome (removeChange (pathText ws)) v.call ws (Site.shownPart ⟨st, w⟩) st'
          w'.shownPart := by
        cases hhid : ws.tail.any isHidden with
        | true => exact h.unshown hws hhid hout
        | false => exact hout.shownPart hpre hhid
      refine ⟨h.mirrored.removed hmakes hws hrests hindex hshown, hroom,
        hchanged hshown hpre fun hmakes' ↦ ?_⟩
      rw [hmakes] at hmakes'
      cases hmakes'

/-! ### Start -/

/-- A server with one exported folder, within the slots of a node. -/
structure Offers (s : SsState) (l : Listing) : Prop where
  root : s.rootPath = pathText [rootName s]
  name : FileName (rootName s)
  holds : s.disk.Holds (s.cwd ++ [rootName s]) l
  roomy : Roomy s

/-- What the index shows is said by its lines, and the root is not the folder for backups. -/
structure Sayable (s : SsState) (l : Listing) : Prop where
  root : Indexed [rootName s]
  entries : ∀ p, Visible l p → Indexed (rootName s :: p)
  ne_backup : rootName s ≠ lit "backupfolderforss"

/-- The naming server behind the registration of servers with pairwise distinct roots, as far
as its table goes. -/
inductive Offered (ok : SsState → Listing → Prop) : NsState → List SsState → Prop where
  | none : Offered ok .initial []
  | register {st st' : NsState} {ss : List SsState} {s : SsState} {l : Listing} {ip : Text}
      {socket portClient : Nat} {tr : List NsEvent} : Offered ok st ss →
      Offers s l → ok s l → rootName s ∉ ss.map rootName → ss.length < maxStorageServers →
      Exec (registerStorageServer st socket ip portClient (indexOf s l)) tr (some st') →
      Offered ok st' (ss ++ [s])

/-- A site whose tries were just built by indexing. -/
def Site.Begin (ok : SsState → Listing → Prop) (c : Site) : Prop :=
  ∃ ss, Offered ok c.naming ss ∧
    (∀ i, (c.world.links i).isOpen = true ∧ (c.world.links i).inbox = [] ∧
      (c.world.links i).outbox = []) ∧
    ∀ (i : Nat) (s : SsState), ss[i]? = some s → KeepsExport s (c.world.servers i)

/-- The shown part of the disk holds the shown part of the listing. -/
theorem holds_shown {s : SsState} {l : Listing} (h : s.disk.Holds (s.cwd ++ [rootName s]) l) :
    (shownPart s).disk.Holds (s.cwd ++ [rootName s]) (shownListing l) := by
  refine ⟨?_, fun p e hp ↦ ?_⟩
  · rw [entry_shownPart]
    exact h.1
  · rw [List.append_assoc, List.singleton_append, entry_shownPart, has_shown, ← h.2 p e hp,
      List.append_assoc, List.singleton_append]
    cases p.any isHidden with
    | true => simp
    | false => simp

theorem Sayable.clear {s : SsState} {l : Listing} (h : Sayable s l) :
    Clear (shownPart s) (shownListing l) := by
  refine ⟨h.root, fun p e hp ↦ ?_, h.ne_backup⟩
  obtain ⟨hhas, hvis⟩ := has_shown.mp hp
  exact h.entries p ⟨e, hhas, by simpa using hvis⟩

theorem Offers.announces {s : SsState} {l : Listing} (h : Offers s l) :
    Announces (shownPart s) (shownListing l) := by
  refine ⟨h.root, h.name, holds_shown h.holds, fun p e hp ↦ ?_, roomy_shownPart h.roomy⟩
  simpa using (has_shown.mp hp).2

theorem indexPaths_shown (base : Text) (l : Listing) :
    indexPaths base (shownListing l) = indexPaths base l := by
  rw [indexPaths, entryPaths_shown, indexPaths]

/-- Behind the registrations, the naming server has registered the shown parts. -/
theorem Offered.registered {st : NsState} {ss : List SsState} (h : Offered Sayable st ss) :
    Registered Clear st (ss.map shownPart) := by
  induction h with
  | none => exact .none
  | @register st st' ss s l ip socket portClient tr _ hoffers hok hnew hroom hx ih =>
    have hindex : indexOf (shownPart s) (shownListing l) = indexOf s l := by
      rw [indexOf, rootPath_shownPart, indexPaths_shown, indexOf]
    have hnew' : rootName (shownPart s) ∉ (ss.map shownPart).map rootName := by
      rw [List.map_map]
      exact hnew
    rw [List.map_append, List.map_singleton]
    exact .register ih hoffers.announces hok.clear hnew' (by rwa [List.length_map])
      (hindex.symm ▸ hx)

theorem Offered.servers {st : NsState} {ss : List SsState} (h : Offered Sayable st ss) :
    ∀ s ∈ ss, Roomy s ∧ ∀ p ∈ exported (shownPart s), Indexed p := by
  induction h with
  | none => simp
  | @register st st' ss s l ip socket portClient tr _ hoffers hok hnew hroom hx ih =>
    intro s' hs'
    obtain hs' | hs' := List.mem_append.mp hs'
    · exact ih s' hs'
    · obtain rfl := List.mem_singleton.mp hs'
      refine ⟨hoffers.roomy, ?_⟩
      rintro p ⟨⟨r, rfl⟩, hentry⟩
      obtain rfl | ⟨e, he⟩ := ((holds_shown hoffers.holds).entry_ne_none r).mp
        (by rw [List.append_assoc]; exact hentry)
      · exact hok.root
      · exact hok.clear.entries r e he

theorem Site.Begin.agreeing (h : c.Begin Sayable) : Agreeing c := by
  obtain ⟨ss, hoffered, hlinks, hservers⟩ := h
  have hlen := hoffered.registered.mirrors.2.2.1
  rw [List.length_map] at hlen
  have hstart : c.shownPart.Start Clear := by
    refine ⟨ss.map Cluster.shownPart, hoffered.registered, hlinks, fun i s hs ↦ ?_⟩
    rw [List.getElem?_map, Option.map_eq_some_iff] at hs
    obtain ⟨s₀, hs₀, rfl⟩ := hs
    exact (hservers i s₀ hs₀).shownPart
  have hget : ∀ i, i < c.naming.roots.length → ∃ s ∈ ss, KeepsExport s (c.world.servers i) := by
    intro i hi
    rw [hlen] at hi
    exact ⟨ss[i], List.getElem_mem hi, hservers i _ (List.getElem?_eq_getElem hi)⟩
  refine ⟨hstart.mirrored, fun i hi ↦ ?_, fun i hi p hp ↦ ?_⟩
  · obtain ⟨s, hs, hkeeps⟩ := hget i hi
    exact hkeeps.roomy (hoffered.servers s hs).1
  · obtain ⟨s, hs, hkeeps⟩ := hget i hi
    rw [show c.world.shownPart.servers i = Cluster.shownPart (c.world.servers i) from rfl,
      hkeeps.shownPart.exported] at hp
    exact (hoffered.servers s hs).2 p hp

/-! ### The new index -/

/-- Whatever order the walk takes and however the stream is cut, as long as the unfinished line
and the next segment fit the buffer: the trie that a new index of a server builds finds what its
trie finds. -/
def AgreesWithReindex (c : Site) : Prop :=
  ∀ (i : Nat) (n : TrieNode) (l : Listing) (segments : List Text),
    c.naming.roots[i]? = some n →
    (c.world.servers i).disk.Holds ((c.world.servers i).cwd ++ [rootName (c.world.servers i)]) l →
    segments.flatten = (indexMessages (indexPaths (c.world.servers i).rootPath l)).flatten →
    Fits segments [] →
    ∃ root, indexHelper segments [] (createNode (lit ".")) = some (root, true) ∧
      ∀ ws, searchPathHelper ws root = searchPathHelper ws n

theorem Agreeing.reindex (h : Agreeing c) : AgreesWithReindex c := by
  intro i n l segments hn hholds hcut hfits
  have hi := (List.getElem?_eq_some_iff.mp hn).1
  have hshown := holds_shown hholds
  have hmirrors : Mirrors n (shownPart (c.world.servers i)) := h.mirrored.mirrors i n hn
  have hindexed : ∀ p, p = [] ∨ (∃ e, (shownListing l).Has p e) →
      Indexed (rootName (c.world.servers i) :: p) := by
    intro p hp
    refine h.carried i hi _ ⟨⟨p, rfl⟩, ?_⟩
    have hentry := (hshown.entry_ne_none p).mpr hp
    rwa [List.append_assoc] at hentry
  have hshow : Showable (shownPart (c.world.servers i)) (shownListing l) :=
    ⟨hindexed [] (.inl rfl), fun p e he ↦ hindexed p (.inr ⟨e, he⟩),
      fun p e he ↦ by simpa using (has_shown.mp he).2⟩
  have hroot : (shownPart (c.world.servers i)).rootPath = pathText [rootName (c.world.servers i)] :=
    (h.mirrored.proper i hi).root
  have hroomy := roomy_shownPart (h.roomy i hi)
  have hexport := hshow.exportable hshown hroomy
  obtain ⟨m, hm, hmir⟩ := hshow.mirrors hroot hshown hroomy
  obtain ⟨m', hm', -, hpaths⟩ := hexport.addPaths
  rw [hroot] at hm
  obtain rfl : m = m' := Option.some.inj (hm.symm.trans hm')
  rw [← indexPaths_shown, show (c.world.servers i).rootPath = _ from hroot] at hcut
  obtain ⟨root, hindex, hfound⟩ := index_shows_visible_paths hexport hcut hfits
  refine ⟨root, hindex, fun ws ↦ Bool.eq_iff_iff.mpr ((hfound ws).trans ?_)⟩
  change ws ∈ shownBelow _ _ ↔ ws ∈ n.paths
  rw [← hpaths, hmir.paths, hmirrors.paths]

/-- Incremental updates agree with a new index, in every run in which no entry is made that is
hidden or that a line of the index cannot say. -/
theorem increments_agree_with_reindex
    (h : Reachable (Site.Begin Sayable) (Site.Increment Carried) c) : AgreesWithReindex c := by
  have hagree : Agreeing c :=
    h.invariant (I := Agreeing) (fun _ hs ↦ hs.agreeing) (fun _ _ hI hs ↦ hI.step hs)
  exact hagree.reindex

/-! ### Two new entries -/

private theorem begin_of_register {ok : SsState → Listing → Prop} {ip : Text}
    {socket portClient : Nat} {tr : List NsEvent} {st : NsState}
    (hok : ok (smallServer emptyDisk) .done)
    (h : Exec (registerStorageServer .initial socket ip portClient
      (indexOf (smallServer emptyDisk) .done)) tr (some st)) :
    Site.Begin ok ⟨st, singleWorld .idle (smallServer emptyDisk)⟩ := by
  have hoffers : Offers (smallServer emptyDisk) .done :=
    ⟨announces_emptyDisk.root, announces_emptyDisk.name, announces_emptyDisk.holds,
      announces_emptyDisk.roomy⟩
  refine ⟨[smallServer emptyDisk], .register .none hoffers hok (by simp) (by decide) h,
    fun i ↦ ?_, fun i s' hs' ↦ ?_⟩
  · rw [singleWorld, Links.single_idle]
    exact ⟨rfl, rfl, rfl⟩
  · cases i with
    | zero =>
      cases hs'
      simpa [singleWorld] using KeepsExport.refl (smallServer emptyDisk)
    | succ i => simp at hs'

/-- The server has confirmed `line`. -/
private def confirming (line reply : Text) : List NsEvent :=
  [⟨.ping 0, PingResult.up⟩, ⟨.forward 0 line, true⟩, ⟨.recvServer 0, some reply⟩,
    ⟨.sendClient reply, true⟩]

/-- A server that exports the empty folder `./s` registers and makes an entry in it. -/
private theorem reachable_of_make (ok : SsState → Listing → Prop) (shows : List Text → Prop)
    {v : Verb} {name reply : Text} {e : Entry}
    (hok : ok (smallServer emptyDisk) .done) (hshows : shows [lit "s", name]) (hv : IsEntry v)
    (hname : Canonical [lit "s", name])
    (hhandles : (smallServer emptyDisk).Handles (commandLine v.name [lit "s", name]) [reply]
      (smallServer (entryDisk name e)))
    (hrun : ((registerStorageServer .initial 4 (lit "10.0.0.1") 4000
      (indexOf (smallServer emptyDisk) .done)).replay []).join.bind (fun st ↦
        ((processClient st (commandLine v.name [lit "s", name])).replay
          (confirming (commandLine v.name [lit "s", name]) reply)).join.map (fun st' ↦
            (st'.roots.length, st'.roots[0]?.map (searchPathHelper [lit ".", lit "s", name])))) =
      some (1, some true)) :
    ∃ c n, Reachable (Site.Begin ok) (Site.Increment shows) c ∧
      c.world.servers 0 = smallServer (entryDisk name e) ∧ c.naming.roots[0]? = some n ∧
      searchPathHelper [lit ".", lit "s", name] n = true := by
  obtain ⟨st, hst, hrest⟩ := Option.bind_eq_some_iff.mp hrun
  obtain ⟨st', hst', hfacts⟩ := Option.map_eq_some_iff.mp hrest
  obtain ⟨hlen, hfound⟩ := Prod.mk.inj hfacts
  obtain ⟨n, hn, hsearch⟩ := Option.map_eq_some_iff.mp hfound
  have hbegin : Site.Begin ok ⟨st, singleWorld .idle (smallServer emptyDisk)⟩ :=
    begin_of_register hok (exec_of_replay (Option.join_eq_some_iff.mp hst))
  obtain ⟨w, hacc, hserver⟩ : ∃ w, storage.Accepts (singleWorld .idle (smallServer emptyDisk))
      (confirming (commandLine v.name [lit "s", name]) reply) w ∧
      w.servers 0 = smallServer (entryDisk name e) := by
    refine ⟨_, .event ⟨rfl, rfl, rfl⟩
      (.event (show storage.respond _ _ _ (singleWorld _ _) from
        ⟨Links.on_single (Link.send_of_isOpen rfl), rfl, trivial⟩)
      (.silent ⟨0, takes_singleWorld rfl hhandles⟩
      (.event (show storage.respond _ _ _ (singleWorld _ _) from
        ⟨Links.on_single (.inl ⟨1, _, [], rfl, rfl, rfl⟩), rfl, trivial⟩)
      (.event ⟨rfl, rfl, trivial⟩ .nil)))), rfl⟩
  refine ⟨⟨st', w⟩, n, .next (.start hbegin) (.command hv hname
    (exec_of_replay (Option.join_eq_some_iff.mp hst')) hacc (fun i hi ↦ ?_) (fun _ _ ↦ hshows)),
    hserver, hn, hsearch⟩
  obtain rfl : i = 0 := by omega
  rw [hserver]
  exact roomy_entryDisk _ _

/-- Behind a `mkdir` of `./s/a`, the trie is the one that a new index would build. -/
theorem increments_agree_with_reindex_after_mkdir :
    ∃ c, Reachable (Site.Begin Sayable) (Site.Increment Carried) c ∧
      [lit "s", lit "a"] ∈ exported (c.world.servers 0) ∧ AgreesWithReindex c := by
  have hsayable : Sayable (smallServer emptyDisk) .done :=
    ⟨indexed_smallServer, by simp [Visible, Listing.Has], by decide⟩
  have hcarried : Carried [lit "s", lit "a"] :=
    ⟨⟨canonical_folder.toPlain, by decide, by unfold Indexable; decide⟩, by decide⟩
  obtain ⟨c, -, hreach, hserver, -, -⟩ := reachable_of_make Sayable Carried hsayable hcarried
    (.inl rfl) canonical_folder handles_mkdir (by decide +kernel)
  refine ⟨c, hreach, ⟨⟨[lit "a"], by rw [hserver]; rfl⟩, ?_⟩, increments_agree_with_reindex hreach⟩
  rw [hserver]
  change (entryDisk (lit "a") .folder).entry [lit "s", lit "a"] ≠ none
  simp [entry_entryDisk]

private theorem handles_touch : (smallServer emptyDisk).Handles (lit "touch ./s/.a")
    [lit "Created file @ ./s/.a\n"] (smallServer (entryDisk (lit ".a") (.file []))) := by
  have hround : (entryRound (lit "./s") [] (lit "touch ./s/.a")).bind
      (fun round ↦ round.replay [⟨⟨.create, lit "./s/.a"⟩, true⟩]) =
        some (some ([lit "Created file @ ./s/.a\n"], [])) := by
    decide +kernel
  obtain ⟨round, hsome, hreplay⟩ := Option.bind_eq_some_iff.mp hround
  refine ⟨round, _, [], entryDisk (lit ".a") (.file []), hsome, exec_of_replay hreplay,
    .event ?_ .nil, rfl⟩
  have hresolve : resolveFrom [] (lit "./s/.a") = [lit "s", lit ".a"] := by decide
  change Call.Effect (resolveFrom [] (lit "./s/.a")) emptyDisk _ .create
  rw [hresolve]
  exact ⟨by decide, rfl⟩

/-- Behind a `touch` of `./s/.a`, the trie finds the new file, and a new index loses it. -/
theorem hidden_file_is_not_reindexed :
    ¬ ∀ c, Reachable (Site.Begin fun _ _ ↦ True) (Site.Increment fun _ ↦ True) c →
      AgreesWithReindex c := by
  intro hall
  have hname : Canonical [lit "s", lit ".a"] := by
    refine ⟨⟨?_, by decide⟩, by decide, by decide⟩
    intro w hw
    simp only [List.mem_cons, List.not_mem_nil, or_false] at hw
    obtain rfl | rfl := hw
    · exact ⟨announces_emptyDisk.name, by decide⟩
    · exact ⟨⟨by decide, by decide, by decide, by decide, by decide⟩, by decide⟩
  obtain ⟨c, n, hreach, hserver, hn, hfound⟩ := reachable_of_make (fun _ _ ↦ True)
    (fun _ ↦ True) trivial trivial (.inr (.inl rfl)) hname handles_touch (by decide +kernel)
  let l : Listing := .file (lit ".a") [] .done
  obtain ⟨root, hindex, hsame⟩ := hall c hreach 0 n l
    (indexMessages (indexPaths (c.world.servers 0).rootPath l)) hn
    (by rw [hserver]; exact holds_entryDisk _) rfl
    (by rw [hserver]; exact ⟨by decide, by decide, trivial⟩)
  have hlost : (indexHelper (indexMessages (indexPaths (lit "./s") l)) []
      (createNode (lit "."))).map (fun r ↦ searchPathHelper [lit ".", lit "s", lit ".a"] r.1) =
        some false := by
    decide +kernel
  have hroot : (smallServer (entryDisk (lit ".a") (.file []))).rootPath = lit "./s" := rfl
  rw [hserver, hroot] at hindex
  rw [hindex, Option.map_some, hsame, hfound] at hlost
  cases hlost

end NetworkFileSystem.Cluster
