import NetworkFileSystem.Cluster.WrittenFiles

/-!
# Replicas that failover finds

`naming_server.c:161–173,435–456,878–906,1007–1050,1187–1255`. A replica follows its original
through every update that reaches it. An update that a backup misses is never made up for: a
server that returns is only marked as up again.
-/

namespace NetworkFileSystem.Cluster

open Base Base.Prog Protocol Trie Trie.TrieNode Naming Storage Transfer

/-! ### The invariant -/

/-- The naming server and the disks, with nothing on the way. -/
def Service.site (c : Service) : Site := ⟨c.naming, ⟨fun _ ↦ .idle, c.fleet.servers⟩⟩

/-- Every replica is like its original, and so is what the clients were told. -/
structure Synced (c : Service) : Prop where
  mirrored : Mirrored c.site
  backed : ∀ i, Backed c.naming i
  known : ∀ i b, IsBackup c.naming i b → i < c.naming.roots.length ∧ b < c.naming.roots.length
  address : ∀ i, i < c.naming.roots.length → c.fleet.up i = true →
    IsAddress (c.fleet.address i) ∧ c.fleet.address i = (c.naming.ip i, c.naming.portClient i)
  apart : ∀ i j, c.fleet.up i = true → c.fleet.up j = true →
    c.fleet.address i = c.fleet.address j → i = j
  quiet : ∀ i, c.fleet.answers i = []
  replicas : ∀ i b, IsBackup c.naming i b → ∀ ws, [rootName (c.fleet.servers i)] <+: ws →
    replica (c.fleet.servers b) ws =
      (c.fleet.servers i).disk.entry ((c.fleet.servers i).cwd ++ ws)
  saved : ∀ i, i < c.naming.roots.length → ∀ ws, [rootName (c.fleet.servers i)] <+: ws → ∀ t,
    c.saved ws = some t ↔
      (c.fleet.servers i).disk.entry ((c.fleet.servers i).cwd ++ ws) = some (.file t)

theorem rests_idle (servers : Nat → SsState) : World.Rests ⟨fun _ ↦ .idle, servers⟩ :=
  fun _ ↦ ⟨rfl, rfl, by simp [Link.idle]⟩

/-- What is recorded of the contents of an entry. -/
def contentsOf : Option Entry → Option Text
  | some (.file t) => some t
  | _ => none

theorem contentsOf_eq_some {x : Option Entry} {t : Text} :
    contentsOf x = some t ↔ x = some (.file t) := by
  cases x with
  | none => simp [contentsOf]
  | some e => cases e <;> simp [contentsOf]

/-! ### Updates -/

section Updates

variable {st st' : NsState} {c c' : Service} {i : Nat} {ws : List Text} {x : Option Entry}

theorem isBackup_of_skeleton (h : st'.skeleton = st.skeleton) (i b : Nat) :
    IsBackup st' i b ↔ IsBackup st i b := by
  rw [IsBackup, IsBackup, (backupServers_of_skeleton h i).1, (backupServers_of_skeleton h i).2]

theorem Backed.of_skeleton (h : st'.skeleton = st.skeleton) (hb : Backed st i) :
    Backed st' i := by
  refine ⟨fun b hbackup ↦ hb.ne b ((isBackup_of_skeleton h i b).mp hbackup), fun b hfirst ↦ ?_⟩
  rw [(backupServers_of_skeleton h i).1] at hfirst
  rw [(backupServers_of_skeleton h i).2]
  exact hb.distinct b hfirst

theorem Synced.proper (h : Synced c) {j : Nat} (hj : j < c.naming.roots.length) :
    Proper (c.fleet.servers j) := h.mirrored.proper j hj

/-- No replica lies where an exported folder does. -/
private theorem replicaPlace_ne {s s' : SsState} (hs : Proper s) {p q : List Text}
    (hp : [rootName s] <+: p) : s'.cwd ++ p ≠ replicaPlace s' q := by
  intro heq
  have hhead := head_of_singleton hp
  rw [List.append_cancel_left heq] at hhead
  exact hs.ne_backup (Option.some.inj hhead).symm

section Propagates

variable {f f' : Nat → SsState}

private theorem Propagates.rootName_eq (h : Propagates st i ws x f f') (j : Nat) :
    rootName (f' j) = rootName (f j) := by
  rw [rootName, h.rootPath, rootName]

/-- The other servers keep what they export. -/
theorem Propagates.keepsExport (h : Propagates st i ws x f f') {j : Nat} (hj : j ≠ i)
    (hs : Proper (f j)) : KeepsExport (f j) (f' j) := by
  refine ⟨h.cwd j, h.rootPath j, fun p hp ↦ ?_⟩
  by_cases hb : IsBackup st i j
  · rw [h.backup j hb, Function.update_of_ne (replicaPlace_ne hs hp)]
  · rw [h.others j hj hb]

/-- What an update has done to an exported folder. -/
theorem Propagates.original (h : Propagates st i ws x f f') {k : Nat} (hs : Proper (f k))
    {p : List Text} (hp : [rootName (f k)] <+: p) :
    (f' k).disk.entry ((f' k).cwd ++ p) =
      if k = i ∧ p = ws then x else (f k).disk.entry ((f k).cwd ++ p) := by
  rw [h.cwd]
  by_cases hki : k = i
  · subst hki
    rw [h.primary]
    by_cases hpw : p = ws
    · simp [hpw]
    · rw [Function.update_of_ne (by simpa using hpw), if_neg (by simp [hpw])]
  · rw [if_neg (fun hand ↦ hki hand.1)]
    exact (h.keepsExport hki hs).entries p hp

end Propagates

/-- What an update has done to the replicas. -/
theorem Propagates.replica (h : Synced c) (hi : i < c.naming.roots.length)
    (hws : [rootName (c.fleet.servers i)] <+: ws) {f' : Nat → SsState}
    (hp : Propagates c.naming i ws x c.fleet.servers f') {k b : Nat} (hb : IsBackup c.naming k b)
    {p : List Text} (hroot : [rootName (c.fleet.servers k)] <+: p) :
    replica (f' b) p = if k = i ∧ p = ws then x else replica (c.fleet.servers b) p := by
  have hplace : replicaPlace (f' b) p = replicaPlace (c.fleet.servers b) p := by
    rw [replicaPlace, hp.cwd, hp.rootName_eq, replicaPlace]
  have hsame : p = ws → k = i := by
    rintro rfl
    apply h.mirrored.distinct k i (h.known k b hb).1 hi
    exact Option.some.inj ((head_of_singleton hroot).symm.trans (head_of_singleton hws))
  rw [Cluster.replica, hplace]
  by_cases hbi : b = i
  · subst hbi
    have hkb : k ≠ b := fun hkb ↦ (h.backed k).ne b hb hkb.symm
    rw [hp.primary, Function.update_of_ne (replicaPlace_ne (h.proper hi) hws).symm,
      if_neg (fun hand ↦ hkb hand.1), Cluster.replica]
  · by_cases hbackup : IsBackup c.naming i b
    · rw [hp.backup b hbackup]
      by_cases hpw : p = ws
      · rw [if_pos ⟨hsame hpw, hpw⟩, hpw, Function.update_self]
      · rw [if_neg (fun hand ↦ hpw hand.2), Function.update_of_ne ?_, Cluster.replica]
        simpa [replicaPlace] using hpw
    · have hki : k ≠ i := by
        rintro rfl
        exact hbackup hb
      rw [hp.others b hbi hbackup, if_neg (fun hand ↦ hki hand.1), Cluster.replica]

/-- An update that reaches every backup of its server keeps the invariant. -/
theorem Synced.propagated (h : Synced c) (hi : i < c.naming.roots.length)
    (hws : [rootName (c.fleet.servers i)] <+: ws)
    (hp : Propagates c.naming i ws x c.fleet.servers c'.fleet.servers)
    (hebbs : Ebbs c.fleet c'.fleet) (hskel : c'.naming.skeleton = c.naming.skeleton)
    (hmirrored : Mirrored c'.site)
    (hsaved : c'.saved = Function.update c.saved ws (contentsOf x)) : Synced c' := by
  have hlen := length_roots_of_skeleton hskel
  refine ⟨hmirrored, fun j ↦ (h.backed j).of_skeleton hskel, fun k b hb ↦ ?_, fun k hk hup ↦ ?_,
    fun j k hj hk heq ↦ ?_, fun k ↦ hebbs.quiet (h.quiet k), fun k b hb p hroot ↦ ?_,
    fun k hk p hroot t ↦ ?_⟩
  · rw [hlen]
    exact h.known k b ((isBackup_of_skeleton hskel k b).mp hb)
  · rw [hlen] at hk
    rw [hebbs.address, ip_of_skeleton hskel, portClient_of_skeleton hskel]
    exact h.address k hk (hebbs.up k hup)
  · rw [hebbs.address] at heq
    exact h.apart j k (hebbs.up j hj) (hebbs.up k hk) heq
  · rw [hp.rootName_eq] at hroot
    have hb' := (isBackup_of_skeleton hskel k b).mp hb
    rw [hp.replica h hi hws hb' hroot, hp.original (h.proper (h.known k b hb').1) hroot]
    split
    · rfl
    · exact h.replicas k b hb' p hroot
  · rw [hlen] at hk
    rw [hp.rootName_eq] at hroot
    rw [hp.original (h.proper hk) hroot, hsaved]
    by_cases hpw : p = ws
    · have hki : k = i := by
        subst hpw
        apply h.mirrored.distinct k i hk hi
        exact Option.some.inj ((head_of_singleton hroot).symm.trans (head_of_singleton hws))
      rw [if_pos ⟨hki, hpw⟩, hpw, Function.update_self, contentsOf_eq_some]
    · rw [if_neg (fun hand ↦ hpw hand.2), Function.update_of_ne hpw]
      exact h.saved k hk p hroot t

end Updates

/-! ### Commands on entries -/

section Entry

variable {c c' : Service} {i : Nat} {v : Verb} {ws : List Text} {bytes : Text}
  {tr : List NsEvent} {change : EntryChange}

/-- A server and a backup of it agree on what the folder of the server holds. -/
theorem Synced.agreeBelow (h : Synced c) {b : Nat} (hb : IsBackup c.naming i b) :
    AgreeBelow (rootName (c.fleet.servers i)) (c.fleet.servers i).cwd
      (replicaPlace (c.fleet.servers b) []) (c.fleet.servers i).disk (c.fleet.servers b).disk := by
  intro p hp
  rw [← h.replicas i b hb p hp, replica]
  simp [replicaPlace]

private theorem contentsOf_leaves (hv : IsEntry v) :
    contentsOf v.call.leaves = if v = .touch then some [] else none := by
  obtain rfl | rfl | rfl | rfl := hv <;> rfl

/-- A confirmed command on an entry whose backups run to the end. -/
private theorem Synced.confirmed (h : Synced c) (hv : IsEntry v) (hws : Canonical ws)
    (hconf : Confirmation change c.naming (commandLine v.name ws) v.name (pathText ws) i bytes tr
      c'.naming)
    (hroot : [rootName (c.fleet.servers i)] <+: ws)
    (hdir : v.call.makes = true → [rootName (c.fleet.servers i)] <+: ws.dropLast)
    (hacc : outages.Accepts c.fleet tr c'.fleet) (hyes : couldNot (cstr bytes) = false)
    (hcalm : Undisturbed (.entry i v ws) c c') :
    Ebbs c.fleet c'.fleet ∧
      Propagates c.naming i ws v.call.leaves c.fleet.servers c'.fleet.servers ∧
      EntryOutcome change v.call ws c.site c'.naming c'.site.world := by
  obtain ⟨hfits, -, hbackup⟩ := hcalm
  obtain ⟨t, t₁, t₂, ok, hoff, rfl, hs₁, hs₂⟩ := hconf.trace
  obtain ⟨f, ha₁, ha₂⟩ := hacc.append
  have hfades := Fades.of_offLink hoff ha₁
  have hserver : ∀ j, f.servers j = c.fleet.servers j := congrFun hfades.servers
  obtain ⟨hebbs, hprop, heffect⟩ := Fleet.propagates_entry hv hws hfits (h.backed i)
    (fun j ↦ hfades.quiet (h.quiet j)) (by rwa [hserver]) (by rwa [hserver])
    (fun b hb ↦ by
      obtain ⟨hup, hlong⟩ := hbackup b hb
      rw [hserver, hserver]
      exact ⟨hup, h.proper (h.known i b hb).2, hlong, h.agreeBelow hb⟩) hyes hs₁ hs₂ ha₂
  rw [hfades.servers] at hprop
  rw [hserver] at heffect
  obtain ⟨n, m, hn, hm, hroots⟩ := hconf.trie
  refine ⟨hfades.toEbbs.trans hebbs, hprop, .done hconf.notTop hconf.resolved hn hm hroots
    hconf.cache (fun j hj hproper ↦ hprop.keepsExport hj hproper) (fun _ ↦ ?_)⟩
  exact ⟨_, _, .refl _, heffect, hprop.cwd i, hprop.rootPath i, .refl _⟩

/-- A command on an entry that reaches every backup keeps the invariant. -/
theorem Synced.entry (h : Synced c) (hv : IsEntry v) (hws : Canonical ws)
    (hx : Exec (processClient c.naming (commandLine v.name ws)) tr (some c'.naming))
    (hacc : outages.Accepts c.fleet tr c'.fleet)
    (hmem : (⟨.recvServer i, some bytes⟩ : NsEvent) ∈ tr) (hyes : couldNot (cstr bytes) = false)
    (hsaved : c'.saved = Function.update c.saved ws (if v = .touch then some [] else none))
    (hcalm : Undisturbed (.entry i v ws) c c') : Synced c' := by
  rw [← contentsOf_leaves hv] at hsaved
  have hskel := ClientRun.skeleton (exec_processClient hx)
  have hindex : c'.naming.storageServerIndex = c.naming.storageServerIndex :=
    congrArg Prod.snd hskel
  obtain ⟨hmakes, hrun⟩ | ⟨hmakes, hrun⟩ := entryRun_commandLine hv hws hx
  · have hconf := EntryRun.confirmed hrun hmem hyes
    obtain ⟨hlt, hhead⟩ := h.mirrored.make_head hws hconf.notTop hconf.resolved
    obtain ⟨dir, hlookup, rfl, hcanonical⟩ := lookup_makeChange hws
    have hdir : [rootName (c.fleet.servers i)] <+: ws.dropLast :=
      prefix_of_head (h.mirrored.resolve (hcanonical hconf.notTop) (hlookup ▸ hconf.resolved)).2
    obtain ⟨hebbs, hprop, hout⟩ := h.confirmed hv hws hconf (prefix_of_head hhead)
      (fun _ ↦ hdir) hacc hyes hcalm
    refine h.propagated hlt (prefix_of_head hhead) hprop hebbs hskel ?_ hsaved
    apply h.mirrored.made hmakes hws (rests_idle _) hindex hout
    intro j hj _
    obtain rfl : i = j := Option.some.inj (hconf.resolved.symm.trans hj)
    exact hcalm.2.1
  · have hconf := EntryRun.confirmed hrun hmem hyes
    obtain ⟨hlt, hhead⟩ := h.mirrored.resolve hws hconf.resolved
    obtain ⟨hebbs, hprop, hout⟩ := h.confirmed hv hws hconf (prefix_of_head hhead)
      (fun hm ↦ absurd (hmakes.symm.trans hm) (by decide)) hacc hyes hcalm
    exact h.propagated hlt (prefix_of_head hhead) hprop hebbs hskel
      (h.mirrored.removed hmakes hws (rests_idle _) hindex hout) hsaved

end Entry

/-! ### Writes -/

section Write

variable {c c' : Service} {i : Nat} {ws : List Text} {flag : Text} {tr : List NsEvent}

/-- Where nothing but the cache changes and servers stop, the invariant stays. -/
theorem Synced.faded (h : Synced c) {f : Fleet} {st : NsState} (hfades : Fades c.fleet f)
    (hf : st.frozen = c.naming.frozen) (hcache : ∀ e ∈ st.cache, Cached c.site e) :
    Synced ⟨st, f, c.saved⟩ := by
  have hskel := skeleton_of_frozen hf
  have hlen := length_roots_of_skeleton hskel
  have hserver : ∀ j, f.servers j = c.fleet.servers j := congrFun hfades.servers
  refine ⟨?_, fun j ↦ (h.backed j).of_skeleton hskel, fun k b hb ↦ ?_, fun k hk hup ↦ ?_,
    fun j k hj hk heq ↦ ?_, fun k ↦ hfades.quiet (h.quiet k), fun k b hb p hroot ↦ ?_,
    fun k hk p hroot t ↦ ?_⟩
  · have hmirrored := h.mirrored.looked hf hcache
    simpa only [Service.site, hfades.servers] using hmirrored
  · simp only [hlen]
    exact h.known k b ((isBackup_of_skeleton hskel k b).mp hb)
  · simp only [hlen] at hk
    simp only [hfades.address, ip_of_skeleton hskel, portClient_of_skeleton hskel]
    exact h.address k hk (hfades.up k hup)
  · simp only [hfades.address] at heq
    exact h.apart j k (hfades.up j hj) (hfades.up k hk) heq
  · simp only [hserver] at hroot ⊢
    exact h.replicas k b ((isBackup_of_skeleton hskel k b).mp hb) p hroot
  · simp only [hlen] at hk
    simp only [hserver] at hroot ⊢
    exact h.saved k hk p hroot t

/-- A write request looks its file up, and then its flag. -/
private theorem exec_writeLine {st st' : NsState} (hws : Canonical ws)
    (hflag : flag = lit "-s" ∨ flag = lit "-a")
    (h : Exec (processClient st (writeLine flag ws)) tr (some st')) :
    OffLink tr ∧ st'.frozen = st.frozen ∧ ∀ e ∈ st'.cache, e ∈ st.cacheAfter (pathText ws) ∨
      (e.key = flag ∧ searchInTries st.roots flag = some (some e.index)) := by
  have hpath : blank ∉ pathText ws ∧ pathText ws ≠ [] :=
    ⟨notMem_pathText (by decide) hws.noBlank, by simp [pathText, lit]⟩
  have hwords : words (writeLine flag ws) = [lit "write", flag, pathText ws] := by
    have hsplit : writeLine flag ws = lit "write" ++ blank :: (flag ++ blank :: pathText ws) := by
      simp [writeLine, lit, blank]
    rw [hsplit, words, tokens_append_cons, tokens_append_cons,
      tokens_of_notMem (by decide) (by decide), tokens_of_notMem hpath.1 hpath.2]
    obtain rfl | rfl := hflag <;> rfl
  have hrun : Exec (writeRequest st flag (some (pathText ws)) >>= fun st ↦ locate st flag) tr
      (some st') := by
    have hlist : ¬ (writeLine flag ws = lit "ls ~" ∨ writeLine flag ws = lit "ls .") := by
      simp [writeLine, lit]
    have hcopy : ¬ startsWith (lit "copy") (writeLine flag ws) = true := Bool.false_ne_true
    have htop : ¬ isTopWord flag = true := by
      obtain rfl | rfl := hflag <;> decide
    unfold processClient at h
    rw [if_neg hlist, if_neg hcopy, hwords] at h
    change Exec (if isTopWord flag then _ else _) tr (some st') at h
    rw [if_neg htop] at h
    exact h
  obtain ⟨st₁, t₁, t₂, rfl, h₁, h₂⟩ := exec_bind_some hrun
  have hwrite := exec_writeRequest h₁
  have hlocate := exec_locate h₂
  obtain ⟨hf, hc⟩ := LocateRun.tables hlocate
  obtain ⟨hf₁, p, hp, hc₁⟩ := hwrite.tables
  cases hp
  refine ⟨hwrite.offLink.append hlocate.offLink, hf.trans hf₁, fun e he ↦ ?_⟩
  rw [hc] at he
  obtain he | ⟨hkey, hfound⟩ := mem_cacheAfter he
  · exact .inl (hc₁ ▸ he)
  · exact .inr ⟨hkey, roots_of_frozen hf₁ ▸ hfound⟩

/-- The flags of writes are found in no trie. -/
private theorem Mirrored.flag_not_found {c : Site} (h : Mirrored c)
    (hflag : flag = lit "-s" ∨ flag = lit "-a") (k : Nat) :
    searchInTries c.naming.roots flag ≠ some (some k) := by
  intro hfound
  obtain ⟨⟨n, hn, hmem⟩, -⟩ := (searchInTries_iff (length_of_searchInTries hfound) k).mp hfound
  have hcomponents : ∃ w, components flag = [w] ∧ w ≠ lit "." := by
    obtain rfl | rfl := hflag
    · exact ⟨lit "-s", by decide, by decide⟩
    · exact ⟨lit "-a", by decide, by decide⟩
  obtain ⟨w, hw, hne⟩ := hcomponents
  rw [hw, (h.mirrors k n hn).paths] at hmem
  obtain hx | hx | ⟨p, -, hx⟩ := hmem
  · cases hx
  · exact hne (List.cons.inj hx).1
  · exact hne (List.cons.inj hx).1

/-- The name under which the naming server keeps a server is that of its root. -/
private theorem Mirrored.rootName_eq {c : Site} (h : Mirrored c) {b : Nat} {name : Text}
    (hname : c.naming.rootName b = some name) : name = rootName (c.world.servers b) := by
  rw [NsState.rootName_eq, Option.bind_eq_some_iff] at hname
  obtain ⟨info, hinfo, hname⟩ := hname
  obtain ⟨top, folder, htop, hfolder, rfl⟩ := nameOf_eq_some.mp hname
  have hroot : c.naming.roots[b]? = some info.root := by
    rw [NsState.roots, List.getElem?_map, hinfo, Option.map_some]
  have hm := h.mirrors b _ hroot
  have htopChild := (hm.distinct.child_eq_some top.data top).mpr ⟨⟨_, htop⟩, rfl⟩
  have hfolderChild := ((hm.distinct.child htopChild).child_eq_some folder.data folder).mpr
    ⟨⟨_, hfolder⟩, rfl⟩
  have hpath : [top.data, folder.data] ∈ info.root.paths :=
    (cons_mem_paths _ _ _).mpr ⟨top, htopChild,
      (cons_mem_paths _ _ _).mpr ⟨folder, hfolderChild, nil_mem_paths folder⟩⟩
  rw [hm.paths] at hpath
  obtain hx | hx | ⟨p, ⟨⟨q, rfl⟩, -⟩, hx⟩ := hpath
  · exact absurd hx (List.cons_ne_nil _ _)
  · exact absurd (List.cons.inj hx).2 (List.cons_ne_nil _ _)
  · exact (List.cons.inj (List.cons.inj hx).2).1

/-- A backup of a written file can be sent its copy. -/
private theorem Synced.copying {b : Nat} {t : Text} {s : SsState} (h : Synced c)
    (hroot : [rootName (c.fleet.servers i)] <+: ws)
    (hb : IsBackup c.naming i b) (hup : c.fleet.up b = true)
    (hsaves : Saves ws t (c.fleet.servers i) s) (hword : IsWord (rootName (c.fleet.servers b)))
    (hfits : (commandTo c.naming b (lit "lcopy") (pathText ws)
      (replicaFolder (rootName (c.fleet.servers b)))).length < bufferSize) :
    (c.fleet.store i s).Copying i b ws t := by
  have hlt := (h.known i b hb).2
  have hserver : (c.fleet.store i s).servers b = c.fleet.servers b :=
    Function.update_of_ne ((h.backed i).ne b hb) _ _
  have hself : (c.fleet.store i s).servers i = s := Function.update_self _ _ _
  obtain ⟨haddress, heq⟩ := h.address b hlt hup
  refine ⟨?_, ?_, haddress, ?_, ?_, ?_, h.apart⟩
  · rw [hserver]
    exact h.proper hlt
  · rw [hserver]
    exact hword
  · rw [hserver]
    change (copyCommandText _ _ _ (c.fleet.address b).1 (c.fleet.address b).2).length < bufferSize
    rw [heq]
    exact hfits
  · rw [hself, hsaves.cwd, hsaves.entry, Function.update_self]
  · rw [hserver, h.replicas i b hb ws hroot]
    exact hsaves.file

/-- A notification of a write to a file of server `i`. -/
private theorem Synced.notified {line t : Text} {s : SsState} (h : Synced c) (hws : Canonical ws)
    (hi : i < c.naming.roots.length) (hhead : ws.head? = some (rootName (c.fleet.servers i)))
    (hsaves : Saves ws t (c.fleet.servers i) s) (hline : Client.notifiedPath line = some (pathText ws))
    (hx : Exec (listenAsync c.naming line) tr (some c'.naming))
    (hacc : outages.Accepts (c.fleet.store i s) tr c'.fleet)
    (hsaved : c'.saved = Function.update c.saved ws (some t))
    (hcalm : Undisturbed (.write i ws t) c c') : Synced c' := by
  obtain ⟨hword, hsent, hup, hbackup⟩ := hcalm
  have hroot := prefix_of_head hhead
  have hindex : ∀ k, c.naming.resolve (pathText ws) = some k → k = i := by
    intro k hk
    obtain ⟨hlt, hhead'⟩ := h.mirrored.resolve hws hk
    exact h.mirrored.distinct k i hlt hi (Option.some.inj (hhead'.symm.trans hhead))
  have hfits : ∀ b, IsBackup c.naming i b → CopyFits c.naming (pathText ws) (some b) := by
    rintro b hb b' name hb' hname
    obtain rfl := Option.some.inj hb'
    rw [h.mirrored.rootName_eq hname]
    exact (hbackup b hb).2.2
  obtain ⟨k, t₀, t₁, t₂, t₃, rfl, hk, h₀, h₁, h₂, h₃, hf, hcache⟩ :=
    exec_listenAsync_notified hline (fun k hk ↦ by
      obtain rfl := hindex k hk
      exact ⟨fun b name hb ↦ hfits b (.inl hb) b name rfl,
        fun b name hb ↦ hfits b (.inr hb) b name rfl⟩) hx
  obtain rfl := hindex k hk
  have hskel := skeleton_of_frozen hf
  obtain ⟨hebbs, hprop⟩ := Fleet.propagates_written hws hword hsent (h.backed k) h.quiet hsaves hup
    (fun b hb ↦ by
      refine ⟨(hbackup b hb).1, ?_, ?_, fun name hname ↦ h.mirrored.rootName_eq hname⟩
      · exact h.copying hroot hb (Fleet.up_of_accepts hacc b (hbackup b hb).1) hsaves
          (hbackup b hb).2.1 (hbackup b hb).2.2
      · exact (h.address b (h.known k b hb).2
          (Fleet.up_of_accepts hacc b (hbackup b hb).1)).2) h₀ h₁ h₂ h₃ hacc
  refine h.propagated hi hroot hprop hebbs hskel ?_ hsaved
  refine h.mirrored.next (length_roots_of_skeleton hskel) (storageServerIndex_of_frozen hf)
    (rests_idle _) (fun j _ ↦ hprop.rootPath j) (fun j n hn ↦ ?_)
    (fun e he ↦ h.mirrored.cacheAfter hws (hcache ▸ he))
  rw [roots_of_frozen hf] at hn
  refine (h.mirrored.mirrors j n hn).of_exported (Set.ext fun p ↦ ?_)
  change [rootName (c'.fleet.servers j)] <+: p ∧
      (c'.fleet.servers j).disk.entry ((c'.fleet.servers j).cwd ++ p) ≠ none ↔
    [rootName (c.fleet.servers j)] <+: p ∧
      (c.fleet.servers j).disk.entry ((c.fleet.servers j).cwd ++ p) ≠ none
  rw [hprop.rootName_eq]
  refine and_congr_right fun hp ↦ ?_
  rw [hprop.original (h.proper (List.getElem?_eq_some_iff.mp hn).1) hp]
  split
  · next hsame =>
    obtain ⟨rfl, rfl⟩ := hsame
    obtain ⟨u, hu⟩ := hsaves.file
    simp [hu]
  · rfl

/-- A write that reaches every backup keeps the invariant. -/
theorem Synced.write {st : NsState} {f : Fleet} {line t : Text} {s : SsState}
    {tr' : List NsEvent} (h : Synced c) (hws : Canonical ws)
    (hflag : flag = lit "-s" ∨ flag = lit "-a")
    (hx : Exec (processClient c.naming (writeLine flag ws)) tr (some st))
    (hacc : outages.Accepts c.fleet tr f) (hi : c.naming.resolve (pathText ws) = some i)
    (hsaves : Saves ws t (f.servers i) s) (hline : Client.notifiedPath line = some (pathText ws))
    (hx' : Exec (listenAsync st line) tr' (some c'.naming))
    (hacc' : outages.Accepts (f.store i s) tr' c'.fleet)
    (hsaved : c'.saved = Function.update c.saved ws (some t))
    (hcalm : Undisturbed (.write i ws t) c c') : Synced c' := by
  obtain ⟨hlt, hhead⟩ := h.mirrored.resolve hws hi
  obtain ⟨hoff, hf, hcache⟩ := exec_writeLine hws hflag hx
  have hfades := Fades.of_offLink hoff hacc
  have hlooked : Synced ⟨st, f, c.saved⟩ := by
    apply h.faded hfades hf
    intro e he
    obtain he | ⟨-, hfound⟩ := hcache e he
    · exact h.mirrored.cacheAfter hws he
    · exact absurd hfound (h.mirrored.flag_not_found hflag e.index)
  have hskel := skeleton_of_frozen hf
  obtain ⟨hword, hsent, hup, hbackup⟩ := hcalm
  refine hlooked.notified hws (i := i) ?_ ?_ hsaves hline hx' hacc' hsaved
    ⟨hword, hsent, hup, fun b hb ↦ ?_⟩
  · exact lt_of_lt_of_eq hlt (length_roots_of_skeleton hskel).symm
  · rw [show f.servers i = c.fleet.servers i from congrFun hfades.servers i]
    exact hhead
  · obtain ⟨hupb, hwordb, hfits⟩ := hbackup b ((isBackup_of_skeleton hskel i b).mp hb)
    rw [show f.servers b = c.fleet.servers b from congrFun hfades.servers b]
    refine ⟨hupb, hwordb, ?_⟩
    rw [commandTo, ip_of_skeleton hskel, portClient_of_skeleton hskel]
    exact hfits

end Write

/-! ### Servers that stop and return -/

section Registration

variable {c : Service} {j : Nat} {r : Registration} {st : NsState} {tr : List NsEvent}

/-- A server whose index names the folder it is known by is only marked as up again. -/
private theorem Synced.revived (h : Synced c) (hj : j < c.naming.roots.length)
    (hname : r.name = some (rootName (c.fleet.servers j)))
    (hx : Exec (r.register c.naming) tr (some st)) :
    tr = [] ∧ ∃ info, c.naming.storageServers[j]? = some info ∧ st = c.naming.revive j r := by
  have hroot : ∀ {k info}, c.naming.storageServers[k]? = some info → ∀ name,
      nameOf info.root = some name → name = rootName (c.fleet.servers k) := by
    intro k info hk name hn
    have hkept : c.naming.rootName k = some name := by
      rw [NsState.rootName_eq, hk, Option.bind_some, hn]
    exact h.mirrored.rootName_eq hkept
  have hstale : ¬ Fresh (some (rootName (c.fleet.servers j))) c.naming.roots := by
    intro hfresh
    obtain ⟨info, hinfo⟩ : ∃ info, c.naming.storageServers[j]? = some info :=
      ⟨_, List.getElem?_eq_getElem (by simpa [NsState.roots] using hj)⟩
    obtain ⟨-, hnamed, hne⟩ := hfresh info.root
      (List.mem_map.mpr ⟨info, List.mem_of_getElem? hinfo, rfl⟩)
    obtain ⟨name, hname⟩ := Option.ne_none_iff_exists'.mp hnamed
    rw [hname, hroot hinfo name hname] at hne
    exact hne rfl
  cases exec_register hx with
  | @revived k info hk hsame =>
    rw [hname] at hsame
    have hlt : k < c.naming.roots.length := by
      simpa [NsState.roots] using (List.getElem?_eq_some_iff.mp hk).1
    obtain rfl := h.mirrored.distinct j k hj hlt (hroot hk _ hsame)
    exact ⟨rfl, info, hk, rfl⟩
  | full hfresh _ => exact absurd (hname ▸ hfresh) hstale
  | added _ hfresh _ _ _ => exact absurd (hname ▸ hfresh) hstale

/-- A server that has joined keeps everything but its locks. -/
private theorem Fleet.servers_join (f : Fleet) (j : Nat) (a : Text × Nat) (k : Nat) :
    ∃ locks, (f.join j a).servers k = { f.servers k with locks := locks } := by
  by_cases hkj : k = j
  · subst hkj
    exact ⟨[], Function.update_self _ _ _⟩
  · exact ⟨(f.servers k).locks, Function.update_of_ne hkj _ _⟩

/-- A server that joins at an address of its own. -/
private theorem Fleet.apart_join {f : Fleet} {a : Text × Nat} {j : Nat}
    (h : ∀ i k, f.up i = true → f.up k = true → f.address i = f.address k → i = k)
    (hnew : ∀ k, f.up k = true → f.address k ≠ a) (i k : Nat) (hi : (f.join j a).up i = true)
    (hk : (f.join j a).up k = true) (heq : (f.join j a).address i = (f.join j a).address k) :
    i = k := by
  by_cases hij : i = j
  · by_cases hkj : k = j
    · rw [hij, hkj]
    · subst hij
      simp only [Fleet.join, Function.update_self, Function.update_of_ne hkj] at hk heq
      exact absurd heq.symm (hnew k hk)
  · by_cases hkj : k = j
    · subst hkj
      simp only [Fleet.join, Function.update_self, Function.update_of_ne hij] at hi heq
      exact absurd heq (hnew i hi)
    · simp only [Fleet.join, Function.update_of_ne hij, Function.update_of_ne hkj] at hi hk heq
      exact h i k hi hk heq

/-- A server that is marked as up again has the disk it had. -/
private theorem Synced.rejoined {info : StorageServerInfo} (h : Synced c)
    (hinfo : c.naming.storageServers[j]? = some info) (haddress : IsAddress (r.ip, r.portClient))
    (hapart : ∀ k, c.fleet.up k = true → c.fleet.address k ≠ (r.ip, r.portClient)) :
    Synced ⟨c.naming.revive j r, c.fleet.join j (r.ip, r.portClient), c.saved⟩ := by
  have hlen : (c.naming.revive j r).roots.length = c.naming.roots.length := by
    rw [roots_revive]
  have hserver := c.fleet.servers_join j (r.ip, r.portClient)
  have hbackup : ∀ i b, IsBackup (c.naming.revive j r) i b ↔ IsBackup c.naming i b := by
    intro i b
    rw [IsBackup, (backupServers_revive _ j i r).1, (backupServers_revive _ j i r).2, IsBackup]
  refine ⟨?_, fun i ↦ ⟨fun b hb ↦ (h.backed i).ne b ((hbackup i b).mp hb), ?_⟩, fun i b hb ↦ ?_,
    fun k hk hup ↦ ?_, Fleet.apart_join h.apart hapart, fun k ↦ ?_, fun i b hb p hp ↦ ?_,
    fun k hk p hp t ↦ ?_⟩
  · refine h.mirrored.next hlen rfl (rests_idle _) (fun k _ ↦ ?_) (fun k n hn ↦ ?_)
      h.mirrored.cache
    · obtain ⟨locks, hk⟩ := hserver k
      simp only [Service.site, hk]
    · rw [roots_revive] at hn
      refine (h.mirrored.mirrors k n hn).of_exported ?_
      obtain ⟨locks, hk⟩ := hserver k
      simp only [hk]
      rfl
  · rw [(backupServers_revive _ j i r).1, (backupServers_revive _ j i r).2]
    exact (h.backed i).distinct
  · rw [hlen]
    exact h.known i b ((hbackup i b).mp hb)
  · rw [hlen] at hk
    simp only [(address_revive hinfo r k).1, (address_revive hinfo r k).2]
    by_cases hkj : k = j
    · subst hkj
      simp only [Fleet.join, Function.update_self, if_true]
      exact ⟨haddress, trivial⟩
    · simp only [Fleet.join, Function.update_of_ne hkj] at hup ⊢
      rw [if_neg hkj, if_neg hkj]
      exact h.address k hk hup
  · by_cases hkj : k = j
    · subst hkj
      exact Function.update_self _ _ _
    · exact (Function.update_of_ne hkj _ _).trans (h.quiet k)
  · obtain ⟨locks, hi⟩ := hserver i
    obtain ⟨locks', hb'⟩ := hserver b
    simp only [hi, hb'] at hp ⊢
    exact h.replicas i b ((hbackup i b).mp hb) p hp
  · rw [hlen] at hk
    obtain ⟨locks, hk'⟩ := hserver k
    simp only [hk'] at hp ⊢
    exact h.saved k hk p hp t

/-- The return of a server leaves every disk and every trie as they are. -/
theorem Synced.register {f : Fleet} (h : Synced c) (hj : j < c.naming.roots.length)
    (hname : r.name = some (rootName (c.fleet.servers j)))
    (haddress : IsAddress (r.ip, r.portClient))
    (hapart : ∀ k, c.fleet.up k = true → c.fleet.address k ≠ (r.ip, r.portClient))
    (hx : Exec (r.register c.naming) tr (some st)) (hacc : outages.Accepts c.fleet tr f) :
    Synced ⟨st, f.join j (r.ip, r.portClient), c.saved⟩ := by
  obtain ⟨rfl, info, hinfo, rfl⟩ := h.revived hj hname hx
  have hfades := Fades.of_silent hacc.ended
  have hfaded : Synced ⟨c.naming, f, c.saved⟩ := h.faded hfades rfl h.mirrored.cache
  refine hfaded.rejoined hinfo haddress (fun k hk ↦ ?_)
  rw [show f.address k = c.fleet.address k from congrFun hfades.address k]
  exact hapart k (hfades.up k hk)

/-- The loss of a server. -/
theorem Synced.lost (h : Synced c) (j : Nat) : Synced ⟨c.naming, c.fleet.lose j, c.saved⟩ :=
  h.faded (.lose c.fleet j) rfl h.mirrored.cache

end Registration

/-! ### Runs -/

section Runs

variable {c c' : Service}

/-- Registrations of folders are registrations. -/
private theorem Registered.registers {ok : SsState → Listing → Prop} {st : NsState}
    {ss : List SsState} (h : Registered ok st ss) : ∃ rs log, Registers rs log st := by
  induction h with
  | none => exact ⟨_, _, .start⟩
  | register _ _ _ _ _ hx ih =>
    obtain ⟨rs, log, hrs⟩ := ih
    exact ⟨_, _, .next (r := ⟨_, _, _, _⟩) hrs hx⟩

private theorem Backed.of_tabled {st : NsState} (h : Tabled st) (i : Nat) : Backed st i := by
  refine ⟨fun b hb ↦ (h.backup hb).2, fun b hfirst hsecond ↦ ?_⟩
  rw [NsState.backupServer1, Option.bind_eq_some_iff] at hfirst
  obtain ⟨info, hi, hfirst⟩ := hfirst
  rw [NsState.backupServer2, hi, Option.bind_some] at hsecond
  have hback := h.backups i info hi
  rw [hfirst, hsecond] at hback
  unfold assigned at hback
  split at hback
  · obtain ⟨h₁, h₂⟩ := Prod.mk.inj hback
    exact (backupsOf_spec i).2.2.1 ((Option.some.inj h₁).symm.trans (Option.some.inj h₂))
  · cases (Prod.mk.inj hback).1

private theorem known_of_tabled {st : NsState} (h : Tabled st) {i b : Nat}
    (hb : IsBackup st i b) : i < st.roots.length ∧ b < st.roots.length := by
  have hlen : st.roots.length = st.storageServers.length := by simp [NsState.roots]
  rw [hlen]
  refine ⟨?_, (h.backup hb).1⟩
  by_contra hle
  have hnone : st.storageServers[i]? = none := List.getElem?_eq_none (not_lt.mp hle)
  simp [IsBackup, NsState.backupServer1, NsState.backupServer2, hnone] at hb

theorem Service.Start.synced (h : c.Start) : Synced c := by
  obtain ⟨ss, hreg, -, hkeeps⟩ := h.registered
  obtain ⟨rs, log, hrs⟩ := hreg.registers
  have hstart : Site.Start Clear c.site :=
    ⟨ss, hreg, fun i ↦ ⟨rfl, rfl, rfl⟩, hkeeps⟩
  exact ⟨hstart.mirrored, .of_tabled hrs.tabled, fun i b hb ↦ known_of_tabled hrs.tabled hb,
    fun i hi _ ↦ (h.up i hi).2, h.apart, h.quiet, h.replicas, h.saved⟩

/-- One step lemma for a whole run: whatever servers stop and return, updates that reach the
backups keep the invariant. -/
theorem Synced.step (h : Synced c) (hs : Service.Step Undisturbed c c') : Synced c' := by
  cases hs with
  | entry hv hws hx hacc hmem hyes hsaved hcalm =>
    exact h.entry hv hws hx hacc hmem hyes hsaved hcalm
  | write hws hflag hx hacc hi _ _ hsaves hline hx' hacc' hsaved hcalm =>
    exact h.write hws hflag hx hacc hi hsaves hline hx' hacc' hsaved hcalm
  | loss => exact h.lost _
  | register hj _ hname haddress hapart hx hacc =>
    exact h.register (r := ⟨_, _, _, _⟩) hj hname haddress hapart hx hacc

theorem Synced.current (h : Synced c) {i b : Nat} (hb : IsBackup c.naming i b) : Current c i b := by
  refine ⟨fun n hn ws hroot ↦ ?_, fun ws hroot t ↦ ?_⟩
  · rw [h.replicas i b hb ws hroot]
    have hm := h.mirrored.mirrors i n hn
    change _ ↔ lit "." :: ws ∈ n.paths
    rw [hm.paths]
    constructor
    · intro hsome
      exact .inr (.inr ⟨ws, ⟨hroot, hsome⟩, rfl⟩)
    · rintro (hx | hx | ⟨p, ⟨-, hsome⟩, hx⟩)
      · exact absurd hx (List.cons_ne_nil _ _)
      · obtain ⟨q, rfl⟩ := hroot
        exact absurd (List.cons.inj hx).2 (List.cons_ne_nil _ _)
      · rw [(List.cons.inj hx).2]
        exact hsome
  · rw [h.replicas i b hb ws hroot]
    exact (h.saved i (h.known i b hb).1 ws hroot t).symm

/-- In every run whose updates reach their backups, a server that stands in for another one has
its folder as the naming server knows it, and its files as they were written last. -/
theorem failover_is_current (h : Reachable Service.Start (Service.Step Undisturbed) c) :
    FailoverIsCurrent c := by
  have hsynced : Synced c :=
    h.invariant (I := Synced) (fun _ hs ↦ hs.synced) (fun _ _ hi hs ↦ hi.step hs)
  intro i b tr st f hx _ hne
  apply hsynced.current
  exact (exec_redundantSs_some hx).resolve_left hne

end Runs

/-! ### Three servers -/

/-- A disk with the folders in `l` and nothing else. -/
def foldersOnly (l : List (List Text)) (htop : [] ∈ l) (hparent : ∀ p ∈ l, p.dropLast ∈ l) :
    FileSystem where
  entry := fun p ↦ if p ∈ l then some .folder else none
  top := if_pos htop
  parent := by
    intro dir name h
    have hmem : dir ++ [name] ∈ l := by
      by_contra hnot
      exact h (if_neg hnot)
    have hdir := hparent _ hmem
    rw [List.dropLast_concat] at hdir
    exact if_pos hdir

/-- A disk with the folders in `l` and the files in `l'`, which are all the same. -/
def filesOf (l l' : List (List Text)) (t : Text) (htop : [] ∈ l)
    (hparent : ∀ p ∈ l ++ l', p.dropLast ∈ l) : FileSystem where
  entry := fun p ↦ if p ∈ l then some .folder else if p ∈ l' then some (.file t) else none
  top := if_pos htop
  parent := by
    intro dir name h
    have hmem : dir ++ [name] ∈ l ++ l' := by
      by_contra hnot
      rw [List.mem_append, not_or] at hnot
      rw [if_neg hnot.1, if_neg hnot.2] at h
      exact h rfl
    have hdir := hparent _ hmem
    rw [List.dropLast_concat] at hdir
    exact if_pos hdir

/-- The names of the exported folders. -/
def tripleNames : List Text := [lit "s", lit "t", lit "u"]

/-- The name of the folder that server `i` exports. -/
def tripleName : Nat → Text
  | 0 => lit "s"
  | 1 => lit "t"
  | _ => lit "u"

theorem tripleName_mem (i : Nat) : tripleName i ∈ tripleNames := by
  match i with
  | 0 => decide
  | 1 => decide
  | _ + 2 => exact (by decide : lit "u" ∈ tripleNames)

theorem tripleName_ne (i : Nat) : tripleName i ≠ lit "backupfolderforss" := by
  intro h
  exact absurd (h ▸ tripleName_mem i) (by decide)

theorem plain_triple : ∀ w ∈ tripleNames, PlainName w ∧ newline ∉ w := by
  have hname : ∀ w ∈ tripleNames, w ≠ [] ∧ slash ∉ w ∧ 0 ∉ w ∧ w ≠ lit "." ∧ w ≠ lit ".." ∧
      w ≠ lit "~" ∧ newline ∉ w := by
    decide
  intro w hw
  obtain ⟨h₁, h₂, h₃, h₄, h₅, h₆, h₇⟩ := hname w hw
  exact ⟨⟨⟨h₁, h₂, h₃, h₄, h₅⟩, h₆⟩, h₇⟩

/-- The folders of a server that exports `r`: its own one and those for the replicas. -/
def tripleFolders (r : Text) : List (List Text) :=
  [[], [r], [lit "backupfolderforss"], [lit "backupfolderforss", r]] ++
    tripleNames.map (fun w ↦ [lit "backupfolderforss", r, w])

theorem nil_mem_tripleFolders (r : Text) : [] ∈ tripleFolders r := by
  simp [tripleFolders]

/-- A disk with these folders and the files in `l`, which are all the same. -/
def tripleDisk (r : Text) (l : List (List Text)) (t : Text)
    (hparent : ∀ p ∈ tripleFolders r ++ l, p.dropLast ∈ tripleFolders r) : FileSystem :=
  filesOf (tripleFolders r) l t (nil_mem_tripleFolders r) hparent

/-- Three servers, up, and nothing on the way. -/
def threeUp (servers : Nat → SsState) : Fleet where
  servers := servers
  up := fun i ↦ decide (i < 3)
  address := fun i ↦ (lit "10.0.0.1", 4000 + i)
  answers := fun _ ↦ []

/-- The registration of three servers with the same entries. -/
def threeEnrolled (servers : Nat → SsState) (l : Listing) : NsProg NsState := do
  let st ← registerStorageServer .initial 4 (lit "10.0.0.1") 4000 (indexOf (servers 0) l)
  let st ← registerStorageServer st 5 (lit "10.0.0.1") 4001 (indexOf (servers 1) l)
  registerStorageServer st 6 (lit "10.0.0.1") 4002 (indexOf (servers 2) l)

section Triple

variable {servers : Nat → SsState} {l : Listing} {tr : List NsEvent} {st : NsState}

theorem registered_three (hname : ∀ i, rootName (servers i) = tripleName i)
    (hann : ∀ i, Announces (servers i) l) (hclear : ∀ i, Clear (servers i) l)
    (h : Exec (threeEnrolled servers l) tr (some st)) :
    Registered Clear st [servers 0, servers 1, servers 2] := by
  obtain ⟨st₁, _, _, -, h₁, hrest⟩ := exec_bind_some h
  obtain ⟨st₂, _, _, -, h₂, h₃⟩ := exec_bind_some hrest
  have hnone : rootName (servers 0) ∉ ([] : List SsState).map rootName := List.not_mem_nil
  have hzero : rootName (servers 1) ∉ ([] ++ [servers 0]).map rootName := by
    simp only [List.nil_append, List.map_cons, List.map_nil, hname]
    decide
  have hone : rootName (servers 2) ∉ (([] ++ [servers 0]) ++ [servers 1]).map rootName := by
    simp only [List.nil_append, List.cons_append, List.map_cons, List.map_nil, hname]
    decide
  have hroom : 2 < maxStorageServers := by decide
  have hroom' : 1 < maxStorageServers := by omega
  have hroom'' : 0 < maxStorageServers := by omega
  exact .register (.register (.register .none (hann 0) (hclear 0) hnone hroom'' h₁) (hann 1)
    (hclear 1) hzero hroom' h₂) (hann 2) (hclear 2) hone hroom h₃

/-- Three servers are a start if the replicas and what is recorded agree with the disks. -/
theorem start_three {saved : List Text → Option Text}
    (hname : ∀ i, rootName (servers i) = tripleName i)
    (hann : ∀ i, Announces (servers i) l) (hclear : ∀ i, Clear (servers i) l)
    (h : Exec (threeEnrolled servers l) tr (some st)) (hcount : st.roots.length = 3)
    (haddress : ∀ i < 3, (st.ip i, st.portClient i) = (lit "10.0.0.1", 4000 + i))
    (hreplicas : ∀ i b q, replica (servers b) (tripleName i :: q) =
      (servers i).disk.entry ((servers i).cwd ++ tripleName i :: q))
    (hsaved : ∀ i q t, saved (tripleName i :: q) = some t ↔
      (servers i).disk.entry ((servers i).cwd ++ tripleName i :: q) = some (.file t)) :
    Service.Start ⟨st, threeUp servers, saved⟩ where
  registered := by
    refine ⟨_, registered_three hname hann hclear h, le_rfl, fun i s hs ↦ ?_⟩
    have hsame : s = servers i := by
      match i, hs with
      | 0, hs => exact (Option.some.inj hs).symm
      | 1, hs => exact (Option.some.inj hs).symm
      | 2, hs => exact (Option.some.inj hs).symm
    rw [hsame]
    exact .refl _
  up := by
    intro i hi
    rw [hcount] at hi
    refine ⟨decide_eq_true hi, ?_, (haddress i hi).symm⟩
    have hip : IsWord (lit "10.0.0.1") ∧ lit "10.0.0.1" ≠ [] ∧ (lit "10.0.0.1").length < 16 := by
      decide
    refine ⟨hip.1, hip.2.1, hip.2.2, ?_⟩
    change 4000 + i < 2 ^ 16
    omega
  apart := by
    intro i j _ _ heq
    have hport : 4000 + i = 4000 + j := congrArg Prod.snd heq
    omega
  quiet := fun _ ↦ rfl
  replicas := by
    intro i b _ ws hws
    change [rootName (servers i)] <+: ws at hws
    rw [hname] at hws
    obtain ⟨q, rfl⟩ := hws
    exact hreplicas i b q
  saved := by
    intro i _ ws hws t
    change [rootName (servers i)] <+: ws at hws
    rw [hname] at hws
    obtain ⟨q, rfl⟩ := hws
    exact hsaved i q t

end Triple

/-- Server `i` works at the top, exports an empty folder and holds replicas of the others. -/
private def tripleServer (i : Nat) : SsState where
  cwd := []
  rootPath := lit "./" ++ tripleName i
  disk := foldersOnly (tripleFolders (tripleName i)) (nil_mem_tripleFolders _)
    (by simp [tripleFolders])
  locks := []

private theorem rootName_triple (i : Nat) : rootName (tripleServer i) = tripleName i := rfl

/-- The exported folder of a server is empty. -/
private theorem entry_own (i : Nat) (q : List Text) :
    (tripleServer i).disk.entry (tripleName i :: q) = if q = [] then some .folder else none := by
  have hne := tripleName_ne i
  change (if tripleName i :: q ∈ tripleFolders (tripleName i) then _ else _) = _
  simp [tripleFolders, hne, hne.symm]

/-- The replica of each exported folder is empty. -/
private theorem entry_replica (i : Nat) {w : Text} (hw : w ∈ tripleNames) (q : List Text) :
    (tripleServer i).disk.entry (lit "backupfolderforss" :: tripleName i :: w :: q) =
      if q = [] then some .folder else none := by
  have hne := tripleName_ne i
  change (if _ ∈ tripleFolders (tripleName i) then _ else _) = _
  by_cases hq : q = []
  · simp [tripleFolders, hq, hw]
  · simp [tripleFolders, hq]

private theorem announces_triple (i : Nat) : Announces (tripleServer i) .done where
  root := by
    rw [rootName_triple]
    simp [tripleServer, pathText, lit, slash]
  name := (plain_triple _ (tripleName_mem i)).1.toFileName
  holds := by
    refine ⟨?_, fun p e hp ↦ ?_⟩
    · exact (entry_own i []).trans (if_pos rfl)
    · change (tripleServer i).disk.entry (tripleName i :: p) = some e ↔ _
      rw [entry_own, if_neg hp]
      simp [Listing.Has]
  visible := by simp [Listing.Has]
  roomy := by
    rintro p ⟨q, rfl⟩
    have hnone : (tripleServer i).disk.names ([] ++ ([tripleName i] ++ q)) = ∅ := by
      ext w
      simp [FileSystem.names, entry_own]
    rw [rootName_triple, show (tripleServer i).cwd = [] from rfl, hnone]
    simp

private theorem clear_triple (i : Nat) : Clear (tripleServer i) .done where
  root := by
    have hindex : ∀ w ∈ tripleNames, Indexable (pathText [w]) := by
      unfold Indexable
      decide
    have hplain := plain_triple _ (tripleName_mem i)
    rw [rootName_triple]
    exact ⟨⟨by simpa using hplain.1, (by decide : 2 < maxPath)⟩, by simpa using hplain.2,
      hindex _ (tripleName_mem i)⟩
  entries := by simp [Listing.Has]
  ne_backup := tripleName_ne i

/-- What the naming server knows of the three servers. -/
private structure Tripled (st : NsState) : Prop where
  count : st.roots.length = 3
  addresses : ∀ i < 3, (st.ip i, st.portClient i) = (lit "10.0.0.1", 4000 + i)
  first : st.backupServer1 0 = some 1
  second : st.backupServer2 0 = some 2

private instance (st : NsState) : Decidable (Tripled st) :=
  decidable_of_iff (st.roots.length = 3 ∧
    (∀ i < 3, (st.ip i, st.portClient i) = (lit "10.0.0.1", 4000 + i)) ∧
    st.backupServer1 0 = some 1 ∧ st.backupServer2 0 = some 2)
    ⟨fun ⟨h₁, h₂, h₃, h₄⟩ ↦ ⟨h₁, h₂, h₃, h₄⟩, fun ⟨h₁, h₂, h₃, h₄⟩ ↦ ⟨h₁, h₂, h₃, h₄⟩⟩

private theorem start_triple {tr : List NsEvent} {st : NsState}
    (h : Exec (threeEnrolled tripleServer .done) tr (some st)) (hst : Tripled st) :
    Service.Start ⟨st, threeUp tripleServer, fun _ ↦ none⟩ := by
  refine start_three rootName_triple announces_triple clear_triple h hst.count hst.addresses
    (fun i b q ↦ ?_) (fun i q t ↦ ?_)
  · exact (entry_replica b (tripleName_mem i) q).trans (entry_own i q).symm
  · have hown : (tripleServer i).disk.entry (tripleName i :: q) ≠ some (.file t) := by
      rw [entry_own]
      split <;> simp
    exact ⟨fun hnone ↦ absurd hnone (Option.some_ne_none t).symm, fun hfile ↦ absurd hfile hown⟩

private theorem exists_start {α : Type} {next : NsState → Option α} {v : α}
    (h : ((threeEnrolled tripleServer .done).runWith agreeable).2.bind
      (fun st ↦ if Tripled st then next st else none) = some v) :
    ∃ st, Tripled st ∧ Service.Start ⟨st, threeUp tripleServer, fun _ ↦ none⟩ ∧
      next st = some v := by
  obtain ⟨st, hst, hrest⟩ := Option.bind_eq_some_iff.mp h
  obtain ⟨htripled, hnext⟩ := Option.ite_none_right_eq_some.mp hrest
  have hreg := exec_runWith agreeable (threeEnrolled tripleServer .done)
  rw [hst] at hreg
  exact ⟨st, htripled, start_triple hreg htripled, hnext⟩

/-! ### A folder is made -/

/-- A server that has made a folder. -/
private def withFolder (s : SsState) (dir : List Text) (name : Text)
    (hdir : s.disk.entry dir = some .folder) : SsState :=
  { s with disk := s.disk.put dir name .folder hdir (fun _ ↦ rfl) }

private theorem obeys_mkdir {s : SsState} {msg : Text} {out dir : List Text} {name : Text}
    (path : Text) (hlocks : s.locks = [])
    (hround : (entryRound s.rootPath [] msg).bind
      (fun round ↦ round.replay [⟨⟨.mkdir, path⟩, true⟩]) = some (some (out, [])))
    (hpath : resolveFrom s.cwd path = dir ++ [name]) (hdir : s.disk.entry dir = some .folder)
    (hnew : s.disk.entry (dir ++ [name]) = none) :
    Obeys msg out s (withFolder s dir name hdir) := by
  obtain ⟨round, hsome, hreplay⟩ := Option.bind_eq_some_iff.mp hround
  refine ⟨round, _, s.locks, _, hlocks ▸ hsome, hlocks ▸ exec_of_replay hreplay,
    .event (r := true) ⟨?_, Bool.noConfusion⟩ .nil, rfl⟩
  change Call.Effect (resolveFrom s.cwd path) _ _ .mkdir
  rw [hpath]
  exact ⟨hnew, rfl⟩

/-- The first server behind `mkdir ./s/a`. -/
private def madeOriginal : SsState := withFolder (tripleServer 0) [lit "s"] (lit "a") rfl

private theorem roomy_madeOriginal : Roomy madeOriginal := by
  rintro p ⟨q, rfl⟩
  have hsub : madeOriginal.disk.names ([] ++ ([lit "s"] ++ q)) ⊆ {lit "a"} := by
    intro w hw
    change Function.update (tripleServer 0).disk.entry [lit "s", lit "a"] (some .folder)
      (lit "s" :: (q ++ [w])) ≠ none at hw
    by_cases heq : lit "s" :: (q ++ [w]) = [lit "s", lit "a"]
    · have hlast := congrArg List.getLast? heq
      rw [← List.cons_append, List.getLast?_concat] at hlast
      exact Option.some.inj hlast
    · rw [Function.update_of_ne heq] at hw
      exact absurd ((entry_own 0 (q ++ [w])).trans (if_neg (by simp))) hw
  refine (Set.encard_le_encard hsub).trans ?_
  rw [Set.encard_singleton]
  exact_mod_cast (by decide : 1 ≤ maxFolders)

/-- A backup that `mkdirb ./s/a` has reached. -/
private def madeReplica (b : Nat) : SsState :=
  withFolder (tripleServer b) [lit "backupfolderforss", tripleName b, lit "s"] (lit "a")
    ((entry_replica b (by decide) []).trans (if_pos rfl))

private theorem obeys_original :
    Obeys (lit "mkdir ./s/a") [lit "Created folder @ ./s/a\n"] (tripleServer 0) madeOriginal :=
  obeys_mkdir (lit "./s/a") rfl (by decide +kernel) (by decide +kernel) _ (by decide +kernel)

private theorem obeys_replica {b : Nat} (hb : b = 1 ∨ b = 2) :
    Obeys (lit "mkdirb ./s/a") [] (tripleServer b) (madeReplica b) := by
  obtain rfl | rfl := hb
  · exact obeys_mkdir (lit "./backupfolderforss/t/s/a") rfl (by decide +kernel)
      (by decide +kernel) _ (by decide +kernel)
  · exact obeys_mkdir (lit "./backupfolderforss/u/s/a") rfl (by decide +kernel)
      (by decide +kernel) _ (by decide +kernel)

private theorem accepts_ping {f f' : Fleet} {b : Nat} {r : PingResult} {rest : List NsEvent}
    (hr : r = PingResult.up ↔ f.up b = true) (h : outages.Accepts f rest f') :
    outages.Accepts f (⟨.ping b, r⟩ :: rest) f' :=
  .event ⟨rfl, hr⟩ h

/-- The trace of `mkdir ./s/a` on the first server, up to the backups. -/
private def makes (rest : List NsEvent) : List NsEvent :=
  ⟨.ping 0, PingResult.up⟩ :: ⟨.forward 0 (lit "mkdir ./s/a"), true⟩ ::
    ⟨.recvServer 0, some (lit "Created folder @ ./s/a\n")⟩ ::
    ⟨.sendClient (lit "Created folder @ ./s/a\n"), true⟩ :: rest

private theorem accepts_makes {f f' : Fleet} {rest : List NsEvent} (hup : f.up 0 = true)
    (hserver : f.servers 0 = tripleServer 0) (hquiet : f.answers 0 = [])
    (h : outages.Accepts (f.store 0 madeOriginal) rest f') :
    outages.Accepts f (makes rest) f' := by
  have hobeys : Obeys (lit "mkdir ./s/a") [lit "Created folder @ ./s/a\n"] (f.servers 0)
      madeOriginal := hserver ▸ obeys_original
  have hanswer : ((f.store 0 madeOriginal).send 0 [lit "Created folder @ ./s/a\n"]).answers 0 =
      [lit "Created folder @ ./s/a\n"] := by
    simp [Fleet.send, Fleet.store, hquiet]
  have hread : { (f.store 0 madeOriginal).send 0 [lit "Created folder @ ./s/a\n"] with
      answers := Function.update ((f.store 0 madeOriginal).send 0
        [lit "Created folder @ ./s/a\n"]).answers 0 [] } = f.store 0 madeOriginal := by
    have hsame : Function.update f.answers 0 [] = f.answers := by
      rw [← hquiet, Function.update_eq_self]
    simp [Fleet.send, Fleet.store, hsame]
  refine accepts_ping (by simp [hup]) (.event (.inl ⟨hup, rfl, .entry hobeys⟩)
    (.event (.inl ⟨_, [], hanswer, rfl, rfl⟩) (.event rfl ?_)))
  rw [hread]
  exact h

private theorem accepts_replica {f f' : Fleet} {b : Nat} {rest : List NsEvent}
    (hb : b = 1 ∨ b = 2) (hup : f.up b = true) (hserver : f.servers b = tripleServer b)
    (h : outages.Accepts (f.store b (madeReplica b)) rest f') :
    outages.Accepts f
      (⟨.ping b, PingResult.up⟩ :: ⟨.replicate b (lit "mkdirb ./s/a"), true⟩ :: rest) f' := by
  have hobeys : Obeys (lit "mkdirb ./s/a") [] (f.servers b) (madeReplica b) :=
    hserver ▸ obeys_replica hb
  refine accepts_ping (by simp [hup]) (.event (.inl ⟨hup, rfl, .entry hobeys⟩) ?_)
  simpa [Fleet.send] using h

/-- Where the naming server turns to when the first server does not answer but the second does. -/
private def failsOver : List NsEvent := [⟨.ping 0, PingResult.down⟩, ⟨.ping 1, PingResult.up⟩]

private theorem accepts_failsOver {f : Fleet} (hdown : f.up 0 = false) (hup : f.up 1 = true) :
    outages.Accepts f failsOver f :=
  accepts_ping (by simp [hdown]) (accepts_ping (by simp [hup]) .nil)

/-- `mkdir ./s/a` is confirmed, and nothing is recorded for it. -/
private theorem step_made {calm : Update → Service → Service → Prop} {st st' : NsState}
    {f f' : Fleet} {rest : List NsEvent}
    (hx : Exec (processClient st (commandLine Verb.mkdir.name [lit "s", lit "a"])) (makes rest)
      (some st'))
    (hacc : outages.Accepts f (makes rest) f')
    (hcalm : calm (.entry 0 .mkdir [lit "s", lit "a"]) ⟨st, f, fun _ ↦ none⟩
      ⟨st', f', fun _ ↦ none⟩) :
    Service.Step calm ⟨st, f, fun _ ↦ none⟩ ⟨st', f', fun _ ↦ none⟩ := by
  have hanswer :
      (⟨.recvServer 0, some (lit "Created folder @ ./s/a\n")⟩ : NsEvent) ∈ makes rest := by
    simp [makes]
  refine .entry (.inl rfl) canonical_folder hx hacc hanswer (by decide) ?_ hcalm
  exact (Function.update_eq_self (f := fun _ ↦ none) _).symm

/-- A server goes down behind an update that has reached its backups, and the first of these
stands in for it. -/
theorem failover_is_current_after_mkdir :
    ∃ c tr st f, Reachable Service.Start (Service.Step Undisturbed) c ∧ FailoverIsCurrent c ∧
      Exec (redundantSs c.naming 0) tr (some (some 1, st)) ∧ outages.Accepts c.fleet tr f ∧
      replica (c.fleet.servers 1) [lit "s", lit "a"] = some .folder := by
  let tr := makes [⟨.ping 1, PingResult.up⟩, ⟨.replicate 1 (lit "mkdirb ./s/a"), true⟩,
    ⟨.ping 2, PingResult.up⟩, ⟨.replicate 2 (lit "mkdirb ./s/a"), true⟩]
  have hrun : ((threeEnrolled tripleServer .done).runWith agreeable).2.bind (fun st ↦
      if Tripled st then
        ((processClient st (commandLine Verb.mkdir.name [lit "s", lit "a"])).replay tr).join.bind
          (fun st' ↦ ((redundantSs st' 0).replay failsOver).join.map Prod.fst)
      else none) = some (some 1) := by
    decide +kernel
  obtain ⟨st, htripled, hstart, hrest⟩ := exists_start hrun
  obtain ⟨st', hst', hrest⟩ := Option.bind_eq_some_iff.mp hrest
  obtain ⟨⟨_, st''⟩, hst'', rfl⟩ := Option.map_eq_some_iff.mp hrest
  let f : Fleet := (((threeUp tripleServer).store 0 madeOriginal).store 1 (madeReplica 1)).store 2
    (madeReplica 2)
  have hacc : outages.Accepts (threeUp tripleServer) tr f :=
    accepts_makes rfl rfl rfl (accepts_replica (.inl rfl) rfl rfl
      (accepts_replica (.inr rfl) rfl rfl .nil))
  have hcalm : Undisturbed (.entry 0 .mkdir [lit "s", lit "a"]) ⟨st, threeUp tripleServer,
      fun _ ↦ none⟩ ⟨st', f, fun _ ↦ none⟩ := by
    refine ⟨by decide, roomy_madeOriginal, fun b hb ↦ ?_⟩
    have hone : b = 1 ∨ b = 2 := by
      obtain hb | hb := hb
      · exact .inl (Option.some.inj (hb.symm.trans htripled.first))
      · exact .inr (Option.some.inj (hb.symm.trans htripled.second))
    have hshort : ∀ w ∈ tripleNames,
        (replicaPath w (pathText [lit "s", lit "a"])).length < maxPathSize := by
      decide
    refine ⟨?_, hshort _ (tripleName_mem b)⟩
    obtain rfl | rfl := hone
    · rfl
    · rfl
  have hreach : Reachable Service.Start (Service.Step Undisturbed) ⟨st', f.lose 0, fun _ ↦ none⟩ :=
    ((Reachable.start hstart).next
      (step_made (exec_of_replay (Option.join_eq_some_iff.mp hst')) hacc hcalm)).next .loss
  exact ⟨_, failsOver, st'', _, hreach, failover_is_current hreach,
    exec_of_replay (Option.join_eq_some_iff.mp hst''), accepts_failsOver rfl rfl,
    (by decide +kernel : replica (madeReplica 1) [lit "s", lit "a"] = some .folder)⟩

/-- A backup that was down during an update and has registered again stands in with its old
replica: the folder in the trie of the server is not there. -/
theorem returned_backup_is_stale :
    ¬ ∀ c, Reachable Service.Start (Service.Step fun _ _ _ ↦ True) c → FailoverIsCurrent c := by
  intro hall
  let tr := makes [⟨.ping 1, PingResult.down⟩, ⟨.ping 2, PingResult.down⟩]
  have hrun : ((threeEnrolled tripleServer .done).runWith agreeable).2.bind (fun st ↦
      if Tripled st then
        ((processClient st (commandLine Verb.mkdir.name [lit "s", lit "a"])).replay tr).join.bind
          (fun st₁ ↦ ((registerStorageServer st₁ 5 (lit "10.0.0.1") 4001
            (indexOf (tripleServer 1) .done)).replay []).join.bind (fun st₂ ↦
              ((redundantSs st₂ 0).replay failsOver).join.map (fun x ↦
                (st₁.roots.length, x.1,
                  st₂.roots[0]?.map (searchPathHelper [lit ".", lit "s", lit "a"])))))
      else none) = some (3, some 1, some true) := by
    decide +kernel
  obtain ⟨st, htripled, hstart, hrest⟩ := exists_start hrun
  obtain ⟨st₁, hst₁, hrest⟩ := Option.bind_eq_some_iff.mp hrest
  obtain ⟨st₂, hst₂, hrest⟩ := Option.bind_eq_some_iff.mp hrest
  obtain ⟨⟨x, st₃⟩, hst₃, hfacts⟩ := Option.map_eq_some_iff.mp hrest
  obtain ⟨hlen, hfacts⟩ := Prod.mk.inj hfacts
  obtain ⟨rfl, hfound⟩ := Prod.mk.inj hfacts
  let f : Fleet := ((threeUp tripleServer).lose 1).lose 2
  let g : Fleet := f.store 0 madeOriginal
  have hacc : outages.Accepts f tr g :=
    accepts_makes rfl rfl rfl (accepts_ping (by decide) (accepts_ping (by decide) .nil))
  have hmade : Service.Step (fun _ _ _ ↦ True) ⟨st, f, fun _ ↦ none⟩ ⟨st₁, g, fun _ ↦ none⟩ :=
    step_made (exec_of_replay (Option.join_eq_some_iff.mp hst₁)) hacc trivial
  have hname : Registration.name ⟨5, lit "10.0.0.1", 4001, indexOf (tripleServer 1) .done⟩ =
      some (rootName (tripleServer 1)) := by
    decide +kernel
  have hback : Service.Step (fun _ _ _ ↦ True) ⟨st₁, g, fun _ ↦ none⟩
      ⟨st₂, g.join 1 (lit "10.0.0.1", 4001), fun _ ↦ none⟩ := by
    refine .register (hlen.symm ▸ (by decide : 1 < 3)) rfl hname ?_ ?_
      (exec_of_replay (Option.join_eq_some_iff.mp hst₂)) .nil
    · exact (hstart.up 1 (htripled.count.symm ▸ (by decide : 1 < 3))).2.1
    · intro k hk heq
      have hport : 4000 + k = 4001 := congrArg Prod.snd heq
      obtain rfl : k = 1 := by omega
      exact Bool.false_ne_true hk
  have hreach := ((((Reachable.start hstart).next .loss).next .loss).next hmade).next hback
  obtain ⟨n, hn, hsearch⟩ := Option.map_eq_some_iff.mp hfound
  have hcurrent := hall _ (hreach.next (.loss (j := 0))) 0 1 failsOver st₃ _
    (exec_of_replay (Option.join_eq_some_iff.mp hst₃)) (accepts_failsOver rfl rfl) (by decide)
  have hthere := (hcurrent.paths n hn [lit "s", lit "a"] ⟨[lit "a"], rfl⟩).mpr hsearch
  have hempty : replica (tripleServer 1) [lit "s", lit "a"] = none := by
    decide +kernel
  exact hthere hempty

end NetworkFileSystem.Cluster
