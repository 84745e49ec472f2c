import NetworkFileSystem.Cluster.Propagation

/-!
# How a written file reaches the backups

`naming_server.c:531–584,1176–1268`, `helper.c:760–1076`, `storage_server.c:500–590`. The
naming server tells the server of a written file to copy it to each backup that answers a
ping. If all of them run to the end, the file has replaced its replicas.
-/

namespace NetworkFileSystem.Cluster

open Base Base.Prog Protocol Trie Naming Storage Transfer

/-! ### Copies of written files -/

section Written

variable {source : Text → Option Node} {cwd dir : List Text} {fs fs' : FileSystem}
  {path r ip name t u : Text} {port : Nat}

/-- The file that comes with a copy is written anew. -/
private theorem onDisk_saving (hplace : resolveFrom cwd path = dir ++ [name])
    (hfile : fs.entry (dir ++ [name]) = some (.file u)) :
    (onDisk source cwd).Saving path t
      (fun fs' ↦ fs'.entry = Function.update fs.entry (dir ++ [name]) (some (.file t))) fs := by
  have hdir : fs.entry dir = some .folder := fs.parent dir name (by simp [hfile])
  have hfits : Fits fs (dir ++ [name]) (.file t) := by
    intro old hold
    rw [hfile] at hold
    cases hold
    simp
  refine ⟨onDisk_fopen_some hplace hdir hfits, ?_⟩
  rintro _ fs₁ ⟨rfl, -, hfs₁⟩
  rw [hplace] at hfs₁
  rw [if_pos rfl]
  apply onDisk_writing hplace (u := []) (by simp [hfs₁]) (le_refl _)
  intro fs₂ hfs₂
  rw [hfs₂, hfs₁, Function.update_idem, List.nil_append]

/-- What a finished copy of a written file leaves on the backup. -/
theorem transfers_written (hstart : startsWith (lit "./") path = true) (hword : IsWord path)
    (hr : IsWord r) (hip : IsWord ip) (hipNe : ip ≠ []) (hipLength : ip.length < 16)
    (hfits : (copyCommandText (lit "lcopy") path (replicaFolder r) ip port).length < bufferSize)
    (hsource : source path = some (.file t)) (hsent : Sent 0 path [] (.file t))
    (hfolder : fs.entry (resolveFrom cwd (replicaFolder r)) = some .folder)
    (hplace : resolveFrom cwd (replicaPath r path) = dir ++ [name])
    (hfile : fs.entry (dir ++ [name]) = some (.file u))
    (h : Transfers (onDisk source cwd) (copyCommandText (lit "lcopy") path (replicaFolder r) ip port)
      true fs fs') :
    fs'.entry = Function.update fs.entry (dir ++ [name]) (some (.file t)) := by
  have hne : path ≠ [] := by
    rintro rfl
    cases hstart
  have hdest : IsWord (replicaFolder r) := isWord_append (isWord_append (by decide) (by decide)) hr
  have hdestNe : replicaFolder r ≠ [] := by
    simp [replicaFolder, lit]
  have hlengths : path.length < bufferSize ∧ (replicaFolder r).length + 6 < bufferSize := by
    have hverb : (lit "lcopy").length = 5 := by decide
    rw [length_copyCommandText] at hfits
    omega
  have hskip : lengthToSkip true path (replicaFolder r) .file = some 0 := by
    obtain ⟨t, rfl⟩ := List.isPrefixOf_iff_prefix.mp hstart
    simp [lengthToSkip, lengthBeforeName, lit, slash]
  have hlong : (replicaPath r path).length < maxPathSize := by
    have hlong := length_replicaPath_lt hlengths.2 hsent
    simp only [replicaPath, List.drop_zero, List.length_append, List.length_drop, below_nil]
      at hlong ⊢
    omega
  have hcopies : (onDisk source cwd).Copies
      (scanCopy ((fields (copyCommandText (lit "lcopy") path (replicaFolder r) ip port)).drop 1))
      (lengthToSkip true) true path (replicaFolder r) 0 (.file t)
      (fun fs' ↦ fs'.entry = Function.update fs.entry (dir ++ [name]) (some (.file t))) fs :=
    { scans := ⟨ip, scanCopy_copyCommandText (by decide) (by decide) hword hne hdest hdestNe
        hip hipNe port, hipLength⟩
      skips := hskip
      announced := by
        apply Node.announces_of_sent onDisk_steady hword (List.length_pos_iff.mpr hne) hlengths.1
          ⟨hsource, trivial⟩
        rintro p e ⟨rfl, rfl⟩
        exact hsent
      sendable := by
        apply sendable_of_isWord hdest hdestNe
        have hverb : (lit "DEST ").length = 5 ∧ (lit "\n").length = 1 := by decide
        rw [List.length_append, List.length_append]
        omega
      destination := firstWord_of_isWord hdest
      made := ⟨false, fs, .inr ⟨rfl, hfolder, rfl⟩⟩
      received := by
        intro r' fs₁ hmk
        have hsame : fs₁.entry = fs.entry := by
          rw [onDisk_mkdir hmk, ← hfolder, Function.update_eq_self]
        rintro t' rfl
        have hsave : (onDisk source cwd).Saving (replicaPath r path) t _ fs₁ :=
          onDisk_saving hplace ((congrFun hsame _).trans hfile)
        rw [hsame] at hsave
        change (onDisk source cwd).Saving (fullPath true (replicaFolder r) (firstWord path)) _ _ _
        rw [firstWord_of_isWord hword, fullPath_of_whole hstart hlong]
        exact hsave }
  have hprograms : ∀ fuel g, copyPrograms (copyCommandText (lit "lcopy") path (replicaFolder r) ip
      port) fuel g = some (copyDifferentSrc fuel (copyCommandText (lit "lcopy") path
        (replicaFolder r) ip port) true, copyDifferentDest g) := fun _ _ ↦ rfl
  obtain ⟨N, hN⟩ := h
  obtain ⟨p, q, s, hpq, hrun, rfl, hstop⟩ := hN (N + t.length + 1) (by omega) (N + 2) (by omega)
  rw [hprograms] at hpq
  obtain ⟨rfl, rfl⟩ := Prod.mk.inj (Option.some.inj hpq)
  have hleads : (onDisk source cwd).Leads (Finished _) (copyDifferentSrc (N + t.length + 1) _ true)
      (copyDifferentDest (N + 2)) (World.start fs) :=
    hcopies.leads (by simp only [Node.fuelFor]; omega) (by simp only [Node.announcements]; omega)
  exact ((hleads.ends (Setting.finished_final _ _)).2 s hrun (hstop rfl)).disk

end Written

/-! ### The naming server -/

/-- What the naming server does for one backup after a write to a file of server `i`. -/
inductive CopiesTo (st : NsState) (i : Nat) (path : Text) : Option Nat → List NsEvent → Prop where
  | unassigned : CopiesTo st i path none []
  | away {b : Nat} {r : PingResult} : r ≠ .up → CopiesTo st i path (some b) [⟨.ping b, r⟩]
  | unsent {b : Nat} {name : Text} : st.rootName b = some name →
      CopiesTo st i path (some b) [⟨.ping b, PingResult.up⟩,
        ⟨.forward i (commandTo st b (lit "lcopy") path (replicaFolder name)), false⟩]
  | sent {b : Nat} {name : Text} {r : Option Text} : st.rootName b = some name →
      CopiesTo st i path (some b) [⟨.ping b, PingResult.up⟩,
        ⟨.forward i (commandTo st b (lit "lcopy") path (replicaFolder name)), true⟩,
        ⟨.recvServer i, r⟩]

/-- The copies of written files fit the buffer of the naming server. -/
def CopyFits (st : NsState) (path : Text) (backup : Option Nat) : Prop :=
  ∀ b name, backup = some b → st.rootName b = some name →
    (commandTo st b (lit "lcopy") path (replicaFolder name)).length < bufferSize

section Naming

variable {st st' : NsState} {i : Nat} {path : Text} {backup : Option Nat} {tr : List NsEvent}

theorem CopiesTo.of_frozen (hf : st'.frozen = st.frozen) (h : CopiesTo st' i path backup tr) :
    CopiesTo st i path backup tr := by
  have hcommand : ∀ b name, commandTo st' b (lit "lcopy") path (replicaFolder name) =
      commandTo st b (lit "lcopy") path (replicaFolder name) := by
    intro b name
    rw [commandTo, commandTo, ip_of_skeleton (skeleton_of_frozen hf),
      portClient_of_skeleton (skeleton_of_frozen hf)]
  cases h with
  | unassigned => exact .unassigned
  | away hr => exact .away hr
  | unsent hname =>
    rw [hcommand]
    exact .unsent (rootName_of_frozen hf _ ▸ hname)
  | sent hname =>
    rw [hcommand]
    exact .sent (rootName_of_frozen hf _ ▸ hname)

theorem CopyFits.of_frozen (hf : st'.frozen = st.frozen) (h : CopyFits st path backup) :
    CopyFits st' path backup := by
  intro b name hb hname
  rw [commandTo, ip_of_skeleton (skeleton_of_frozen hf),
    portClient_of_skeleton (skeleton_of_frozen hf)]
  exact h b name hb (rootName_of_frozen hf b ▸ hname)

theorem copiesTo_of_exec (hfits : CopyFits st path backup)
    (h : Exec (backupWritten.copyTo path i st backup) tr (some st')) :
    CopiesTo st i path backup tr ∧ st'.frozen = st.frozen ∧ st'.cache = st.cache := by
  cases backup with
  | none =>
    obtain ⟨rfl, hst⟩ := h
    cases hst
    exact ⟨.unassigned, rfl, rfl⟩
  | some b =>
    cases hname : st.rootName b with
    | none =>
      -- The name of the folder is needed as soon as the backup is up.
      obtain ⟨r, rest, rfl, h₁⟩ := exec_isSsUp.mp h
      simp only at h₁
      split at h₁
      · rw [rootName_of_frozen (frozen_afterPing st b r), hname] at h₁
        cases h₁.2
      · next hr =>
        obtain ⟨rfl, hst⟩ := h₁
        cases hst
        exact ⟨.away (by simpa using hr), frozen_afterPing st b r, cache_afterPing st b r⟩
    | some name =>
      rw [copyTo_eq hname (hfits b name rfl hname)] at h
      obtain ⟨r, rest, rfl, h₁⟩ := exec_isSsUp.mp h
      simp only at h₁
      split at h₁
      · next hr =>
        obtain ⟨⟨⟩, t, t', rfl, hcopy, hst⟩ := exec_bind_some h₁
        obtain ⟨rfl, hst⟩ := hst
        cases hst
        obtain rfl : r = .up := by simpa using hr
        refine ⟨?_, frozen_afterPing st b _, cache_afterPing st b _⟩
        obtain ⟨ok, rest, rfl, h₂⟩ := exec_forward.mp hcopy
        cases ok with
        | false =>
          obtain ⟨rfl, -⟩ := h₂
          exact .unsent hname
        | true =>
          obtain ⟨r, rest, rfl, rfl, -⟩ := exec_recvServer.mp h₂
          exact .sent hname
      · next hr =>
        obtain ⟨rfl, hst⟩ := h₁
        cases hst
        exact ⟨.away (by simpa using hr), frozen_afterPing st b r, cache_afterPing st b r⟩

/-- A notification: a lookup of the file, and a copy for each backup of its server. -/
theorem exec_listenAsync_notified {line : Text} (hline : Client.notifiedPath line = some path)
    (hfits : ∀ i, st.resolve path = some i → CopyFits st path (st.backupServer1 i) ∧
      CopyFits st path (st.backupServer2 i))
    (h : Exec (listenAsync st line) tr (some st')) :
    ∃ i t t₁ t₂ t₃, tr = t ++ (t₁ ++ (t₂ ++ t₃)) ∧ st.resolve path = some i ∧ OffLink t ∧
      CopiesTo st i path (st.backupServer1 i) t₁ ∧ CopiesTo st i path (st.backupServer2 i) t₂ ∧
      OffLink t₃ ∧ st'.frozen = st.frozen ∧ st'.cache = st.cacheAfter path := by
  have hwritten : ∀ {i : Nat} {t t' : List NsEvent} {st₁ st₂ : NsState},
      Exec (searchStorageServer st path) t (some (some i, st₁)) →
      Exec (backupWritten st₁ path i) t' (some st₂) → st.resolve path = some i ∧ OffLink t ∧
        ∃ t₁ t₂, t' = t₁ ++ t₂ ∧ CopiesTo st i path (st.backupServer1 i) t₁ ∧
          CopiesTo st i path (st.backupServer2 i) t₂ ∧ st₂.frozen = st.frozen ∧
          st₂.cache = st.cacheAfter path := by
    intro i t t' st₁ st₂ hl hb
    obtain ⟨hp, hk, hf, hc⟩ := exec_lookup hl
    obtain ⟨hfits₁, hfits₂⟩ := hfits i hk.symm
    obtain ⟨st₃, t₁, t₂, rfl, h₁, h₂⟩ := exec_bind_some hb
    rw [backupServer1_of_frozen hf] at h₁
    rw [backupServer2_of_frozen hf] at h₂
    obtain ⟨hc₁, hf₁, hcache₁⟩ := copiesTo_of_exec (hfits₁.of_frozen hf) h₁
    obtain ⟨hc₂, hf₂, hcache₂⟩ := copiesTo_of_exec (hfits₂.of_frozen (hf₁.trans hf)) h₂
    exact ⟨hk.symm, hp.offLink, t₁, t₂, rfl, hc₁.of_frozen hf, hc₂.of_frozen (hf₁.trans hf),
      hf₂.trans (hf₁.trans hf), hcache₂.trans (hcache₁.trans hc)⟩
  unfold listenAsync at h
  unfold Client.notifiedPath at hline
  split at hline
  · next hsync =>
    rw [if_pos hsync, hline] at h
    change Exec (searchStorageServer st path >>= _) tr (some st') at h
    obtain ⟨⟨k, st₁⟩, t, t', rfl, hl, h₁⟩ := exec_bind_some h
    cases k with
    | none => cases h₁.2
    | some i =>
      obtain ⟨hi, hoff, t₁, t₂, rfl, hc₁, hc₂, hf, hc⟩ := hwritten hl h₁
      exact ⟨i, t, t₁, t₂, [], by simp, hi, hoff, hc₁, hc₂, offLink_nil, hf, hc⟩
  · next hsync =>
    split at hline
    · next hasync =>
      rw [if_neg hsync, if_pos hasync, hline] at h
      change Exec (searchStorageServer st path >>= _) tr (some st') at h
      obtain ⟨⟨k, st₁⟩, t, t', rfl, hl, h₁⟩ := exec_bind_some h
      cases k with
      | none => cases h₁.2
      | some i =>
        obtain ⟨st₂, u, u', rfl, hb, h₂⟩ := exec_bind_some h₁
        obtain ⟨hi, hoff, t₁, t₂, rfl, hc₁, hc₂, hf, hc⟩ := hwritten hl hb
        obtain ⟨-, -, hout⟩ | ⟨ip, -, h₃⟩ := exec_ofOption_bind.mp h₂
        · cases hout
        obtain ⟨-, -, hout⟩ | ⟨port, -, h₄⟩ := exec_ofOption_bind.mp h₃
        · cases hout
        obtain ⟨ok, rest, rfl, rfl, hst⟩ := h₄
        cases hst
        have hack : OffLink [⟨.sendAck ip port (clip bufferSize
            (lit "ACK: Backup completed for " ++ path)), ok⟩] := by
          intro e he
          obtain rfl := List.mem_singleton.mp he
          rfl
        exact ⟨i, t, t₁, t₂, _, by simp only [List.append_assoc], hi, hoff, hc₁, hc₂, hack, hf, hc⟩
    · cases hline

end Naming

/-! ### The servers -/

section Words

/-- The address in a copy command is that of the backup. -/
theorem copyAddress_copyCommandText {verb src dest ip : Text} {port : Nat}
    (hverb : blank ∉ verb ∧ verb ≠ []) (hsrc : blank ∉ src ∧ src ≠ [])
    (hdest : blank ∉ dest ∧ dest ≠ []) (hip : blank ∉ ip ∧ ip ≠ []) (hport : port < 2 ^ 16) :
    copyAddress (copyCommandText verb src dest ip port) = some (ip, port) := by
  have hdigits : blank ∉ decimal port := by
    intro hb
    have hlow := (digit_of_mem_decimal hb).1
    revert hlow
    decide
  have hwords : words (copyCommandText verb src dest ip port) =
      [verb, src, dest, ip, decimal port] := by
    have hsplit : copyCommandText verb src dest ip port =
        verb ++ blank :: (src ++ blank :: (dest ++ blank :: (ip ++ blank :: decimal port))) := by
      simp [copyCommandText, lit, blank]
    rw [hsplit, words, tokens_append_cons, tokens_append_cons, tokens_append_cons,
      tokens_append_cons, tokens_of_notMem hverb.1 hverb.2, tokens_of_notMem hsrc.1 hsrc.2,
      tokens_of_notMem hdest.1 hdest.2, tokens_of_notMem hip.1 hip.2,
      tokens_of_notMem hdigits (decimal_ne_nil port)]
    rfl
  have hatol : atol (decimal port) = port := by
    have hnumber : atol (decimal port ++ []) = port := atol_decimal (by omega) rfl
    rwa [List.append_nil] at hnumber
  simpa [copyAddress, hwords, hatol] using hport

end Words

/-- The sender finds a file that is there. -/
theorem Reads.file {s : SsState} {source : Text → Option Node} {path t : Text} (h : Reads s source)
    (hfile : s.disk.entry (resolveFrom s.cwd path) = some (.file t)) :
    source path = some (.file t) := by
  have hread := h path
  cases hs : source path with
  | none =>
    rw [hs] at hread
    exact absurd (hread.symm.trans hfile) (by simp)
  | some node =>
    rw [hs] at hread
    cases node with
    | file t' =>
      obtain rfl : t' = t := by simpa using hread.symm.trans hfile
      rfl
    | folder l => exact absurd (hread.1.symm.trans hfile) (by simp)

/-- The folder of the replicas of one server. -/
theorem folder_of_replica {s : SsState} {ws : List Text} (hs : Proper s) (hne : ws ≠ [])
    (h : replica s ws ≠ none) :
    s.disk.entry (resolveFrom s.cwd (replicaFolder (rootName s))) = some .folder := by
  obtain ⟨w, ws, rfl⟩ := List.exists_cons_of_ne_nil hne
  have hplace : resolveFrom s.cwd (replicaFolder (rootName s)) =
      s.cwd ++ [lit "backupfolderforss", rootName s] := by
    rw [show replicaFolder (rootName s) = pathText [lit "backupfolderforss", rootName s] by
      simp [replicaFolder, backupFolder, pathText, lit, slash]]
    apply resolveFrom_pathText
    intro w hw
    obtain rfl | hw := List.mem_cons.mp hw
    · exact ⟨by decide, by decide, by decide, by decide, by decide⟩
    · obtain rfl := List.mem_singleton.mp hw
      exact hs.name
  have hbelow : s.cwd ++ [lit "backupfolderforss", rootName s] ++ [w] ++ ws =
      replicaPlace s (w :: ws) := by
    simp [replicaPlace]
  rw [hplace]
  apply s.disk.parent _ w
  apply FileSystem.entry_of_append (q := ws)
  rw [hbelow]
  exact h

namespace Fleet

variable {f f' : Fleet} {i b : Nat}

/-- A server whose command to copy a written file is carried out, while the backup runs. -/
structure Copying (f : Fleet) (i b : Nat) (ws : List Text) (t : Text) : Prop where
  proper : Proper (f.servers b)
  rootWord : IsWord (rootName (f.servers b))
  address : IsAddress (f.address b)
  fits : (copyCommandText (lit "lcopy") (pathText ws) (replicaFolder (rootName (f.servers b)))
    (f.address b).1 (f.address b).2).length < bufferSize
  file : (f.servers i).disk.entry ((f.servers i).cwd ++ ws) = some (.file t)
  replica : ∃ u, replica (f.servers b) ws = some (.file u)
  apart : ∀ j k, f.up j = true → f.up k = true → f.address j = f.address k → j = k

/-- The copy commands are for no entry. -/
private theorem not_obeys_lcopy {src dest ip : Text} {port : Nat} {out : List Text}
    {s s' : SsState} (h : Obeys (copyCommandText (lit "lcopy") src dest ip port) out s s') :
    False := by
  obtain ⟨v, function, hv, hf⟩ := h.function
  obtain rfl : Verb.lcopy = v := Option.some.inj (hv ▸ rfl)
  cases hf

/-- A copy that is delivered while both servers keep running. -/
private theorem Delivers.copied {ok : Bool} {ws : List Text} {t : Text} (hws : Canonical ws)
    (hword : IsWord (pathText ws)) (hsent : Sent 0 (pathText ws) [] (.file t))
    (hc : Copying f i b ws t) (hup : f'.up i = true) (hupb : f'.up b = true)
    (h : Delivers i (copyCommandText (lit "lcopy") (pathText ws)
      (replicaFolder (rootName (f.servers b))) (f.address b).1 (f.address b).2) ok f f') :
    ok = true ∧ ∃ d reply, f' = (f.store b { f.servers b with disk := d }).send i [reply] ∧
      d.entry = Function.update (f.servers b).disk.entry (replicaPlace (f.servers b) ws)
        (some (.file t)) := by
  obtain ⟨u, hu⟩ := hc.replica
  have hnoBlank : ∀ {w : Text}, IsWord w → blank ∉ w := by
    intro w hw hb
    exact absurd (hw _ hb).1 (by decide)
  have hne : pathText ws ≠ [] := by simp [pathText, lit]
  have hdest : IsWord (replicaFolder (rootName (f.servers b))) :=
    isWord_append (isWord_append (by decide) (by decide)) hc.rootWord
  have hcopyAddress : copyAddress (copyCommandText (lit "lcopy") (pathText ws)
      (replicaFolder (rootName (f.servers b))) (f.address b).1 (f.address b).2) =
        some (f.address b) :=
    copyAddress_copyCommandText (by decide) ⟨hnoBlank hword, hne⟩
      ⟨hnoBlank hdest, by simp [replicaFolder, lit]⟩
      ⟨hnoBlank hc.address.word, hc.address.ne_nil⟩ hc.address.port
  obtain ⟨dir, name, hplace⟩ : ∃ dir name, replicaPlace (f.servers b) ws = dir ++ [name] := by
    have hplace : replicaPlace (f.servers b) ws ≠ [] := by simp [replicaPlace]
    exact ⟨_, _, (List.dropLast_append_getLast hplace).symm⟩
  have hstart : startsWith (lit "./") (pathText ws) = true := by
    obtain ⟨w, ws, rfl⟩ := List.exists_cons_of_ne_nil hws.ne_nil
    rfl
  obtain ⟨hrun, hok, hcarries⟩ | ⟨hdown, rfl⟩ := h
  · refine ⟨hok, ?_⟩
    have hrunb := up_of_carries hcarries b hupb
    have hreceiver : ∀ k, f.up k = true → copyAddress (copyCommandText (lit "lcopy") (pathText ws)
        (replicaFolder (rootName (f.servers b))) (f.address b).1 (f.address b).2) =
          some (f.address k) → k = b := by
      intro k hk haddress
      rw [hcopyAddress] at haddress
      exact hc.apart k b hk hrunb (Option.some.inj haddress).symm
    cases hcarries with
    | entry hobeys => exact (not_obeys_lcopy hobeys).elim
    | copy _ hcopies =>
      cases hcopies with
      | unreachable hnone => exact absurd hcopyAddress (hnone b hrunb)
      | interrupted hk haddress _ _ hlost =>
        obtain rfl := hreceiver _ hk haddress
        obtain rfl | rfl := hlost
        · simp [Fleet.lose] at hup
        · simp [Fleet.lose] at hupb
      | @finished k source d reply hk haddress hreads htransfers =>
        obtain rfl := hreceiver k hk haddress
        refine ⟨d, reply, rfl, ?_⟩
        have hsource : source (pathText ws) = some (.file t) := by
          apply hreads.file
          rw [resolveFrom_pathText hws.fileName]
          exact hc.file
        rw [hplace]
        exact transfers_written hstart hword hc.rootWord hc.address.word hc.address.ne_nil
          hc.address.short hc.fits hsource hsent
          (folder_of_replica hc.proper hws.ne_nil (by rw [hu]; simp))
          ((resolveFrom_replicaPath hc.proper hws).trans hplace)
          (by rw [← hplace]; exact hu) htransfers
  · rw [hup] at hdown
    cases hdown

private theorem Copying.ebbs {ws : List Text} {t : Text} (h : Copying f i b ws t) (hf : Ebbs f f')
    (hi : f'.servers i = f.servers i) (hb : f'.servers b = f.servers b) : Copying f' i b ws t := by
  have haddress : ∀ j, f'.address j = f.address j := congrFun hf.address
  refine ⟨?_, ?_, ?_, ?_, ?_, ?_, fun j k hj hk heq ↦ ?_⟩
  · rw [hb]
    exact h.proper
  · rw [hb]
    exact h.rootWord
  · rw [haddress]
    exact h.address
  · rw [hb, haddress]
    exact h.fits
  · rw [hi]
    exact h.file
  · rw [hb]
    exact h.replica
  · rw [haddress, haddress] at heq
    exact h.apart j k (hf.up j hj) (hf.up k hk) heq

private theorem Copying.fades {ws : List Text} {t : Text} (h : Copying f i b ws t)
    (hf : Fades f f') : Copying f' i b ws t :=
  h.ebbs hf.toEbbs (congrFun hf.servers i) (congrFun hf.servers b)

/-- The copy to a backup that has answered its ping. -/
private theorem Copying.delivered {ws : List Text} {t : Text} {r : PingResult} {ok : Bool}
    {tr : List NsEvent} (hc : Copying f i b ws t) (hws : Canonical ws)
    (hword : IsWord (pathText ws)) (hsent : Sent 0 (pathText ws) [] (.file t))
    (hup : f'.up i = true) (hupb : f'.up b = true)
    (h : outages.Accepts f (⟨.ping b, r⟩ :: ⟨.forward i (copyCommandText (lit "lcopy") (pathText ws)
      (replicaFolder (rootName (f.servers b))) (f.address b).1 (f.address b).2), ok⟩ :: tr) f') :
    ok = true ∧ ∃ u d reply, Fades f u ∧
      d.entry = Function.update (f.servers b).disk.entry (replicaPlace (f.servers b) ws)
        (some (.file t)) ∧
      outages.Accepts ((u.store b { f.servers b with disk := d }).send i [reply]) tr f' := by
  obtain ⟨u₁, u₂, hs₁, ⟨rfl, -⟩, h₁⟩ := h.cons
  obtain ⟨u₃, u₄, hs₃, hdelivers, h₂⟩ := h₁.cons
  have hfades := (Fades.of_silent hs₁).trans (.of_silent hs₃)
  have hserver : u₃.servers b = f.servers b := congrFun hfades.servers b
  rw [← hserver, ← congrFun hfades.address b] at hdelivers
  obtain ⟨hok, d, reply, rfl, hd⟩ := Delivers.copied hws hword hsent (hc.fades hfades)
    (up_of_accepts h₂ i hup) (up_of_accepts h₂ b hupb) hdelivers
  rw [hserver] at hd h₂
  exact ⟨hok, u₃, d, reply, hfades, hd, h₂⟩

/-- What one backup has after a write, if it and the server run to the end. -/
theorem follows_written {st : NsState} {backup : Option Nat} {ws : List Text} {t : Text}
    {tr : List NsEvent} (hws : Canonical ws) (hword : IsWord (pathText ws))
    (hsent : Sent 0 (pathText ws) [] (.file t)) (hquiet : f.answers i = [])
    (hup : f'.up i = true)
    (hbackup : ∀ b, backup = some b → f'.up b = true ∧ Copying f i b ws t ∧
      f.address b = (st.ip b, st.portClient b) ∧
      ∀ name, st.rootName b = some name → name = rootName (f.servers b))
    (hcopies : CopiesTo st i (pathText ws) backup tr) (h : outages.Accepts f tr f') :
    Ebbs f f' ∧ Follows ws (some (.file t)) backup f.servers f'.servers := by
  have hcommand : ∀ b name, backup = some b → st.rootName b = some name →
      commandTo st b (lit "lcopy") (pathText ws) (replicaFolder name) =
        copyCommandText (lit "lcopy") (pathText ws) (replicaFolder (rootName (f.servers b)))
          (f.address b).1 (f.address b).2 := by
    intro b name hb hname
    obtain ⟨-, -, haddress, hroot⟩ := hbackup b hb
    rw [hroot name hname, haddress]
  cases hcopies with
  | unassigned =>
    have hfades := Fades.of_silent h.ended
    exact ⟨hfades.toEbbs, hfades.servers⟩
  | @away b r hr =>
    obtain ⟨hupb, -⟩ := hbackup b rfl
    -- The backup is up to the end, so it has answered the ping.
    obtain ⟨u₁, u₂, -, ⟨rfl, hping⟩, h₁⟩ := h.cons
    exact absurd (hping.mpr (up_of_accepts h₁ b hupb)) hr
  | @unsent b name hname =>
    obtain ⟨hupb, hcopying, -⟩ := hbackup b rfl
    rw [hcommand b name rfl hname] at h
    obtain ⟨hok, -⟩ := hcopying.delivered hws hword hsent hup hupb h
    cases hok
  | @sent b name r hname =>
    obtain ⟨hupb, hcopying, -⟩ := hbackup b rfl
    rw [hcommand b name rfl hname] at h
    obtain ⟨-, u, d, reply, hfades, hd, h₁⟩ := hcopying.delivered hws hword hsent hup hupb h
    obtain ⟨u₁, u₂, hs₁, hrecv, h₂⟩ := h₁.cons
    have hfades₁ := Fades.of_silent hs₁
    have hfades₂ := Fades.of_silent h₂.ended
    have hrest : u₂.servers = u₁.servers ∧ u₂.address = u₁.address ∧ u₂.up = u₁.up ∧
        u₂.answers i = [] ∧ ∀ j, j ≠ i → u₂.answers j = u₁.answers j := by
      obtain ⟨a, rest, hanswers, -, rfl⟩ | ⟨-, hnone, -, rfl⟩ := hrecv
      · refine ⟨rfl, rfl, rfl, ?_, fun j hj ↦ Function.update_of_ne hj _ _⟩
        simp only [Function.update_self]
        obtain hsame | hlost := hfades₁.answers i
        · rw [hsame] at hanswers
          simp only [Fleet.send, Fleet.store, Function.update_self, hfades.quiet hquiet,
            List.nil_append, List.cons.injEq] at hanswers
          exact hanswers.2.symm
        · rw [hlost] at hanswers
          cases hanswers
      · exact ⟨rfl, rfl, rfl, hnone, fun _ _ ↦ rfl⟩
    obtain ⟨hservers, haddress, hups, hi, hothers⟩ := hrest
    refine ⟨⟨?_, fun j hj ↦ ?_, fun j ↦ ?_⟩, { f.servers b with disk := d }, ?_, rfl, rfl, hd⟩
    · rw [hfades₂.address, haddress, hfades₁.address]
      exact hfades.address
    · have hj₁ := hfades₂.up j hj
      rw [hups] at hj₁
      exact hfades.up j (hfades₁.up j hj₁)
    · by_cases hj : j = i
      · subst hj
        exact .inr (hfades₂.quiet hi)
      · obtain hlast | hlast := hfades₂.answers j
        · rw [hlast, hothers j hj]
          obtain hsame | hlost := hfades₁.answers j
          · rw [hsame]
            simp only [Fleet.send, Fleet.store, Function.update_of_ne hj]
            exact hfades.answers j
          · exact .inr hlost
        · exact .inr hlast
    · rw [hfades₂.servers, hservers, hfades₁.servers]
      simp [Fleet.send, Fleet.store, hfades.servers]

/-- A write that is told to the naming server has changed the file and its replicas. -/
theorem propagates_written {st : NsState} {s : SsState} {ws : List Text} {t : Text}
    {t₀ t₁ t₂ t₃ : List NsEvent} (hws : Canonical ws) (hword : IsWord (pathText ws))
    (hsent : Sent 0 (pathText ws) [] (.file t)) (hbacked : Backed st i)
    (hquiet : ∀ j, f.answers j = []) (hsaves : Saves ws t (f.servers i) s) (hup : f'.up i = true)
    (hbackup : ∀ b, IsBackup st i b → f'.up b = true ∧ Copying (f.store i s) i b ws t ∧
      f.address b = (st.ip b, st.portClient b) ∧
      ∀ name, st.rootName b = some name → name = rootName (f.servers b))
    (h₀ : OffLink t₀) (h₁ : CopiesTo st i (pathText ws) (st.backupServer1 i) t₁)
    (h₂ : CopiesTo st i (pathText ws) (st.backupServer2 i) t₂) (h₃ : OffLink t₃)
    (h : outages.Accepts (f.store i s) (t₀ ++ (t₁ ++ (t₂ ++ t₃))) f') :
    Ebbs f f' ∧ Propagates st i ws (some (.file t)) f.servers f'.servers := by
  obtain ⟨u₀, ha₀, h⟩ := h.append
  obtain ⟨u₁, ha₁, h⟩ := h.append
  obtain ⟨u₂, ha₂, ha₃⟩ := h.append
  have hfades₀ := Fades.of_offLink h₀ ha₀
  have hfades₃ := Fades.of_offLink h₃ ha₃
  have hup₂ : ∀ j, f'.up j = true → u₂.up j = true := up_of_accepts ha₃
  have hup₁ : ∀ j, f'.up j = true → u₁.up j = true := fun j hj ↦ up_of_accepts ha₂ j (hup₂ j hj)
  have hserver : ∀ b, IsBackup st i b → (f.store i s).servers b = f.servers b :=
    fun b hb ↦ Function.update_of_ne (hbacked.ne b hb) _ _
  have haddress₀ : ∀ b, u₀.address b = f.address b := congrFun hfades₀.address
  obtain ⟨hebbs₁, hfollows₁⟩ := follows_written hws hword hsent (hfades₀.quiet (hquiet i))
    (hup₁ i hup) (fun b hb ↦ by
      obtain ⟨hupb, hcopying, haddress, hroot⟩ := hbackup b (.inl hb)
      refine ⟨hup₁ b hupb, hcopying.fades hfades₀, (haddress₀ b).trans haddress, ?_⟩
      rw [congrFun hfades₀.servers b, hserver b (.inl hb)]
      exact hroot) h₁ ha₁
  have hkept : ∀ b, st.backupServer1 i ≠ some b → u₁.servers b = (f.store i s).servers b :=
    fun b hb ↦ (hfollows₁.other hb).trans (congrFun hfades₀.servers b)
  have hebbs := hfades₀.toEbbs.trans hebbs₁
  obtain ⟨hebbs₂, hfollows₂⟩ := follows_written hws hword hsent (hebbs.quiet (hquiet i))
    (hup₂ i hup) (fun b hb ↦ by
      obtain ⟨hupb, hcopying, haddress, hroot⟩ := hbackup b (.inr hb)
      have hb' := hkept b (fun hb' ↦ hbacked.distinct b hb' hb)
      refine ⟨hup₂ b hupb, hcopying.ebbs hebbs (hkept i (fun hi ↦ hbacked.ne i (.inl hi) rfl)) hb',
        (congrFun hebbs.address b).trans haddress, ?_⟩
      rw [hb', hserver b (.inr hb)]
      exact hroot) h₂ ha₂
  have hfirst : u₀.servers = Function.update f.servers i s := hfades₀.servers
  rw [hfirst] at hfollows₁
  rw [← hfades₃.servers] at hfollows₂
  have hall := (hebbs.trans hebbs₂).trans hfades₃.toEbbs
  exact ⟨⟨hall.address, hall.up, hall.answers⟩,
    .of_follows hbacked hsaves.cwd hsaves.rootPath hsaves.entry hfollows₁ hfollows₂⟩

end Fleet

end NetworkFileSystem.Cluster
