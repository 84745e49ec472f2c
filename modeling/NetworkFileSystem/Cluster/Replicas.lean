import NetworkFileSystem.Naming.Registration
import NetworkFileSystem.Naming.Traces
import NetworkFileSystem.Storage.Entries
import NetworkFileSystem.Transfer.Exact

/-!
# Where replicas are kept

`naming_server.c:105–125,680–707,1187–1255`, `storage_server.c:376–416`, `helper.c:774–1198`.
A server with the root `./r` keeps the replica of `./s/q` at `./backupfolderforss/r/s/q`. Four
mechanisms write there: the copy of a newly assigned backup, the commands on single entries,
the copy of a written file, and the copy that follows a client's copy.
-/

namespace NetworkFileSystem.Cluster

open Base Protocol Naming Storage Transfer Trie

/-- Where the server with the root `./r` keeps the replica of `path`. -/
def replicaPath (r path : Text) : Text := backupFolder ++ lit "/" ++ r ++ lit "/" ++ path.drop 2

/-! ### Receivers that record what they write -/

/-- Copies to a receiver of which the paths of its folders and files are recorded. A folder may
be there already; a file can be opened and written. -/
def recorded (source : Text → Option Node) : Setting (List Text) where
  source := source
  changes := SameLength
  mkdir := fun path _ log log' ↦ log' = log ++ [path]
  fopen := fun path _ r log log' ↦ r = true ∧ log' = log ++ [path]
  write := fun _ _ r log log' ↦ r = true ∧ log' = log

/-- The paths of the entries below the folder `dir`, in the order in which they are sent. -/
def paths : Text → Listing → List Text
  | _, .done => []
  | dir, .file name _ rest => (dir ++ lit "/" ++ name) :: paths dir rest
  | dir, .folder name sub rest =>
    (dir ++ lit "/" ++ name) :: (paths (dir ++ lit "/" ++ name) sub ++ paths dir rest)

/-- The paths of a node and of everything below it. -/
def nodePaths (src : Text) : Node → List Text
  | .file _ => [src]
  | .folder l => src :: paths src l

section Recorded

variable {source : Text → Option Node} {Q : List Text → Prop} {log : List Text}

private theorem recorded_steady : (recorded source).Steady :=
  fun t ↦ ⟨⟨t, rfl⟩, fun _ h ↦ h⟩

private theorem recorded_writing {path t : Text} {fuel : Nat} (hQ : Q log) :
    (recorded source).Writing path Q fuel t log := by
  induction fuel generalizing t with
  | zero => exact hQ
  | succ fuel ih =>
    unfold Setting.Writing
    split
    · exact hQ
    · refine ⟨⟨true, log, rfl, rfl⟩, ?_⟩
      rintro r log' ⟨rfl, rfl⟩
      exact ⟨rfl, ih⟩

private theorem recorded_saving {path t : Text} (hQ : Q (log ++ [path])) :
    (recorded source).Saving path t Q log := by
  refine ⟨⟨true, _, rfl, rfl⟩, ?_⟩
  rintro r log' ⟨rfl, rfl⟩
  exact recorded_writing hQ

private theorem recorded_storing {target : Text → Text} {dir : Text} (l : Listing)
    (hQ : Q (log ++ (paths dir l).map target)) :
    (recorded source).Storing target dir l Q log := by
  induction l generalizing dir Q log with
  | done =>
    rw [Setting.Storing]
    simpa [paths] using hQ
  | file n t rest ih =>
    intro t' _
    apply recorded_saving
    apply ih
    simpa [paths] using hQ
  | folder n sub rest ihsub ih =>
    refine ⟨⟨true, _, rfl⟩, ?_⟩
    rintro r log' rfl
    apply ihsub
    apply ih
    simpa [paths] using hQ

private theorem recorded_receiving {target : Text → Text} {src : Text} {node : Node}
    (hQ : Q (log ++ (nodePaths src node).map target)) :
    (recorded source).Receiving target src node Q log := by
  cases node with
  | file t => exact fun t' _ ↦ recorded_saving hQ
  | folder l =>
    refine ⟨⟨true, _, rfl⟩, ?_⟩
    rintro r log' rfl
    apply recorded_storing
    simpa [nodePaths] using hQ

end Recorded

private theorem has_of_mem_paths {src : Text} {us : List Text} (l : Listing) {path : Text}
    (h : path ∈ paths (below src us) l) : ∃ p e, l.Has p e ∧ path = below src (us ++ p) := by
  induction l generalizing us with
  | done => cases h
  | file n t rest ih =>
    obtain rfl | h := List.mem_cons.mp h
    · exact ⟨[n], _, .inl ⟨rfl, rfl⟩, below_slash src us n⟩
    · obtain ⟨p, e, hp, rfl⟩ := ih h
      exact ⟨p, e, .inr hp, rfl⟩
  | folder n sub rest ihsub ih =>
    obtain rfl | h := List.mem_cons.mp h
    · exact ⟨[n], _, .inl ⟨rfl, rfl⟩, below_slash src us n⟩
    · obtain h | h := List.mem_append.mp h
      · rw [below_slash] at h
        obtain ⟨p, e, hp, rfl⟩ := ihsub h
        exact ⟨n :: p, e, .inr (.inl ⟨p, rfl, hp⟩), by simp⟩
      · obtain ⟨p, e, hp, rfl⟩ := ih h
        exact ⟨p, e, .inr (.inr hp), rfl⟩

/-- A path that is sent is the one of an entry. -/
private theorem has_of_mem_nodePaths {src path : Text} {node : Node}
    (h : path ∈ nodePaths src node) : ∃ p e, node.Has p e ∧ path = below src p := by
  cases node with
  | file t => exact ⟨[], _, ⟨rfl, rfl⟩, by simpa [nodePaths] using h⟩
  | folder l =>
    obtain rfl | h := List.mem_cons.mp h
    · exact ⟨[], _, .inl ⟨rfl, rfl⟩, by simp⟩
    · rw [← below_nil src] at h
      obtain ⟨p, e, hp, rfl⟩ := has_of_mem_paths l h
      exact ⟨p, e, .inr hp, by simp⟩

/-! ### Copies -/

/-- The recorded paths of a copy: the receiver makes `base` and then writes every entry to the
place of its replica. A path with white space is cut there. -/
def Replicated (r base : Text) (sources log : List Text) : Prop :=
  ∃ places, log = base :: places ∧
    List.Forall₂ (fun path place ↦ IsWord path → place = replicaPath r path) sources places

/-- Every run of the copy that `command` starts ends, with the replicas written. -/
def WritesReplicas (source : Text → Option Node) (command r src base : Text) (node : Node) :
    Prop :=
  ∃ N, ∀ fuel ≥ N, ∀ g ≥ N, ∃ p q, copyPrograms command fuel g = some (p, q) ∧
    Ends (recorded source).duet.Step (Finished (Replicated r base (nodePaths src node)))
      ⟨p, q, World.start []⟩

/-- A source that is there and can be sent. -/
structure Transferable (source : Text → Option Node) (skip : Nat) (src : Text) (node : Node) :
    Prop where
  found : node.Each (fun path n ↦ source path = some n) src
  sent : ∀ p e, node.Has p e → Sent skip src p e

section Copies

variable {source : Text → Option Node} {src dest ip r : Text} {skip : Nat} {node : Node}

/-- A copy writes every entry to its target. -/
private theorem ends_at {scanned : Option (Text × Text × Text)} (verbs : Text)
    (lengthToSkip : Text → Text → Kind → Option Nat) (strips : Bool)
    (hscans : scanned = some (src, dest, ip)) (hip : ip.length < 16)
    (hskips : lengthToSkip src dest node.kind = some skip) (hskip : skip < src.length)
    (hword : IsWord src) (hsrc : src.length < bufferSize) (hdest : IsWord dest)
    (hne : dest ≠ []) (hfits : dest.length + 6 < bufferSize)
    (hsource : Transferable source skip src node) :
    ∃ N, ∀ fuel ≥ N, ∀ g ≥ N,
      Ends (recorded source).duet.Step
        (Finished (· = dest :: (nodePaths src node).map
          (fun path ↦ fullPath strips dest (firstWord (path.drop skip)))))
        ⟨copySource fuel scanned verbs lengthToSkip, copyDest strips g, World.start []⟩ := by
  have hcopies : (recorded source).Copies scanned lengthToSkip strips src dest skip node
      (· = dest :: (nodePaths src node).map
        (fun path ↦ fullPath strips dest (firstWord (path.drop skip)))) [] :=
    { scans := ⟨ip, hscans, hip⟩
      skips := hskips
      announced := Node.announces_of_sent recorded_steady hword hskip hsrc hsource.found
        hsource.sent
      sendable := sendable_of_isWord hdest hne (by simp [lit]; omega)
      destination := firstWord_of_isWord hdest
      made := ⟨true, _, rfl⟩
      received := by
        rintro r log rfl
        exact recorded_receiving rfl }
  refine ⟨max node.fuelFor (node.announcements + 1), fun fuel hfuel g hg ↦ ?_⟩
  apply Inevitable.ends (Setting.finished_final _ _)
  exact hcopies.leads (by omega) (by omega)

/-- A copy whose target for every entry is the place of its replica. -/
private theorem ends_replicated {scanned : Option (Text × Text × Text)} (verbs : Text)
    (lengthToSkip : Text → Text → Kind → Option Nat) (strips : Bool)
    (hscans : scanned = some (src, dest, ip)) (hip : ip.length < 16)
    (hskips : lengthToSkip src dest node.kind = some skip) (hskip : skip < src.length)
    (hword : IsWord src) (hsrc : src.length < bufferSize) (hdest : IsWord dest)
    (hne : dest ≠ []) (hfits : dest.length + 6 < bufferSize)
    (hsource : Transferable source skip src node)
    (hplace : ∀ p e, node.Has p e →
      fullPath strips dest ((below src p).drop skip) = replicaPath r (below src p)) :
    ∃ N, ∀ fuel ≥ N, ∀ g ≥ N,
      Ends (recorded source).duet.Step (Finished (Replicated r dest (nodePaths src node)))
        ⟨copySource fuel scanned verbs lengthToSkip, copyDest strips g, World.start []⟩ := by
  obtain ⟨N, hN⟩ := ends_at verbs lengthToSkip strips hscans hip hskips hskip hword hsrc hdest hne
    hfits hsource
  refine ⟨N, fun fuel hfuel g hg ↦ (hN fuel hfuel g hg).imp (fun s hs ↦ ?_)⟩
  refine { hs with disk := ⟨_, hs.disk, ?_⟩ }
  refine List.forall₂_map_right_iff.mpr (List.forall₂_same.mpr ?_)
  intro path hpath hplain
  obtain ⟨p, e, hp, rfl⟩ := has_of_mem_nodePaths hpath
  rw [firstWord_of_isWord (fun b hb ↦ hplain b (List.mem_of_mem_drop hb))]
  exact hplace p e hp

/-- An entry that is sent with its whole path goes to the place of its replica. -/
theorem fullPath_of_whole {path : Text} (hstart : startsWith (lit "./") path = true)
    (hfits : (replicaPath r path).length < maxPathSize) :
    fullPath true (backupFolder ++ lit "/" ++ r) path = replicaPath r path := by
  rw [fullPath, if_pos ⟨rfl, hstart⟩]
  exact List.take_of_length_le (Nat.le_sub_one_of_lt hfits)

private theorem startsWith_below (h : startsWith (lit "./") src = true) (ws : List Text) :
    startsWith (lit "./") (below src ws) = true := by
  obtain ⟨t, rfl⟩ := List.isPrefixOf_iff_prefix.mp h
  rfl

/-- The replica of an entry that can be sent has a path that fits its buffer. -/
theorem length_replicaPath_lt {base : Text} {p : List Text} {e : Entry}
    (hbase : base.length + 6 < bufferSize) (hsent : Sent skip src p e) :
    (base ++ lit "/" ++ (below src p).drop skip).length < maxPathSize := by
  have hline := hsent.length_lt
  simp only [List.length_append, bufferSize, maxPathSize] at hline hbase ⊢
  simp [lit] at hline ⊢
  omega

theorem isWord_append {t u : Text} (ht : IsWord t) (hu : IsWord u) : IsWord (t ++ u) := by
  intro b hb
  obtain hb | hb := List.mem_append.mp hb
  · exact ht b hb
  · exact hu b hb

theorem isWord_replicaPath {path : Text} (hr : IsWord r) (hpath : IsWord path) :
    IsWord (replicaPath r path) := by
  apply isWord_append
  · exact isWord_append (isWord_append (by decide) hr) (by decide)
  · exact fun b hb ↦ hpath b (List.mem_of_mem_drop hb)

/-- The copy of a server's folder to a new backup, or of a written file: the whole path is sent
and its `./` is stripped. -/
private theorem writesReplicas_whole (lcopy : Bool) {port : Nat}
    (hskips : lengthToSkip lcopy src (backupFolder ++ lit "/" ++ r) node.kind = some 0)
    (hstart : startsWith (lit "./") src = true) (hword : IsWord src) (hr : IsWord r)
    (hip : IsWord ip) (hipNe : ip ≠ []) (hipLength : ip.length < 16)
    (hfits : (copyCommandText (copyVerb lcopy) src (backupFolder ++ lit "/" ++ r) ip port).length <
      bufferSize) (hsource : Transferable source 0 src node) :
    WritesReplicas source
      (copyCommandText (copyVerb lcopy) src (backupFolder ++ lit "/" ++ r) ip port) r src
      (backupFolder ++ lit "/" ++ r) node := by
  have hne : src ≠ [] := by
    rintro rfl
    cases hstart
  have hdest : IsWord (backupFolder ++ lit "/" ++ r) :=
    isWord_append (isWord_append (by decide) (by decide)) hr
  have hlengths : src.length < bufferSize ∧
      (backupFolder ++ lit "/" ++ r).length + 6 < bufferSize := by
    have hverb : 5 ≤ (copyVerb lcopy).length := by
      cases lcopy <;> decide
    rw [length_copyCommandText] at hfits
    omega
  have hdestNe : backupFolder ++ lit "/" ++ r ≠ [] := by
    simp [lit]
  have hscan : scanCopy ((fields (copyCommandText (copyVerb lcopy) src
      (backupFolder ++ lit "/" ++ r) ip port)).drop 1) =
        some (src, backupFolder ++ lit "/" ++ r, ip) :=
    scanCopy_copyCommandText (by cases lcopy <;> decide) (by cases lcopy <;> decide) hword hne
      hdest hdestNe hip hipNe port
  have hplace : ∀ p e, node.Has p e →
      fullPath true (backupFolder ++ lit "/" ++ r) ((below src p).drop 0) =
        replicaPath r (below src p) := by
    intro p e hp
    apply fullPath_of_whole (startsWith_below hstart p)
    have hlong := length_replicaPath_lt hlengths.2 (hsource.sent p e hp)
    simp only [replicaPath, List.drop_zero, List.length_append, List.length_drop] at hlong ⊢
    omega
  obtain ⟨N, hN⟩ := ends_replicated (lit "copydifferent/lcopy") (lengthToSkip lcopy) true hscan
    hipLength hskips (List.length_pos_iff.mpr hne) hword hlengths.1 hdest hdestNe hlengths.2
    hsource hplace
  refine ⟨N, fun fuel hfuel g hg ↦ ⟨_, _, ?_, hN fuel hfuel g hg⟩⟩
  cases lcopy <;> rfl

/-- The copy that follows a client's copy to the folder `dir`: the last name of the source is
sent with what is below it, and goes to the replica of the folder. -/
private theorem writesReplicas_below {dir name : Text} {port : Nat} (hlong : 2 ≤ dir.length)
    (hslash : slash ∉ name) (hname : name ≠ []) (hnameWord : IsWord name) (hdir : IsWord dir)
    (hr : IsWord r) (hip : IsWord ip) (hipNe : ip ≠ []) (hipLength : ip.length < 16)
    (hfits : (copyCommandText (lit "copydifferentb") (dir ++ lit "/" ++ name) (replicaPath r dir) ip
      port).length < bufferSize)
    (hsource : Transferable source (dir.length + 1) (dir ++ lit "/" ++ name) node) :
    WritesReplicas source
      (copyCommandText (lit "copydifferentb") (dir ++ lit "/" ++ name) (replicaPath r dir) ip port)
      r (dir ++ lit "/" ++ name) (replicaPath r dir) node := by
  have hword : IsWord (dir ++ lit "/" ++ name) :=
    isWord_append (isWord_append hdir (by decide)) hnameWord
  have hdest := isWord_replicaPath hr hdir
  have hne : dir ++ lit "/" ++ name ≠ [] := by
    simp [lit]
  have hdestNe : replicaPath r dir ≠ [] := by
    simp [replicaPath, lit]
  have hlengths : (dir ++ lit "/" ++ name).length < bufferSize ∧
      (replicaPath r dir).length + 6 < bufferSize := by
    have hverb : (lit "copydifferentb").length = 14 := by decide
    rw [length_copyCommandText] at hfits
    omega
  have hscan : (if startsWith (lit "copydifferentb") (copyCommandText (lit "copydifferentb")
      (dir ++ lit "/" ++ name) (replicaPath r dir) ip port) then scanCopy (fields
        ((copyCommandText (lit "copydifferentb") (dir ++ lit "/" ++ name) (replicaPath r dir) ip
          port).drop 14)) else none) = some (dir ++ lit "/" ++ name, replicaPath r dir, ip) := by
    have hverb : fields ((copyCommandText (lit "copydifferentb") (dir ++ lit "/" ++ name)
        (replicaPath r dir) ip port).drop (lit "copydifferentb").length) =
          (fields (copyCommandText (lit "copydifferentb") (dir ++ lit "/" ++ name)
            (replicaPath r dir) ip port)).drop 1 := fields_drop_verb (by decide) (by decide)
    have hstart : startsWith (lit "copydifferentb") (copyCommandText (lit "copydifferentb")
      (dir ++ lit "/" ++ name) (replicaPath r dir) ip port) = true := rfl
    rw [if_pos hstart]
    have hlen : (lit "copydifferentb").length = 14 := by decide
    rw [hlen] at hverb
    rw [hverb]
    exact scanCopy_copyCommandText (by decide) (by decide) hword hne hdest hdestNe hip hipNe port
  have hskips : lengthToSkipB (dir ++ lit "/" ++ name) (replicaPath r dir) node.kind =
      some (dir.length + 1) := by
    have hsplit : dir ++ lit "/" ++ name = dir ++ slash :: name := by simp [lit, slash]
    rw [lengthToSkipB, hsplit, lengthBeforeName_eq hslash]
    simp
    omega
  have hplace : ∀ p e, node.Has p e →
      fullPath false (replicaPath r dir) ((below (dir ++ lit "/" ++ name) p).drop (dir.length + 1)) =
        replicaPath r (below (dir ++ lit "/" ++ name) p) := by
    intro p e hp
    have hfits := length_replicaPath_lt hlengths.2 (hsource.sent p e hp)
    have hsplit : replicaPath r dir ++ lit "/" ++
        (below (dir ++ lit "/" ++ name) p).drop (dir.length + 1) =
          replicaPath r (below (dir ++ lit "/" ++ name) p) := by
      have hbelow : below (dir ++ lit "/" ++ name) p = dir ++ lit "/" ++ below name p := by
        simp [below]
      rw [hbelow, List.drop_left' (by simp [lit])]
      simp [replicaPath, List.drop_append_of_le_length hlong]
    rw [fullPath, if_neg (by simp)]
    rw [← hsplit]
    exact List.take_of_length_le (Nat.le_sub_one_of_lt hfits)
  obtain ⟨N, hN⟩ := ends_replicated (lit "copydifferent") lengthToSkipB false hscan
    hipLength hskips (by simp [lit, List.length_pos_iff.mpr hname]) hword hlengths.1 hdest hdestNe
    hlengths.2 hsource hplace
  exact ⟨N, fun fuel hfuel g hg ↦ ⟨_, _, rfl, hN fuel hfuel g hg⟩⟩

end Copies

/-! ### Commands on single entries -/

/-- The words of a command on a single entry. -/
private theorem words_single {name path : Text} (hname : blank ∉ name) (hnameNe : name ≠ [])
    (hpath : blank ∉ path) (hpathNe : path ≠ []) : words (name ++ lit " " ++ path) = [name, path] := by
  have hsplit : name ++ lit " " ++ path = name ++ blank :: path := by simp [lit, blank]
  rw [words, hsplit, tokens_append_cons, tokens_of_notMem hname hnameNe,
    tokens_of_notMem hpath hpathNe]
  rfl

/-- A server takes the command of a backup that fits its buffer. -/
private theorem entryRound_of_isBackup {v : Verb} (hv : v.isBackup = true) {path : Text}
    (hword : IsWord path) (hlong : 2 ≤ path.length)
    (hfits : (v.name ++ lit " " ++ path).length < bufferSize) (rootPath : Text) (locks : List Text) :
    ∃ round, entryRound rootPath locks (v.name ++ lit " " ++ path) = some round := by
  have hpath : blank ∉ path := fun hb ↦ absurd (hword _ hb).1 (by decide)
  have hname : blank ∉ v.name ∧ v.name ≠ [] := by
    cases v <;> decide
  have hwords := words_single hname.1 hname.2 hpath (List.ne_nil_of_length_pos (by omega))
  have hbranch : branch (v.name ++ lit " " ++ path) = some v := by
    rw [List.append_assoc]
    exact branch_of_isBackup hv _
  generalize v.name ++ lit " " ++ path = msg at hfits hwords hbranch ⊢
  have hexecute : execute msg = some (some v, [v.name, path]) := by
    have harity : v.arity = 2 := by
      cases v <;> first | rfl | cases hv
    simp [execute, hwords, hbranch, hfits, maxArgs, readable, harity, hlong]
  obtain ⟨function, hfunction⟩ : ∃ function, v.function = some function := by
    cases v <;> first | exact ⟨_, rfl⟩ | cases hv
  have hlock : v.takeLock locks path = some locks := by
    cases v <;> first | rfl | cases hv
  simp [entryRound, hexecute, hfunction, hlock]

/-- The command that the naming server sends to a backup makes the call on the replica. -/
private theorem exec_backup {v : Verb} (hv : v.isBackup = true) {r path : Text}
    (hword : IsWord path) (hlong : 2 ≤ path.length)
    (hreplica : (replicaPath r path).length < maxPathSize) {locks : List Text}
    {round : FsProg (List Text × List Text)}
    (hround : entryRound (pathText [r]) locks (v.name ++ lit " " ++ path) = some round)
    {tr : List (Event FsOp (fun _ ↦ Bool))} {x : List Text × List Text}
    (hx : Prog.Exec round tr (some x)) : ∃ ok, tr = [⟨⟨v.call, replicaPath r path⟩, ok⟩] := by
  obtain ⟨v', path', ok, hbranch, hpath', rfl, -⟩ := exec_entryRound hround hx
  have hblank : blank ∉ path := fun hb ↦ absurd (hword _ hb).1 (by decide)
  have hname : blank ∉ v.name ∧ v.name ≠ [] := by
    cases v <;> decide
  rw [List.append_assoc, branch_of_isBackup hv] at hbranch
  cases hbranch
  rw [words_single hname.1 hname.2 hblank (List.ne_nil_of_length_pos (by omega))] at hpath'
  cases hpath'
  have htarget : v.target (pathText [r]) path = replicaPath r path := by
    have hroot : (pathText [r]).drop 2 = r := by simp [pathText, lit]
    rw [Verb.target, if_pos hv, backupPath, hroot]
    exact List.take_of_length_le (Nat.le_sub_one_of_lt hreplica)
  exact ⟨ok, by rw [htarget]⟩

/-! ### The naming server -/

/-- The server with the source is sent a command, and its answer is read. -/
def forwardCopy (i : Nat) (command : Text) : NsProg Unit := do
  if ← forward i command then
    let _ ← recvServer i
    pure ()

section Naming

variable {st : NsState} {i b : Nat} {r : Text}

private theorem receiverAddress_eq {verb src dest : Text}
    (hfits : (copyCommandText verb src dest (st.ip b) (st.portClient b)).length < bufferSize) :
    receiverAddress st b = lit " " ++ st.ip b ++ lit " " ++ decimal (st.portClient b) := by
  apply List.take_of_length_le
  rw [length_copyCommandText] at hfits
  simp [lit]
  omega

/-- A copy command that fits its buffer is extended by the address of the receiver. -/
private theorem handleBackupCopy_eq {command verb src dest : Text}
    (hverb : (if startsWith (lit "lcopy") command then command
      else lit "copydifferent" ++ command.drop 4) = verb ++ lit " " ++ src ++ lit " " ++ dest)
    (hfits : (copyCommandText verb src dest (st.ip b) (st.portClient b)).length < bufferSize) :
    handleBackupCopy st command i b =
      forwardCopy i (copyCommandText verb src dest (st.ip b) (st.portClient b)) := by
  have haddress := receiverAddress_eq hfits
  have hcommand : verb ++ lit " " ++ src ++ lit " " ++ dest ++ receiverAddress st b =
      copyCommandText verb src dest (st.ip b) (st.portClient b) := by
    rw [haddress]
    simp [copyCommandText]
  unfold handleBackupCopy
  simp only [hverb, hcommand]
  rw [if_pos hfits]
  rfl

private theorem handleBackupCopy_of_frozen {st' : NsState} (h : st'.frozen = st.frozen)
    (command : Text) : handleBackupCopy st' command i b = handleBackupCopy st command i b := by
  unfold handleBackupCopy
  rw [receiverAddress_of_frozen h]

private theorem clip_of_copy {command src dest verb ip : Text} {port : Nat}
    (hfits : (copyCommandText verb src dest ip port).length < bufferSize)
    (hshort : command.length ≤ verb.length + src.length + dest.length + 2) :
    clip bufferSize command = command := by
  apply List.take_of_length_le
  rw [length_copyCommandText] at hfits
  omega

/-- What the naming server sends when a backup is assigned. -/
private theorem createBackupHelper_eq {top : Text} (htop : st.rootName i = some top)
    (hr : st.rootName b = some r)
    (hfits : (copyCommandText (copyVerb false) (pathText [top]) (backupFolder ++ lit "/" ++ r)
      (st.ip b) (st.portClient b)).length < bufferSize) :
    ∃ greeting, createBackupHelper st i b = (replicate b greeting >>= fun _ ↦
      forwardCopy i (copyCommandText (copyVerb false) (pathText [top])
        (backupFolder ++ lit "/" ++ r) (st.ip b) (st.portClient b))) := by
  refine ⟨clip bufferSize (lit "mkdirb ./backfolderforss/" ++ r), ?_⟩
  have hclip : clip bufferSize (lit "copy ./" ++ top ++ lit " " ++ backupFolder ++ lit "/" ++ r) =
      lit "copy ./" ++ top ++ lit " " ++ backupFolder ++ lit "/" ++ r := by
    apply clip_of_copy hfits
    simp [pathText, copyVerb, lit]
    omega
  unfold createBackupHelper
  rw [htop, hr]
  change (replicate b _ >>= fun _ ↦ handleBackupCopy st _ i b) = _
  rw [hclip, handleBackupCopy_eq ?_ hfits]
  simp [startsWith, lit, List.isPrefixOf, copyVerb, pathText, slash]

/-- What the naming server sends after a write. -/
theorem copyTo_eq {path : Text} (hr : st.rootName b = some r)
    (hfits : (copyCommandText (copyVerb true) path (backupFolder ++ lit "/" ++ r)
      (st.ip b) (st.portClient b)).length < bufferSize) :
    backupWritten.copyTo path i st (some b) = (isSsUp st b >>= fun x ↦
      if x.1 then forwardCopy i (copyCommandText (copyVerb true) path (backupFolder ++ lit "/" ++ r)
        (st.ip b) (st.portClient b)) >>= fun _ ↦ pure x.2
      else pure x.2) := by
  unfold backupWritten.copyTo isSsUp
  simp only [bind_assoc, pure_bind]
  congr 1
  funext x
  have hfrozen := frozen_afterPing st b x
  split
  · next hup =>
    have hclip : clip bufferSize (lit "lcopy " ++ path ++ lit " " ++ backupFolder ++ lit "/" ++ r) =
        lit "lcopy " ++ path ++ lit " " ++ backupFolder ++ lit "/" ++ r := by
      apply clip_of_copy hfits
      simp [copyVerb, lit]
      omega
    rw [rootName_of_frozen hfrozen, hr]
    change (handleBackupCopy (st.afterPing b x) _ i b >>= fun _ ↦ pure (st.afterPing b x)) = _
    rw [hclip, handleBackupCopy_of_frozen hfrozen, handleBackupCopy_eq ?_ hfits]
    simp [startsWith, lit, List.isPrefixOf, copyVerb]
  · rfl

/-- After a write the naming server overruns the buffer of a command that is too long. -/
private theorem copyTo_overrun {path : Text} (hr : st.rootName b = some r)
    (hlong : bufferSize ≤ (clip bufferSize (lit "lcopy " ++ path ++ lit " " ++ backupFolder ++
      lit "/" ++ r) ++ receiverAddress st b).length) :
    backupWritten.copyTo path i st (some b) =
      (isSsUp st b >>= fun x ↦ if x.1 then .abort else pure x.2) := by
  unfold backupWritten.copyTo isSsUp
  simp only [bind_assoc, pure_bind]
  congr 1
  funext x
  have hfrozen := frozen_afterPing st b x
  split
  · have habort : ∀ command : Text, startsWith (lit "lcopy") command = true →
        bufferSize ≤ (command ++ receiverAddress st b).length →
        handleBackupCopy st command i b = .abort := by
      intro command hlcopy hlength
      unfold handleBackupCopy
      rw [if_pos hlcopy]
      exact if_neg (by omega)
    rw [rootName_of_frozen hfrozen, hr]
    change (handleBackupCopy (st.afterPing b x) _ i b >>= fun _ ↦ pure (st.afterPing b x)) = _
    rw [handleBackupCopy_of_frozen hfrozen, habort _ rfl hlong]
    rfl
  · rfl

/-- What the naming server sends after a client's copy to the folder `dest`. -/
private theorem backupCopyCommand_eq {line src dest : Text} (hr : st.rootName b = some r)
    (hlong : 2 ≤ dest.length)
    (hfits : (copyCommandText (lit "copydifferentb") (dest ++ lit "/" ++ afterLast slash src)
      (replicaPath r dest) (st.ip b) (st.portClient b)).length < bufferSize) :
    backupCopyCommand st line src dest b =
      some (copyCommandText (lit "copydifferentb") (dest ++ lit "/" ++ afterLast slash src)
        (replicaPath r dest) (st.ip b) (st.portClient b)) := by
  have hcommand : lit "copydifferentb " ++ dest ++ lit "/" ++ afterLast slash src ++ lit " " ++
      backupFolder ++ lit "/" ++ r ++ lit "/" ++ dest.drop 2 ++ receiverAddress st b =
        copyCommandText (lit "copydifferentb") (dest ++ lit "/" ++ afterLast slash src)
          (replicaPath r dest) (st.ip b) (st.portClient b) := by
    rw [receiverAddress_eq hfits]
    simp [copyCommandText, replicaPath, lit]
  rw [backupCopyCommand, hr, skipTwo, if_pos hlong]
  simp only [Option.bind_eq_bind, Option.bind_some, Option.pure_def, Option.some.injEq, hcommand]
  exact List.take_of_length_le (Nat.le_sub_one_of_lt hfits)

end Naming

/-! ### Agreement -/

/-- The command for a copy to server `b`. -/
abbrev commandTo (st : NsState) (b : Nat) (verb src dest : Text) : Text :=
  copyCommandText verb src dest (st.ip b) (st.portClient b)

/-- `NAME_MAX`, the bytes of the longest name of a file. -/
def maxName : Nat := 255

/-- The folder with the replicas on the server with the root `./r`. -/
abbrev replicaFolder (r : Text) : Text := backupFolder ++ lit "/" ++ r

theorem length_replicaFolder (r : Text) : (replicaFolder r).length = r.length + 20 := by
  simp [lit, backupFolder]

/-- All mechanisms that write to backup `b`, whose root is `./r`, for server `i`, whose root is
`./s` with the components `top :: rest`, write to the places of the replicas. What they announce
has to fit the buffers, and so have the commands but the first one, which always does. -/
structure ReplicasAgree (st : NsState) (i b : Nat) (r top : Text) (rest : List Text) : Prop where
  /-- The copy of `create_backup_helper`. -/
  assigned : ∀ source node, Transferable source 0 (pathText [top]) node →
    let command := commandTo st b (lit "copydifferent") (pathText [top]) (replicaFolder r)
    (∃ greeting, createBackupHelper st i b =
      (replicate b greeting >>= fun _ ↦ forwardCopy i command)) ∧
    WritesReplicas source command r (pathText [top]) (replicaFolder r) node
  /-- The commands that `process_client` repeats. -/
  repeated : ∀ (command : Text) (v : Verb) (q locks : List Text),
    v.isBackup = true → v.name = command ++ lit "b" → (∀ w ∈ q, FileName w ∧ IsWord w) →
    let path := pathText (top :: rest ++ q)
    (command ++ lit "b " ++ path).length < bufferSize →
    ∃ round, entryRound (pathText [r]) locks (clip bufferSize (command ++ lit "b " ++ path)) =
        some round ∧
      ∀ tr x, Prog.Exec round tr (some x) → ∃ ok, tr = [⟨⟨v.call, replicaPath r path⟩, ok⟩]
  /-- The copy of a written file. -/
  written : ∀ source (q : List Text) (t : Text), (∀ w ∈ q, FileName w ∧ IsWord w) →
    let path := pathText (top :: rest ++ q)
    Transferable source 0 path (.file t) →
    let command := commandTo st b (lit "lcopy") path (replicaFolder r)
    command.length < bufferSize →
    backupWritten.copyTo path i st (some b) = (isSsUp st b >>= fun x ↦
      if x.1 then forwardCopy i command >>= fun _ ↦ pure x.2 else pure x.2) ∧
    WritesReplicas source command r path (replicaFolder r) (.file t)
  /-- The copy that follows a client's copy of `src` to a folder. -/
  copied : ∀ source (line src : Text) (d : List Text) node, (∀ w ∈ d, FileName w ∧ IsWord w) →
    afterLast slash src ≠ [] → IsWord (afterLast slash src) →
    let dir := pathText (top :: rest ++ d)
    let path := dir ++ lit "/" ++ afterLast slash src
    Transferable source (dir.length + 1) path node →
    let command := commandTo st b (lit "copydifferentb") path (replicaPath r dir)
    command.length < bufferSize →
    backupCopyCommand st line src dir b = some command ∧
    WritesReplicas source command r path (replicaPath r dir) node

private theorem isWord_pathText {ws : List Text} (h : ∀ w ∈ ws, IsWord w) : IsWord (pathText ws) := by
  intro b hb
  obtain hb | hb := List.mem_append.mp hb
  · exact (by decide : IsWord (lit ".")) b hb
  · obtain ⟨w, hw, hb⟩ := List.mem_flatMap.mp hb
    obtain rfl | hb := List.mem_cons.mp hb
    · decide
    · exact h w hw b hb

private theorem slash_notMem_afterLast (s : Text) : slash ∉ afterLast slash s := by
  intro h
  have hmem := List.mem_reverse.mp h
  simpa using List.mem_takeWhile_imp hmem

/-- A server with the root `./s` and its backup with the root `./r`. -/
def twoServers : NsState where
  storageServers :=
    [⟨4, lit "10.0.0.1", 4000, rootTrie (lit "./s"), some 1, none, true⟩,
      ⟨5, lit "10.0.0.2", 4001, rootTrie (lit "./r"), none, none, true⟩]
  storageServerIndex := 2
  cache := []
where
  /-- The trie of a server whose folder is empty. -/
  rootTrie (path : Text) : TrieNode :=
    (addPathToTrie path (createNode (lit "."))).getD (createNode (lit "."))

/-- Every run of the copy that `command` starts comes to its end, with these paths written. -/
def WritesTo (source : Text → Option Node) (command : Text) (places : List Text) : Prop :=
  ∃ N, ∀ fuel ≥ N, ∀ g ≥ N, ∃ p q, copyPrograms command fuel g = some (p, q) ∧
    Ends (recorded source).duet.Step (fun s ↦ s.world.disk = places) ⟨p, q, World.start []⟩

/-- Folders in one another. -/
def nest : List Text → Listing
  | [] => .done
  | n :: ns => .folder n (nest ns) .done

/-- The disk with the folders `ns` in one another at `src`. -/
def nestSource (src : Text) (ns : List Text) (path : Text) : Option Node :=
  (ns.inits.find? (fun us ↦ path = below src us)).map
    (fun us ↦ .folder (nest (ns.drop us.length)))

/-- Where folders in one another are made if the announcement of the last one is cut. -/
def cutPlaces (base : Text) : Text → List Text → List Text
  | src, [] => [fullPath true base (src.take (bufferSize - 5))]
  | src, n :: ns => fullPath true base src :: cutPlaces base (src ++ lit "/" ++ n) ns

section Nested

variable {source : Text → Option Node} {base : Text}

private theorem isWord_of_below {src : Text} {ns : List Text} (h : IsWord (below src ns)) :
    IsWord src :=
  fun b hb ↦ h b (List.mem_append_left _ hb)

private theorem below_cons (src n : Text) (ns : List Text) :
    below (src ++ lit "/" ++ n) ns = below src (n :: ns) := by
  simp [below, lit, slash]

/-- What does not arrive of an announcement is no command. -/
def Ignored (rest : Text) : Prop :=
  rest ≠ [] ∧ rest.length < bufferSize ∧
    ∀ verb ∈ [lit "END\n", lit "FILE ", lit "DIR "], startsWith verb (cstr rest) = false

instance (rest : Text) : Decidable (Ignored rest) :=
  inferInstanceAs (Decidable (_ ∧ _ ∧ _))

private theorem dirLine_eq {src : Text} (hpath : src.length + 5 < maxPathSize) :
    dirLine src = lit "DIR " ++ src ++ lit "\n" := by
  apply clip_eq_self
  simp [lit]
  omega

/-- What arrives of the announcement of a folder whose line does not fit. -/
private theorem take_dirLine {src : Text} (hlong : bufferSize ≤ src.length + 5)
    (hpath : src.length + 5 < maxPathSize) :
    (dirLine src).take (bufferSize - 1) = lit "DIR " ++ src.take (bufferSize - 5) := by
  have hverb : (lit "DIR ").length = 4 := by decide
  rw [dirLine_eq hpath, List.append_assoc, List.take_append, List.take_of_length_le (by decide),
    List.take_append_of_le_length]
  · rfl
  · rw [hverb]
    simp only [bufferSize] at hlong ⊢
    omega

/-- An empty folder whose announcement does not fit is made where the cut line says. -/
private theorem leads_cut {src : Text} {log : List Text} {fuel g : Nat} {w : World (List Text)}
    (hidle : w.Idle) (hcommands : ∀ x ∈ w.commands, ∃ t, x = .line t) (hdisk : w.disk = log)
    (hne : src ≠ []) (hsrc : source src = some (.folder .done)) (hword : IsWord src)
    (hlong : bufferSize ≤ src.length + 5)
    (hrest : Ignored ((dirLine src).drop (bufferSize - 1)))
    (hpath : src.length + 5 < maxPathSize) :
    (recorded source).Leads
      (Finished (· = log ++ [fullPath true base (src.take (bufferSize - 5))]))
      (sendDirectoryOverNetwork (fuel + 1) src 0 >>= fun _ ↦ copySource.finish)
      (receiveEntries true base (g + 3)) w := by
  have hP := (recorded source).finished_final
    (· = log ++ [fullPath true base (src.take (bufferSize - 5))])
  rw [← bind_pure (receiveEntries true base (g + 3))]
  have hcutWord : IsWord (src.take (bufferSize - 5)) :=
    fun b hb ↦ hword b (List.mem_of_mem_take hb)
  have hcutNe : src.take (bufferSize - 5) ≠ [] := by
    simp [hne, bufferSize]
  have hnul : 0 ∉ src.take (bufferSize - 5) := fun h ↦ (hcutWord 0 h).2 rfl
  have hfields : fields (src.take (bufferSize - 5)) ≠ [] := by
    rw [fields_of_noSpace (fun b hb ↦ (hcutWord b hb).1) hcutNe]
    exact List.cons_ne_nil _ _
  have hcut : (dirLine (src.drop 0)).take (bufferSize - 1) =
      lit "DIR " ++ src.take (bufferSize - 5) := take_dirLine hlong hpath
  apply hP.folderCut hidle hsrc (by simp [names]) ?_ hcut
    hnul hfields ⟨true, _, rfl⟩
    (R := (· = log ++ [fullPath true base (src.take (bufferSize - 5))]))
  · rintro r d rfl
    rw [firstWord_of_isWord hcutWord, hdisk]
  · intro ns w' hns hdown hup hcommanded hmade
    rw [forEach_of_dots (fun n hn ↦ sendEntry_of_dots hn) hns, pure_bind, bind_pure]
    rw [List.drop_zero] at hdown
    exact Setting.endsBehind hdown hup hrest.2.1 hrest.1 hrest.2.2 (hcommanded.lines hcommands)
      hmade
  · rw [List.drop_zero, dirLine_eq hpath]
    simp only [List.length_append]
    have hverb : (lit "DIR ").length = 4 := by decide
    have hend : (lit "\n").length = 1 := by decide
    omega

/-- Folders in one another of which only the last is announced by a line that does not fit. The
induction is on the folders still to be announced. -/
private theorem leads_nested {ns : List Text} {src : Text} {log : List Text} {fuel g : Nat}
    {w : World (List Text)} (hidle : w.Idle) (hcommands : ∀ x ∈ w.commands, ∃ t, x = .line t)
    (hdisk : w.disk = log) (hne : src ≠ [])
    (hsource : ∀ us, us <+: ns → source (below src us) = some (.folder (nest (ns.drop us.length))))
    (hdots : ∀ n ∈ ns, isDots n = false) (hword : IsWord (below src ns))
    (hshort : ∀ us, us <+: ns → us ≠ ns → (below src us).length + 5 < bufferSize)
    (hlong : bufferSize ≤ (below src ns).length + 5)
    (hrest : Ignored ((dirLine (below src ns)).drop (bufferSize - 1)))
    (hpath : (below src ns).length + 5 < maxPathSize) :
    (recorded source).Leads (Finished (· = log ++ cutPlaces base src ns))
      (sendDirectoryOverNetwork (fuel + ns.length + 1) src 0 >>= fun _ ↦ copySource.finish)
      (receiveEntries true base (g + ns.length + 3)) w := by
  induction ns generalizing src log w with
  | nil =>
    have hsrc := hsource [] List.prefix_rfl
    rw [below_nil] at *
    exact leads_cut hidle hcommands hdisk hne hsrc hword hlong hrest hpath
  | cons n ns ih =>
    have hplaces : log ++ cutPlaces base src (n :: ns) =
        (log ++ [fullPath true base src]) ++ cutPlaces base (src ++ lit "/" ++ n) ns := by
      rw [cutPlaces, List.append_cons]
    rw [hplaces, ← bind_pure (receiveEntries true base (g + (n :: ns).length + 3))]
    have hP := (recorded source).finished_final
      (· = (log ++ [fullPath true base src]) ++ cutPlaces base (src ++ lit "/" ++ n) ns)
    have hsrc := hsource [] List.nil_prefix
    have hsub := hsource [n] (List.prefix_append [n] ns)
    rw [below_nil] at hsrc
    rw [List.length_singleton, List.drop_one, List.tail_cons, ← below_cons, below_nil] at hsub
    have hfits := hshort [] List.nil_prefix (List.cons_ne_nil n ns).symm
    rw [below_nil] at hfits
    have hsrcWord := isWord_of_below hword
    rw [← below_cons] at hword hlong hrest hpath
    have hsendable : Sendable (lit "DIR ") (src.drop 0) := by
      rw [List.drop_zero]
      exact sendable_of_isWord hsrcWord hne (by simp [lit]; omega)
    apply hP.folder (g := g + ns.length + 3) hidle hsrc hsendable ?_ ⟨true, _, rfl⟩
      (R := (· = log ++ [fullPath true base src]))
    · rintro r d rfl
      rw [List.drop_zero, firstWord_of_isWord hsrcWord, hdisk]
    · intro names w' hnames hidle' hcommanded hmade
      obtain ⟨names', hnames', hbind⟩ := forEach_of_filter (fun n hn ↦ sendEntry_of_dots hn) hnames
      rw [hbind, forEach_of_dots (fun n hn ↦ sendEntry_of_dots hn) hnames']
      simp only [bind_assoc, pure_bind]
      apply hP.sendEntry_of_name (hdots n (by simp)) hsub
      · have hle : (src ++ lit "/" ++ n).length ≤ (below (src ++ lit "/" ++ n) ns).length := by
          exact (List.prefix_append _ _).length_le
        omega
      · rw [bind_pure]
        refine ih hidle' (hcommanded.lines hcommands) hmade (by simp [lit]) (fun us hus ↦ ?_)
          (fun m hm ↦ hdots m (List.mem_cons_of_mem _ hm)) hword
          (fun us hus hne' ↦ ?_) hlong hrest hpath
        · rw [below_cons]
          simpa using hsource (n :: us) (List.cons_prefix_cons.mpr ⟨rfl, hus⟩)
        · rw [below_cons]
          exact hshort (n :: us) (List.cons_prefix_cons.mpr ⟨rfl, hus⟩) (by simpa using hne')
    · simpa [nest, names] using hdots n (by simp)

/-- The copy of folders in one another, of which the last is announced by a line that does not
fit. -/
private theorem writesTo_nested {ns : List Text} {src command ip : Text}
    (hbranch : branch command = some .copydifferent)
    (hscans : scanCopy ((fields command).drop 1) = some (src, base, ip)) (hip : ip.length < 16)
    (hskips : lengthToSkip false src base .folder = some 0) (hbase : IsWord base)
    (hbaseNe : base ≠ []) (hbaseFits : base.length + 6 < bufferSize) (hne : src ≠ [])
    (hsource : ∀ us, us <+: ns → source (below src us) = some (.folder (nest (ns.drop us.length))))
    (hdots : ∀ n ∈ ns, isDots n = false) (hword : IsWord (below src ns))
    (hshort : ∀ us, us <+: ns → us ≠ ns → (below src us).length + 5 < bufferSize)
    (hlong : bufferSize ≤ (below src ns).length + 5)
    (hrest : Ignored ((dirLine (below src ns)).drop (bufferSize - 1)))
    (hpath : (below src ns).length + 5 < maxPathSize) :
    WritesTo source command (base :: cutPlaces base src ns) := by
  refine ⟨ns.length + 3, fun fuel hfuel g hg ↦ ⟨_, _, by rw [copyPrograms, hbranch], ?_⟩⟩
  have hP := (recorded source).finished_final (· = [base] ++ cutPlaces base src ns)
  obtain ⟨fuel, rfl⟩ : ∃ f, fuel = f + ns.length + 1 := ⟨fuel - ns.length - 1, by omega⟩
  obtain ⟨g, rfl⟩ : ∃ g', g = g' + ns.length + 3 := ⟨g - ns.length - 3, by omega⟩
  have hsrc := hsource [] List.nil_prefix
  rw [below_nil] at hsrc
  have hleads : (recorded source).Leads (Finished (· = [base] ++ cutPlaces base src ns))
      (copyDifferentSrc (fuel + ns.length + 1) command false)
      (copyDifferentDest (g + ns.length + 3)) (World.start []) := by
    unfold copyDifferentSrc copyDifferentDest
    rw [hscans]
    apply hP.destination hip hsrc hskips (sendable_of_isWord hbase hbaseNe (by simp [lit]; omega))
      (firstWord_of_isWord hbase) ⟨true, _, rfl⟩
    rintro r log rfl
    exact leads_nested ⟨rfl, rfl⟩ (by simp [World.start]) rfl hne hsource hdots hword hshort hlong
      hrest hpath
  exact (hleads.ends hP).imp (fun s hs ↦ hs.disk)

end Nested

/-- The sender has come back, and the receiver waits for a line that nobody sends. -/
private def Waiting
    (s : Duet.State SendOp RecvOp SendOp.Res RecvOp.Res (World (List Text)) Text Unit) : Prop :=
  (∃ a, s.first = pure a) ∧ (∃ n k, s.second = recvCall (.recv n) >>= k) ∧ s.world.down = [] ∧
    s.world.disk = []

private theorem waiting_final {source : Text → Option Node} : (recorded source).Final Waiting := by
  rintro ⟨p, q, w⟩ t ⟨⟨a, hp⟩, ⟨n, k, hq⟩, hdown, -⟩ (hstep | hstep)
  · obtain rfl : p = _ := hp
    cases hstep
  · obtain rfl : q = _ := hq
    cases hstep with
    | perform hanswer =>
      obtain ⟨x, c, hc, -⟩ := hanswer
      exact hc.ne_nil hdown

/-- A command that does not have the arguments of a copy copies nothing; the receiver goes on
waiting for the destination. -/
private theorem writesTo_of_unscanned {source : Text → Option Node} {command : Text}
    (hbranch : branch command = some .copydifferentb)
    (hscans : scanCopy (fields (command.drop 14)) = none) : WritesTo source command [] := by
  refine ⟨0, fun fuel _ g _ ↦ ⟨_, _, by rw [copyPrograms, hbranch], ?_⟩⟩
  unfold copyDifferentSrcB copyDifferentDestB copySource copyDest
  rw [hscans, ite_self]
  refine (Inevitable.ends waiting_final ?_).imp (fun s hs ↦ hs.2.2.2)
  apply waiting_final.sendAck
  apply Inevitable.now
  exact ⟨⟨_, rfl⟩, ⟨_, _, rfl⟩, rfl, rfl⟩

/-- The table of `twoServers` with another root for the backup. -/
def backedUpBy (root : Text) : NsState :=
  twoServers.modifyServer 1 (fun info ↦ { info with root := twoServers.rootTrie root })

/-- A name of `n` bytes. -/
def longName (n : Nat) : Text := List.replicate n 97

/-- A root with blanks is read as several arguments of the copy for a new backup. -/
private theorem writesTo_blanks :
    (∃ greeting, createBackupHelper (backedUpBy (lit "./a 10.0.0.2 4001")) 0 1 =
      (replicate 1 greeting >>= fun _ ↦ forwardCopy 0 (commandTo
        (backedUpBy (lit "./a 10.0.0.2 4001")) 1 (lit "copydifferent") (pathText [lit "s"])
        (replicaFolder (lit "a 10.0.0.2 4001"))))) ∧
    WritesTo (nestSource (pathText [lit "s"]) [])
      (commandTo (backedUpBy (lit "./a 10.0.0.2 4001")) 1 (lit "copydifferent")
        (pathText [lit "s"]) (replicaFolder (lit "a 10.0.0.2 4001")))
      [replicaFolder (lit "a"), replicaPath (lit "a") (pathText [lit "s"])] := by
  refine ⟨createBackupHelper_eq (by decide +kernel) (by decide +kernel) (by decide +kernel), ?_⟩
  have hsent : Transferable (nestSource (pathText [lit "s"]) []) 0 (pathText [lit "s"])
      (.folder .done) := by
    refine ⟨⟨by decide +kernel, trivial⟩, ?_⟩
    rintro p e (⟨rfl, rfl⟩ | ⟨⟨⟩⟩)
    exact ⟨by simp, by decide +kernel, by simp⟩
  have hip : (lit "10.0.0.2").length < 16 := by decide
  have hdest : IsWord (replicaFolder (lit "a")) := by decide +kernel
  obtain ⟨N, hN⟩ := ends_at (lit "copydifferent/lcopy") (lengthToSkip false) true rfl hip
    (by decide +kernel) (by decide +kernel) (by decide +kernel) (by decide +kernel) hdest
    (by decide +kernel) (by decide +kernel) hsent
  have hbranch : branch (commandTo (backedUpBy (lit "./a 10.0.0.2 4001")) 1 (lit "copydifferent")
      (pathText [lit "s"]) (replicaFolder (lit "a 10.0.0.2 4001"))) = some .copydifferent := by
    decide +kernel
  have hscan : scanCopy ((fields (commandTo (backedUpBy (lit "./a 10.0.0.2 4001")) 1
      (lit "copydifferent") (pathText [lit "s"]) (replicaFolder (lit "a 10.0.0.2 4001")))).drop 1) =
        some (pathText [lit "s"], replicaFolder (lit "a"), lit "10.0.0.2") := by
    decide +kernel
  refine ⟨N, fun fuel hfuel g hg ↦ ⟨_, _, by rw [copyPrograms, hbranch], ?_⟩⟩
  rw [copyDifferentSrc, hscan]
  refine (hN fuel hfuel g hg).imp (fun s hs ↦ ?_)
  rw [hs.disk]
  decide +kernel

/-- A folder with a path of 488 bytes. -/
def longFolder : Text := pathText [lit "s", longName 242, longName 241]

/-- The command for a copy to this folder has no room for the port of the backup. -/
def portlessCommand : Text :=
  lit "copydifferentb " ++ longFolder ++ lit "/x " ++ replicaPath (lit "r") longFolder ++
    lit " 10.0.0.2"

/-- The names of folders in one another, of which the last has a path of 1023 bytes. -/
def deepNames : List Text := List.replicate 4 (longName 254)

/-- Where the copy of these folders to a new backup makes them. -/
def deepPlaces : List Text :=
  replicaFolder (lit "r") :: cutPlaces (replicaFolder (lit "r")) (pathText [lit "s"]) deepNames

private theorem writesTo_deep : WritesTo (nestSource (pathText [lit "s"]) deepNames)
    (commandTo twoServers 1 (lit "copydifferent") (pathText [lit "s"]) (replicaFolder (lit "r")))
    deepPlaces := by
  have hsource : ∀ us ∈ deepNames.inits, nestSource (pathText [lit "s"]) deepNames
      (below (pathText [lit "s"]) us) = some (.folder (nest (deepNames.drop us.length))) := by
    decide +kernel
  have hshort : ∀ us ∈ deepNames.inits, us ≠ deepNames →
      (below (pathText [lit "s"]) us).length + 5 < bufferSize := by
    decide +kernel
  have hip : (lit "10.0.0.2").length < 16 := by decide
  exact writesTo_nested (by decide +kernel) (by decide +kernel) hip (by decide +kernel)
    (by decide +kernel) (by decide +kernel) (by decide +kernel) (by decide +kernel)
    (fun us hus ↦ hsource us ((List.mem_inits _ _).mpr hus)) (by decide +kernel)
    (by decide +kernel) (fun us hus ↦ hshort us ((List.mem_inits _ _).mpr hus))
    (by decide +kernel) (by decide +kernel) (by decide +kernel)

end NetworkFileSystem.Cluster
