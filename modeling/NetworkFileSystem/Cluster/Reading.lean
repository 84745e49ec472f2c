import NetworkFileSystem.Client.Downloads
import NetworkFileSystem.Client.Failover
import NetworkFileSystem.Cluster.Currency
import NetworkFileSystem.Naming.Replies

/-!
# Reads return what was written last

`naming_server.c:486–519,1059–1130`, `client.c:17–183,551–601`, `storage_server.c:301–338`,
`helper.c:296–405`. A read goes from the client to the naming server, which looks the path up
and answers with an address, and from there to the storage server at this address. While the
server of the path runs, the client gets what the last acknowledged write has left in the file.
Messages arrive whole, the contents of the file in any pieces.
-/

namespace NetworkFileSystem.Cluster

open Base Base.Prog Protocol Trie Trie.TrieNode Naming Storage Transfer Client

/-! ### A read -/

/-- The commands that read a file. -/
inductive ReadVerb where
  | cat
  | stream

namespace ReadVerb

def name : ReadVerb → Text
  | .cat => lit "cat"
  | .stream => lit "stream"

/-- What the storage server does, `storage_server.c:322–338`. -/
def program (path : Text) : ReadVerb → SsProg Unit
  | .cat => Request.program (.cat path)
  | .stream => readMp3File path

/-- What the client does, `client.c:585–600`. -/
def reader : ReadVerb → Reader
  | .cat => terminal
  | .stream => player

/-- The size of the buffer for the message that there is no file. -/
def messageSize : ReadVerb → Nat
  | .cat => bufferSize
  | .stream => bufferSizeForMusic

end ReadVerb

/-- What `open` and `read` make of `path`: a folder is opened, but nothing is read. -/
def openedFile (s : SsState) (path : Text) : Option Text :=
  match s.disk.entry (resolveFrom s.cwd path) with
  | some (.file t) => some t
  | some .folder => some []
  | none => none

/-- A client that has got `reply` for `line` connects to a server that runs, which opens `path`
and finds `file`. -/
def Fleet.Opens (f : Fleet) (line reply path : Text) (file : Option Text) : Prop :=
  ∃ ip port request j, readRequest line reply = some (ip, port, request) ∧
    f.up j = true ∧ f.address j = (ip, (atol port).toNat % 2 ^ 16) ∧
    openedPath request = some path ∧ file = openedFile (f.servers j) path

/-- What `inet_ntoa` prints: digits and dots. -/
def Dotted (ip : Text) : Prop := ∀ b ∈ ip, b = 46 ∨ 48 ≤ b ∧ b ≤ 57

/-! ### The naming server -/

section Lookup

variable {c : Service} {i : Nat} {ws : List Text} {tr : List NsEvent} {f f' : Fleet}

/-- The path of an entry is found, and leads to the server that exports it. -/
theorem Synced.resolve_entry (h : Synced c) (hws : Canonical ws) (hi : i < c.naming.roots.length)
    (hroot : [rootName (c.fleet.servers i)] <+: ws)
    (hentry : (c.fleet.servers i).disk.entry ((c.fleet.servers i).cwd ++ ws) ≠ none) :
    c.naming.resolve (pathText ws) = some i := by
  have hsome : c.naming.resolve (pathText ws) ≠ none := by
    unfold NsState.resolve
    split
    · next index hindex =>
      obtain ⟨e, he, -⟩ := searchCache_eq_some hindex
      simp [he]
    · intro hnone
      have hn : c.naming.roots[i]? = some c.naming.roots[i] := List.getElem?_eq_getElem hi
      have hmem : components (pathText ws) ∈ c.naming.roots[i].paths := by
        rw [components_pathText hws.component, (h.mirrored.mirrors i _ hn).paths]
        exact .inr (.inr ⟨ws, ⟨hroot, hentry⟩, rfl⟩)
      have hshort : (components (pathText ws)).length < maxPath := hws.length
      obtain hnone | hnone : searchInTries c.naming.roots (pathText ws) = none ∨
          searchInTries c.naming.roots (pathText ws) = some none := by
        cases hsearch : searchInTries c.naming.roots (pathText ws) with
        | none => exact .inl rfl
        | some k => exact .inr (by rw [hsearch, Option.join_some] at hnone; rw [hnone])
      · simp [searchInTries, parsePath_of_lt hws.length] at hnone
      · exact (searchInTries_eq_none hshort).mp hnone _
          (List.mem_map_of_mem (List.mem_of_getElem? hn)) hmem
  obtain ⟨k, hk⟩ := Option.ne_none_iff_exists'.mp hsome
  obtain ⟨hlt, hhead⟩ := h.mirrored.resolve hws hk
  rw [hk, h.mirrored.distinct k i hlt hi
    (Option.some.inj (hhead.symm.trans (head_of_singleton hroot)))]

/-- A server that still runs in the end has answered every ping. -/
theorem Fleet.answered_of_up {r : PingResult} (hup : f'.up i = true)
    (hmem : (⟨.ping i, r⟩ : NsEvent) ∈ tr) (h : outages.Accepts f tr f') : r = PingResult.up := by
  induction h with
  | nil => cases hmem
  | silent _ _ ih => exact ih hup hmem
  | @event w w' w'' o r' tr hr hacc ih =>
    obtain heq | hmem := List.mem_cons.mp hmem
    · cases heq
      obtain ⟨rfl, hiff⟩ := hr
      exact hiff.mpr (Fleet.up_of_accepts hacc i hup)
    · exact ih hup hmem

/-- The server itself is asked first. -/
private theorem exec_redundantSs_ping {st : NsState} {out : Option (Option Nat × NsState)}
    (h : Exec (redundantSs st i) tr out) : ∃ r, (⟨.ping i, r⟩ : NsEvent) ∈ tr := by
  unfold redundantSs at h
  obtain ⟨r, rest, rfl, -⟩ := exec_isSsUp.mp h
  exact ⟨r, by simp⟩

/-- While the server of an entry runs, a read is answered with its address, whatever the naming
server has recorded of it. -/
theorem Synced.locates (h : Synced c) (hws : Canonical ws)
    (hresolve : c.naming.resolve (pathText ws) = some i) {out : Option NsState}
    (hrun : LocateRun c.naming (pathText ws) tr out) (hacc : outages.Accepts c.fleet tr f)
    (hup : f.up i = true) :
    ∃ st, out = some st ∧ sent tr = [serverAddress c.naming i] := by
  have haddress : ∀ {st : NsState}, st.frozen = c.naming.frozen →
      serverAddress st i = serverAddress c.naming i := by
    intro st hf
    have hskel := skeleton_of_frozen hf
    rw [serverAddress, ip_of_skeleton hskel, portClient_of_skeleton hskel, serverAddress]
  have hindex : ∀ {t : List NsEvent} {k : Option Nat} {st : NsState},
      Exec (searchStorageServer c.naming (pathText ws)) t (some (k, st)) → k = some i := by
    intro t k st hx
    exact (exec_lookup hx).2.1.trans hresolve
  -- The first ping of the search for a replica goes to the server itself.
  have hself : ∀ {t u v : List NsEvent} {st st' : NsState} {k : Option Nat},
      tr = t ++ (u ++ v) → Exec (redundantSs st i) u (some (k, st')) → k = some i := by
    rintro t u v st st' k rfl hx
    obtain ⟨r, hr⟩ := exec_redundantSs_ping hx
    obtain rfl : r = PingResult.up := Fleet.answered_of_up hup (by simp [hr]) hacc
    obtain ⟨-, k', st'', hout, -, -, hiff⟩ := exec_redundantSs hx
    cases hout
    exact (hiff i).mp hr
  cases hrun with
  | overruns ho => exact absurd ho (h.mirrored.not_overruns hws)
  | unknown hx => cases hindex hx
  | found hx _ =>
    cases hindex hx
    obtain ⟨hpings, -, hf, -⟩ := exec_lookup hx
    refine ⟨_, rfl, ?_⟩
    rw [sent_append, sent_of_pings hpings, haddress hf]
    rfl
  | @backAgain t t₂ k st₁ st₂ ok hx _ hr =>
    cases hindex hx
    obtain ⟨hpings, -, hf, -⟩ := exec_lookup hx
    obtain ⟨hpings₂, _, _, hout, hf₂, -, -⟩ := exec_redundantSs hr
    cases hout
    refine ⟨_, rfl, ?_⟩
    rw [sent_append, sent_append, sent_of_pings hpings, sent_of_pings hpings₂,
      haddress (hf₂.trans hf)]
    rfl
  | replica hx _ hr hne _ =>
    cases hindex hx
    cases hself (List.append_assoc _ _ _) hr
    exact absurd rfl hne
  | rootless hx _ hr hne _ =>
    cases hindex hx
    cases hself (v := []) (congrArg _ (List.append_nil _).symm) hr
    exact absurd rfl hne
  | lost hx _ hr =>
    cases hindex hx
    cases hself (v := []) (congrArg _ (List.append_nil _).symm) hr

/-- Unless a server stops, a command that is not forwarded goes on. -/
private theorem accepts_of_answers {answer : (o : NsOp) → o.Res}
    (hping : ∀ j, answer (.ping j) = PingResult.up ↔ f.up j = true) {tr : List NsEvent}
    (htr : OffLink tr) (hall : ∀ e ∈ tr, e = ⟨e.1, answer e.1⟩) : outages.Accepts f tr f := by
  induction tr with
  | nil => exact .nil
  | cons e tr ih =>
    have hrest := ih (fun e he ↦ htr e (List.mem_cons_of_mem _ he))
      (fun e he ↦ hall e (List.mem_cons_of_mem _ he))
    have ho := htr e List.mem_cons_self
    rw [hall e List.mem_cons_self]
    cases hop : e.1 with
    | ping j => exact .event ⟨rfl, hping j⟩ hrest
    | sendClient msg | sendAck ip port msg => exact .event rfl hrest
    | _ =>
      rw [hop] at ho
      cases ho

end Lookup

/-! ### The client -/

section Address

variable {st : NsState} {i : Nat} {line : Text}

/-- The client takes the address from the answer. -/
theorem readRequest_serverAddress (hip : Dotted (st.ip i)) (hne : st.ip i ≠ [])
    (hshort : (st.ip i).length < 16) (hport : st.portClient i < 2 ^ 16) :
    readRequest line (serverAddress st i) =
      some (st.ip i, decimal (st.portClient i) ++ [blank], line) := by
  have hdigits : ∀ b ∈ decimal (st.portClient i), 48 ≤ b ∧ b ≤ 57 := by
    intro b hb
    simpa [UInt8.le_iff_toNat_le] using digit_of_mem_decimal hb
  have hlen : (decimal (st.portClient i)).length ≤ 5 := by
    apply length_decimal_le (by decide)
    omega
  have hreply : serverAddress st i = st.ip i ++ comma :: (decimal (st.portClient i) ++ [blank]) := by
    have hclip : (st.ip i ++ lit "," ++ decimal (st.portClient i) ++ lit " ").length <
        bufferSize := by
      simp only [List.length_append, bufferSize, lit]
      simp
      omega
    rw [serverAddress, clip_eq_self hclip]
    simp [lit, comma, blank]
  have hplain : ∀ b ∈ serverAddress st i, b = comma ∨ b = blank ∨ b = 46 ∨ 48 ≤ b ∧ b ≤ 57 := by
    intro b hb
    rw [hreply, List.mem_append, List.mem_cons, List.mem_append, List.mem_singleton] at hb
    obtain hb | rfl | hb | rfl := hb
    · exact .inr (.inr (hip b hb))
    · exact .inl rfl
    · exact .inr (.inr (.inr (hdigits b hb)))
    · exact .inr (.inl rfl)
  have hfound : containsText (lit "not found") (serverAddress st i) = false := by
    by_contra hcontains
    rw [Bool.not_eq_false] at hcontains
    have hn : (110 : UInt8) ∈ serverAddress st i :=
      List.IsInfix.subset (containsText_iff.mp hcontains) (by decide)
    have := hplain _ hn
    revert this
    decide
  have hbackup : startsWith (lit "Backup") (serverAddress st i) = false := by
    by_contra hstarts
    rw [Bool.not_eq_false] at hstarts
    have hn : (66 : UInt8) ∈ serverAddress st i :=
      List.IsPrefix.subset (List.isPrefixOf_iff_prefix.mp hstarts) (by decide)
    have := hplain _ hn
    revert this
    decide
  have hcomma : ∀ t : Text, (∀ b ∈ t, b = blank ∨ b = 46 ∨ 48 ≤ b ∧ b ≤ 57) → comma ∉ t := by
    intro t ht hb
    have := ht _ hb
    revert this
    decide
  have htokens : tokens comma (serverAddress st i) =
      [st.ip i, decimal (st.portClient i) ++ [blank]] := by
    rw [hreply, tokens_append_cons,
      tokens_of_notMem (hcomma _ fun b hb ↦ .inr (hip b hb)) hne,
      tokens_of_notMem (hcomma _ fun b hb ↦ ?_) (by simp)]
    · rfl
    · obtain hb | hb := List.mem_append.mp hb
      · exact .inr (.inr (hdigits b hb))
      · exact .inl (List.mem_singleton.mp hb)
  rw [readRequest, hfound, handedOn, hbackup]
  simp [htokens]

end Address

/-! ### From the line to the terminal -/

/-- The server's thread sends what it finds. -/
theorem sends_program (v : ReadVerb) (path : Text) (file : Option Text) :
    Sends file (v.program path) (readReply v.messageSize path file) := by
  cases v with
  | cat => exact sends_cat path
  | stream => exact sends_readMp3File path

/-- The terminal shows C strings, the player takes all bytes. -/
theorem exact_reader {v : ReadVerb} {t : Text} (h : v = .cat → 0 ∉ t) :
    Download.Exact v.reader t := by
  cases v with
  | cat => exact Download.exact_terminal (h rfl)
  | stream => exact Download.exact_player

/-- The path that the server opens for a read. -/
private theorem openedPath_commandLine (v : ReadVerb) {ws : List Text} (hws : Canonical ws) :
    openedPath (commandLine v.name ws) = some (pathText ws) := by
  have hwords : words (commandLine v.name ws) = [v.name, pathText ws] := by
    cases v with
    | cat => exact words_commandLine (by decide) (by decide) hws
    | stream => exact words_commandLine (by decide) (by decide) hws
  have hstart : startsWith (lit "sscopy") (commandLine v.name ws) = false ∧
      (startsWith (lit "cat") (commandLine v.name ws) = true ∨
        startsWith (lit "stream") (commandLine v.name ws) = true) := by
    cases v with
    | cat => exact ⟨rfl, .inl rfl⟩
    | stream => exact ⟨rfl, .inr rfl⟩
  rw [openedPath, hstart.1, hwords]
  obtain h | h := hstart.2
  · simp [h]
  · simp [h]

/-- In every run whose updates reach their backups: a read of a file whose server runs can be
answered at once; and whenever it is answered, the naming server sends one message, the client
takes an address from it, the only running server there opens the path, and the client gets what
the last acknowledged write or `touch` has left in the file. -/
theorem read_shows_last_write {c : Service} {i : Nat} {ws : List Text} {t : Text}
    (h : Reachable Service.Start (Service.Step Undisturbed) c) (hi : i < c.naming.roots.length)
    (hws : Canonical ws) (hroot : [rootName (c.fleet.servers i)] <+: ws)
    (hsaved : c.saved ws = some t) (hip : Dotted (c.fleet.address i).1)
    (hup : c.fleet.up i = true) (v : ReadVerb) (h0 : v = .cat → 0 ∉ t) :
    (∃ tr out, Exec (processClient c.naming (commandLine v.name ws)) tr out ∧
        outages.Accepts c.fleet tr c.fleet) ∧
      ∀ tr out f, Exec (processClient c.naming (commandLine v.name ws)) tr out →
        outages.Accepts c.fleet tr f → f.up i = true →
        ∃ st reply, out = some st ∧ sent tr = [reply] ∧
          (∃ file, f.Opens (commandLine v.name ws) reply (pathText ws) file) ∧
          ∀ path file, f.Opens (commandLine v.name ws) reply path file →
            Ends (Download.Step v.reader file) (fun s ↦ s.turn = .ended ∧ s.shown = t)
              (.start (v.program path)) := by
  have hsynced : Synced c := h.invariant (fun _ hs ↦ hs.synced) (fun _ _ hs hstep ↦ hs.step hstep)
  have hdisk := (hsynced.saved i hi ws hroot t).mp hsaved
  have hresolve := hsynced.resolve_entry hws hi hroot (by simp [hdisk])
  have hlocate : ∀ {tr out}, Exec (processClient c.naming (commandLine v.name ws)) tr out →
      LocateRun c.naming (pathText ws) tr out := by
    intro tr out hx
    have hverb : blank ∉ v.name ∧ v.name ≠ [] ∧ startsWith (lit "copy") v.name = false ∧
        startsWith (lit "write") v.name = false ∧
        ¬ (v.name = lit "mkdir" ∨ v.name = lit "touch") ∧
        ¬ (v.name = lit "rmdir" ∨ v.name = lit "rm") := by
      cases v with
      | cat => decide
      | stream => decide
    obtain ⟨hblank, hne, hcopy, hwrite, hmake, hremove⟩ := hverb
    obtain ⟨hcommand, -⟩ | ⟨hcommand, -⟩ | ⟨-, -, hrun⟩ :=
      clientRun_commandLine hblank hne hws hcopy hwrite hx
    · exact absurd hcommand hmake
    · exact absurd hcommand hremove
    · exact hrun
  constructor
  · let answer : (o : NsOp) → o.Res := fun o ↦ match o with
      | .ping j => if c.fleet.up j then .up else .down
      | .forward _ _ | .replicate _ _ | .reindex _ | .sendClient _ | .sendAck _ _ _ => true
      | .recvServer _ => none
      | .recvIndex _ => []
    have hx := exec_runWith answer (processClient c.naming (commandLine v.name ws))
    refine ⟨_, _, hx, accepts_of_answers ?_ (hlocate hx).offLink
      (fun _ he ↦ answer_of_mem_runWith he)⟩
    intro j
    change (if c.fleet.up j then PingResult.up else .down) = PingResult.up ↔ _
    split
    · next hj => simp [hj]
    · next hj => simp [hj]
  · intro tr out f hx hacc hf
    obtain ⟨st, hout, hsent⟩ := hsynced.locates hws hresolve (hlocate hx) hacc hf
    have hfades := Fades.of_offLink (hlocate hx).offLink hacc
    obtain ⟨haddress, heq⟩ := hsynced.address i hi hup
    have hrequest : readRequest (commandLine v.name ws) (serverAddress c.naming i) =
        some ((c.fleet.address i).1, decimal (c.fleet.address i).2 ++ [blank],
          commandLine v.name ws) := by
      rw [heq] at hip haddress ⊢
      exact readRequest_serverAddress hip haddress.ne_nil haddress.short haddress.port
    have hport : (atol (decimal (c.fleet.address i).2 ++ [blank])).toNat % 2 ^ 16 =
        (c.fleet.address i).2 := by
      have hlt := haddress.port
      rw [atol_decimal (by omega) rfl, Int.toNat_natCast, Nat.mod_eq_of_lt hlt]
    have hserver : f.address i =
        ((c.fleet.address i).1, (atol (decimal (c.fleet.address i).2 ++ [blank])).toNat % 2 ^ 16) := by
      rw [hport, hfades.address]
    have hfile : openedFile (f.servers i) (pathText ws) = some t := by
      rw [hfades.servers, openedFile, resolveFrom_pathText (fun w hw ↦ (hws.names w hw).toFileName),
        hdisk]
    refine ⟨st, _, hout, hsent, ⟨_, _, _, _, i, hrequest, hf, hserver,
      openedPath_commandLine v hws, rfl⟩, ?_⟩
    rintro path file ⟨ip, port, request, j, hrequest', hj, hserver', hpath, rfl⟩
    rw [hrequest] at hrequest'
    cases hrequest'
    -- No other server that runs has this address.
    have hji : j = i := by
      refine hsynced.apart j i (hfades.up j hj) hup ?_
      rw [← hfades.address, hserver', hserver]
    subst hji
    rw [openedPath_commandLine v hws] at hpath
    cases hpath
    rw [hfile]
    exact ((Download.Kept.start (sends_program v (pathText ws) (some t))).ends rfl).imp
      (fun s hs ↦ ⟨hs.1, hs.2 (exact_reader h0)⟩)

/-! ### Three servers with a file each -/

/-- The file in each folder, and in its replicas. -/
private def filedFiles (r : Text) : List (List Text) :=
  [r, lit "a"] :: tripleNames.map (fun w ↦ [lit "backupfolderforss", r, w, lit "a"])

private theorem dropLast_mem_tripleFolders (r : Text) :
    ∀ p ∈ tripleFolders r ++ filedFiles r, p.dropLast ∈ tripleFolders r := by
  simp [tripleFolders, filedFiles, tripleNames]

/-- Server `i` works at the top, exports its folder and holds replicas of all of them. -/
private def filedServer (i : Nat) : SsState where
  cwd := []
  rootPath := lit "./" ++ tripleName i
  disk := tripleDisk (tripleName i) (filedFiles (tripleName i)) (lit "hi")
    (dropLast_mem_tripleFolders _)
  locks := []

/-- What is in each of these folders. -/
private def filed (q : List Text) : Option Entry :=
  if q = [] then some .folder else if q = [lit "a"] then some (.file (lit "hi")) else none

private theorem entry_filed (i : Nat) (q : List Text) :
    (filedServer i).disk.entry (tripleName i :: q) = filed q := by
  have hne := tripleName_ne i
  change (if _ ∈ tripleFolders (tripleName i) then _ else
    if _ ∈ filedFiles (tripleName i) then _ else _) = _
  simp [tripleFolders, filedFiles, hne, hne.symm, filed]

private theorem entry_filed_replica (i : Nat) {w : Text} (hw : w ∈ tripleNames) (q : List Text) :
    (filedServer i).disk.entry (lit "backupfolderforss" :: tripleName i :: w :: q) = filed q := by
  have hne := (tripleName_ne i).symm
  change (if _ ∈ tripleFolders (tripleName i) then _ else
    if _ ∈ filedFiles (tripleName i) then _ else _) = _
  simp [tripleFolders, filedFiles, hne, filed, hw, @eq_comm _ [lit "a"] q]

/-- What `readdir` delivers of an exported folder. -/
private def filedListing : Listing := .file (lit "a") (lit "hi") .done

private theorem has_filedListing {p : List Text} {e : Entry} :
    filedListing.Has p e ↔ p = [lit "a"] ∧ e = .file (lit "hi") := by
  simp [filedListing, Listing.Has]

private theorem announces_filed (i : Nat) : Announces (filedServer i) filedListing where
  root := by
    change lit "./" ++ tripleName i = pathText [tripleName i]
    simp [pathText, lit, slash]
  name := (plain_triple _ (tripleName_mem i)).1.toFileName
  holds := by
    refine ⟨entry_filed i [], fun p e hp ↦ ?_⟩
    change (filedServer i).disk.entry (tripleName i :: p) = some e ↔ _
    rw [entry_filed, has_filedListing, filed, if_neg hp]
    split
    · next ha => simp [ha, eq_comm]
    · next ha => simp [ha]
  visible := by
    intro p e hp w hw
    rw [(has_filedListing.mp hp).1, List.mem_singleton] at hw
    subst hw
    decide
  roomy := by
    rintro p ⟨q, rfl⟩
    have hsub : (filedServer i).disk.names ([] ++ ([tripleName i] ++ q)) ⊆ {lit "a"} := by
      intro w hw
      change (filedServer i).disk.entry (tripleName i :: (q ++ [w])) ≠ none at hw
      rw [entry_filed, filed, if_neg (by simp)] at hw
      split at hw
      · next ha =>
        have hlast := congrArg List.getLast? ha
        rw [List.getLast?_concat] at hlast
        exact Option.some.inj hlast
      · exact absurd rfl hw
    refine (Set.encard_le_encard hsub).trans ?_
    rw [Set.encard_singleton]
    exact_mod_cast (by decide : 1 ≤ maxFolders)

private theorem indexed_filed : ∀ w ∈ tripleNames, Indexed [w] ∧ Indexed [w, lit "a"] := by
  have ha : PlainName (lit "a") ∧ newline ∉ lit "a" :=
    ⟨⟨⟨by decide, by decide, by decide, by decide, by decide⟩, by decide⟩, by decide⟩
  have hlines : ∀ w ∈ tripleNames, Indexable (pathText [w]) ∧ Indexable (pathText [w, lit "a"]) := by
    unfold Indexable
    decide
  intro w hw
  have hplain := plain_triple w hw
  obtain ⟨hone, htwo⟩ := hlines w hw
  exact ⟨⟨⟨by simpa using hplain.1, (by decide : 2 < maxPath)⟩, by simpa using hplain.2, hone⟩,
    ⟨⟨by simpa using ⟨hplain.1, ha.1⟩, (by decide : 3 < maxPath)⟩,
      by simpa using ⟨hplain.2, ha.2⟩, htwo⟩⟩

private theorem clear_filed (i : Nat) : Clear (filedServer i) filedListing where
  root := (indexed_filed _ (tripleName_mem i)).1
  entries := by
    intro p e hp
    rw [(has_filedListing.mp hp).1]
    exact (indexed_filed _ (tripleName_mem i)).2
  ne_backup := tripleName_ne i

/-- What the clients know of the files. -/
private def filedSaved (ws : List Text) : Option Text :=
  if ∃ w ∈ tripleNames, ws = [w, lit "a"] then some (lit "hi") else none

private theorem start_filed {tr : List NsEvent} {st : NsState}
    (h : Exec (threeEnrolled filedServer filedListing) tr (some st))
    (hcount : st.roots.length = 3)
    (haddress : ∀ i < 3, (st.ip i, st.portClient i) = (lit "10.0.0.1", 4000 + i)) :
    Service.Start ⟨st, threeUp filedServer, filedSaved⟩ := by
  refine start_three (fun _ ↦ rfl) announces_filed clear_filed h hcount haddress
    (fun i b q ↦ ?_) (fun i q t ↦ ?_)
  · exact (entry_filed_replica b (tripleName_mem i) q).trans (entry_filed i q).symm
  · change filedSaved (tripleName i :: q) = some t ↔
      (filedServer i).disk.entry (tripleName i :: q) = some (.file t)
    rw [entry_filed, filedSaved, filed]
    have hmem := tripleName_mem i
    by_cases hq : q = [lit "a"]
    · subst hq
      simp [hmem]
    · by_cases hnil : q = []
      · simp [hnil]
      · simp [hq, hnil]

/-- Each of the files is printed as it is. -/
theorem read_shows_last_write_of_three :
    ∃ c : Service, c.fleet.up 0 = true ∧
      (∃ tr out, Exec (processClient c.naming (lit "cat ./s/a")) tr out ∧
        outages.Accepts c.fleet tr c.fleet) ∧
      ∀ tr out f, Exec (processClient c.naming (lit "cat ./s/a")) tr out →
        outages.Accepts c.fleet tr f → f.up 0 = true →
        ∃ reply, sent tr = [reply] ∧ ∃ file, f.Opens (lit "cat ./s/a") reply (lit "./s/a") file ∧
          Ends (Download.Step terminal file) (fun s ↦ s.turn = .ended ∧ s.shown = lit "hi")
            (.start (Request.program (.cat (lit "./s/a")))) := by
  have hrun : ((threeEnrolled filedServer filedListing).runWith agreeable).2.map (fun st ↦
      (st.roots.length, (List.range 3).map (fun i ↦ (st.ip i, st.portClient i)))) =
      some (3, (List.range 3).map (fun i ↦ (lit "10.0.0.1", 4000 + i))) := by
    decide +kernel
  obtain ⟨st, hst, hfacts⟩ := Option.map_eq_some_iff.mp hrun
  obtain ⟨hcount, haddress⟩ := Prod.mk.inj hfacts
  have hreg := exec_runWith agreeable (threeEnrolled filedServer filedListing)
  rw [hst] at hreg
  have haddress' : ∀ i < 3, (st.ip i, st.portClient i) = (lit "10.0.0.1", 4000 + i) :=
    fun i hi ↦ List.map_inj_left.mp haddress i (List.mem_range.mpr hi)
  have hstart := start_filed hreg hcount haddress'
  have hroot : [rootName (filedServer 0)] <+: [lit "s", lit "a"] := ⟨[lit "a"], rfl⟩
  have hcanonical : Canonical [lit "s", lit "a"] :=
    ⟨(indexed_filed (lit "s") (by decide)).2.toPlain, by decide, by decide⟩
  have hsaved : filedSaved [lit "s", lit "a"] = some (lit "hi") := by decide
  have hip : Dotted (lit "10.0.0.1") := by
    unfold Dotted
    decide +kernel
  have hnoNul : 0 ∉ lit "hi" := by decide
  have hall := @read_shows_last_write _ 0 [lit "s", lit "a"] (lit "hi") (.start hstart)
    (hcount.symm ▸ (by decide : 0 < 3)) hcanonical hroot hsaved hip rfl .cat (fun _ ↦ hnoNul)
  have hline : commandLine ReadVerb.cat.name [lit "s", lit "a"] = lit "cat ./s/a" := by decide
  have hpath : pathText [lit "s", lit "a"] = lit "./s/a" := by decide
  rw [hline, hpath] at hall
  obtain ⟨hrun, hall⟩ := hall
  refine ⟨⟨st, threeUp filedServer, filedSaved⟩, rfl, hrun, fun tr out f hx hacc hf ↦ ?_⟩
  obtain ⟨-, reply, -, hsent, ⟨file, hfile⟩, hends⟩ := hall tr out f hx hacc hf
  exact ⟨reply, hsent, file, hfile, hends _ file hfile⟩

end NetworkFileSystem.Cluster
