import NetworkFileSystem.Naming.Reach
import NetworkFileSystem.Base.Transition

/-!
# Replies to clients

`naming_server.c:587–713,716–1136`, `client.c:400–603`. A client sends a command and
then performs one receive; only the listing of all servers is read until its end marker.
`Answerable` says for which commands and outcomes `process_client` sends exactly one
reply and waits for the next command; along a session of such commands the client reads
the replies that belong to its commands.
-/

namespace NetworkFileSystem.Naming

open Base Protocol Trie Prog TrieNode

/-! ### Sent messages -/

/-- What is sent to the client during an event. -/
def sentBy : NsEvent → Option Text
  | ⟨.sendClient msg, _⟩ => some msg
  | _ => none

/-- The messages that a handler sends to the client, in order. -/
def sent (tr : List NsEvent) : List Text := tr.filterMap sentBy

@[simp] theorem sent_nil : sent [] = [] := rfl

@[simp] theorem sent_append (tr₁ tr₂ : List NsEvent) : sent (tr₁ ++ tr₂) = sent tr₁ ++ sent tr₂ :=
  List.filterMap_append

@[simp] theorem sent_cons (e : NsEvent) (tr : List NsEvent) :
    sent (e :: tr) = (sentBy e).toList ++ sent tr := by
  cases h : sentBy e <;> simp [sent, h]

private theorem sent_eq_nil {tr : List NsEvent} (h : ∀ e ∈ tr, sentBy e = none) : sent tr = [] :=
  List.filterMap_eq_nil_iff.mpr h

theorem sent_of_pings {tr : List NsEvent} (h : Pings tr) : sent tr = [] := by
  refine sent_eq_nil (fun e he ↦ ?_)
  obtain ⟨o, r⟩ := e
  have ho := h _ he
  cases o with
  | ping i => rfl
  | _ => cases ho

theorem sent_of_replicates {receiver : Nat → Nat} {msg : Nat → Option Text} {tr : List NsEvent}
    (h : Replicates receiver msg tr) : sent tr = [] := by
  refine sent_eq_nil (fun e he ↦ ?_)
  obtain ⟨o, r⟩ := e
  obtain ho | ⟨b, m, -, rfl⟩ := h _ he
  · cases o with
    | ping i => rfl
    | _ => cases ho
  · rfl

/-! ### The listing -/

/-- The client takes everything that is sent to it. -/
def Heard (tr : List NsEvent) : Prop := ∀ msg, (⟨.sendClient msg, false⟩ : NsEvent) ∉ tr

theorem Heard.append {tr₁ tr₂ : List NsEvent} (h : Heard (tr₁ ++ tr₂)) : Heard tr₁ ∧ Heard tr₂ :=
  ⟨fun m hm ↦ h m (List.mem_append_left _ hm), fun m hm ↦ h m (List.mem_append_right _ hm)⟩

/-- A program that sends exactly the lines `lines` to a client that hears them. -/
def Draws (p : NsProg Unit) (lines : List Text) : Prop :=
  ∀ tr out, Exec p tr out → Heard tr → out = some () ∧ sent tr = lines

theorem draws_pure : Draws (pure ()) [] := by
  rintro tr out ⟨rfl, rfl⟩ -
  exact ⟨rfl, rfl⟩

theorem Draws.seq {p q : NsProg Unit} {ls ms : List Text} (hp : Draws p ls) (hq : Draws q ms) :
    Draws (do p; q) (ls ++ ms) := by
  intro tr out hx hh
  obtain ⟨h₁, rfl⟩ | ⟨_, t₁, t₂, rfl, h₁, h₂⟩ := exec_bind.mp hx
  · cases (hp _ _ h₁ hh).1
  · obtain ⟨hh₁, hh₂⟩ := hh.append
    obtain ⟨-, hs₁⟩ := hp _ _ h₁ hh₁
    obtain ⟨hout, hs₂⟩ := hq _ _ h₂ hh₂
    exact ⟨hout, by rw [sent_append, hs₁, hs₂]⟩

theorem draws_performAll {ι : Type} {f : ι → NsProg Unit} {g : ι → List Text} (xs : List ι)
    (h : ∀ x ∈ xs, Draws (f x) (g x)) : Draws (performAll (xs.map f)) (xs.flatMap g) := by
  induction xs with
  | nil => exact draws_pure
  | cons x xs ih =>
    exact (h x (by simp)).seq (ih (fun y hy ↦ h y (by simp [hy])))

/-- The bytes sent for the lines of a tree. -/
def drawn (lines : List Text) : List Text := lines.map fitLine

/-- Every line fits the buffer in which it is put together. -/
def LinesFit (lines : List Text) : Prop := ∀ l ∈ lines, l.length ≤ bufferSize

mutual

theorem draws_printTreeNetwork (columns : List Bool) (place : Option Bool) : (n : TrieNode) →
    LinesFit (treeLines columns place n) →
    Draws (printTreeNetwork columns place n) (drawn (treeLines columns place n))
  | .node childeren isLeaf data => by
    intro hfit tr out hx hh
    rw [treeLines] at hfit ⊢
    rw [printTreeNetwork, if_pos (hfit _ (by simp))] at hx
    obtain ⟨ok, rest, rfl, h₁⟩ := exec_sendClient.mp hx
    cases ok with
    | false => exact absurd List.mem_cons_self (hh _)
    | true =>
      have hsub := draws_performAll (f := fun j ↦ printSlotNetwork (columns ++ [place == some false])
          (some (isLastChild childeren j)) (childeren j))
        (g := fun j ↦ drawn (slotLines (columns ++ [place == some false])
          (some (isLastChild childeren j)) (childeren j)))
        (List.finRange maxFolders) (fun j hj ↦ draws_printSlotNetwork _ _ (childeren j)
          (fun l hl ↦ hfit l (List.mem_cons_of_mem _ (List.mem_flatMap.mpr ⟨j, hj, hl⟩))))
      obtain ⟨hout, hs⟩ := hsub _ _ h₁ (fun m hm ↦ hh m (List.mem_cons_of_mem _ hm))
      refine ⟨hout, ?_⟩
      rw [sent_cons, hs]
      simp [sentBy, drawn, List.map_flatMap]

theorem draws_printSlotNetwork (columns : List Bool) (place : Option Bool) :
    (o : Option TrieNode) → LinesFit (slotLines columns place o) →
    Draws (printSlotNetwork columns place o) (drawn (slotLines columns place o))
  | none => by
    intro _
    rw [printSlotNetwork, slotLines]
    exact draws_pure
  | some n => by
    intro hfit
    rw [slotLines] at hfit ⊢
    rw [printSlotNetwork]
    exact draws_printTreeNetwork columns place n hfit

end

/-- The lines of all servers. -/
def NsState.listing (st : NsState) : List Text :=
  st.roots.flatMap (fun root ↦ slotLines [] none (exportedFolder root).join)

/-- A listing can be drawn and told from its end marker: no entry of the table is missing,
every trie has the node at which the drawing starts, and the lines fit their buffer. -/
structure ListingSafe (st : NsState) : Prop where
  table : st.storageServerIndex ≤ st.storageServers.length
  roots : ∀ root ∈ st.roots, exportedFolder root ≠ none
  lines : LinesFit st.listing
  unmarked : ∀ l ∈ drawn st.listing, containsText listingOver l = false

/-- A listing is the lines of all servers and the end marker. -/
theorem exec_listAll {st : NsState} (hs : ListingSafe st) {tr : List NsEvent}
    {out : Option NsState} (hx : Exec (listAll st) tr out) (hh : Heard tr) :
    out = some st ∧ sent tr = drawn st.listing ++ [listingOver] := by
  unfold listAll at hx
  rw [if_pos hs.table] at hx
  have hdraw : Draws (performAll (st.roots.map (fun root ↦ do
      let folder ← Prog.ofOption (exportedFolder root)
      displayTrieNetwork folder))) (drawn st.listing) := by
    rw [NsState.listing, drawn, List.map_flatMap]
    refine draws_performAll _ (fun root hroot ↦ ?_)
    obtain ⟨folder, hfolder⟩ := Option.ne_none_iff_exists'.mp (hs.roots root hroot)
    rw [hfolder]
    refine draws_printSlotNetwork [] none folder (fun l hl ↦ hs.lines l ?_)
    exact List.mem_flatMap.mpr ⟨root, hroot, by rw [hfolder]; exact hl⟩
  obtain ⟨h₁, rfl⟩ | ⟨_, t₁, t₂, rfl, h₁, h₂⟩ := exec_bind.mp hx
  · cases (hdraw _ _ h₁ hh).1
  · obtain ⟨-, hsent⟩ := hdraw _ _ h₁ hh.append.1
    obtain ⟨ok, rest, rfl, rfl, rfl⟩ := exec_reply.mp h₂
    exact ⟨rfl, by simp [hsent, sentBy]⟩

/-! ### Answerable commands -/

/-- The tables behind the pings of a trace. -/
def NsState.afterPings (st : NsState) (tr : List NsEvent) : NsState :=
  tr.foldl (fun st e ↦ match e with
    | ⟨.ping i, r⟩ => st.afterPing i r
    | _ => st) st

/-- No send of a command whose answer is awaited fails. -/
def Unbroken (tr : List NsEvent) : Prop := ∀ i msg, (⟨.forward i msg, false⟩ : NsEvent) ∉ tr

/-- Every answer of a storage server fits the buffer with its NUL, and is not empty. -/
def Presentable (tr : List NsEvent) : Prop :=
  ∀ i bytes, (⟨.recvServer i, some bytes⟩ : NsEvent) ∈ tr →
    bytes.length < bufferSize ∧ cstr bytes ≠ []

/-- The entry commands that are answered once: refused names, and else those for which the
lookup stays within its tables, the send does not fail, the answer can be passed on and, if
the storage server was successful, the trie can be updated. -/
def EntryAnswerable (c : EntryChange) (st : NsState) (tr : List NsEvent) (updatable : Prop) :
    Prop :=
  isTopPath c.lookup = true ∨
    (¬ st.LookupOverruns c.lookup ∧ Unbroken tr ∧ Presentable tr ∧ (Confirmed tr → updatable))

/-- The reads that are answered once: the lookup stays within its tables, and if it finds a
server, that server is marked up behind the ping of the lookup, or one of the further pings
is answered, by the server itself or by one whose root has a name. -/
def ReadAnswerable (st : NsState) (path : Text) (tr : List NsEvent) : Prop :=
  ¬ st.LookupOverruns path ∧ ∀ i, st.resolve path = some i →
    (st.afterPings (tr.take 1)).isUp i = true ∨
      ∃ b, answered b ∈ tr.drop 1 ∧ (b = i ∨ st.rootName b ≠ none)

/-- The copies of two paths that are answered once. The two lookups stay within their tables;
no send to or receive from a storage server fails, and the answer can be passed on; between
two servers that are up the command fits its buffer; the new index can be read, and every
backup that answers behind it can be named in a command. -/
structure CopyAnswerable (st : NsState) (line src dest : Text) (tr : List NsEvent) : Prop where
  source : ¬ st.LookupOverruns src
  target : ¬ { st with cache := st.cacheAfter src }.LookupOverruns dest
  sends : Unbroken tr
  receives : ∀ i, (⟨.recvServer i, none⟩ : NsEvent) ∉ tr
  answers : Presentable tr
  fits : ∀ i j, st.resolve src = some i →
    { st with cache := st.cacheAfter src }.resolve dest = some j →
    ((st.afterPings (tr.take 2)).isUp i && (st.afterPings (tr.take 2)).isUp j) = true →
    copyCommand st line i j ≠ none
  index : ∀ j segments, (⟨.recvIndex j, segments⟩ : NsEvent) ∈ tr →
    ∃ root finished, indexHelper segments [] (createNode (lit ".")) = some (root, finished) ∧
      ∀ b, answered b ∈ tr.drop 7 → backupCopyCommand (st.withRoot j root) line src dest b ≠ none

/-- The commands and outcomes for which the client gets exactly one reply. Writes are answered
twice or not at all. -/
structure Answerable (st : NsState) (line : Text) (tr : List NsEvent) : Prop where
  listing : isListing line = true → ListingSafe st ∧ Heard tr
  copy : startsWith (lit "copy") line = true → ∀ verb src dest rest,
    words line = verb :: src :: dest :: rest → (isTopWord src || isTopWord dest) = false →
    CopyAnswerable st line src dest tr
  write : startsWith (lit "write") line = true → ∀ command path rest,
    words line = command :: path :: rest → isTopWord path = true
  make : ∀ command path rest, words line = command :: path :: rest →
    (command = lit "mkdir" ∨ command = lit "touch") → isTopWord path = false →
    EntryAnswerable (makeChange path) st tr ((components path).length < maxPath)
  remove : ∀ command path rest, words line = command :: path :: rest →
    (command = lit "rmdir" ∨ command = lit "rm") → isTopWord path = false →
    EntryAnswerable (removeChange path) st tr
      ((components path).length < maxPath ∧ components path ≠ [])
  read : isListing line = false → startsWith (lit "copy") line = false →
    ∀ command path rest, words line = command :: path :: rest →
    ¬ (command = lit "mkdir" ∨ command = lit "touch") →
    ¬ (command = lit "rmdir" ∨ command = lit "rm") → isTopWord path = false →
    ReadAnswerable st path tr

/-- One reply was sent, and the next command is waited for. -/
structure OneReply (st : NsState) (line : Text) (tr : List NsEvent) (out : Option NsState) :
    Prop where
  waits : out ≠ none
  listing : isListing line = true → sent tr = drawn st.listing ++ [listingOver]
  other : isListing line = false → ∃ msg, msg ≠ [] ∧ sent tr = [msg]

/-- A handler that comes back after one message. -/
def RepliesOnce (tr : List NsEvent) (out : Option NsState) : Prop :=
  out ≠ none ∧ ∃ msg, msg ≠ [] ∧ sent tr = [msg]

theorem repliesOnce_of_pings {t : List NsEvent} (h : Pings t) {msg : Text} (hmsg : msg ≠ [])
    (ok : Bool) (st : NsState) : RepliesOnce (t ++ [⟨.sendClient msg, ok⟩]) (some st) :=
  ⟨by simp, msg, hmsg, by simp [sent_of_pings h, sentBy]⟩

theorem clip_ne_nil {s : Text} (h : s ≠ []) : clip bufferSize s ≠ [] := by
  cases s with
  | nil => exact absurd rfl h
  | cons b s => simp [clip, bufferSize]

/-! ### Lookups -/

theorem lookup_of_not_overruns {st : NsState} {path : Text} (ho : ¬ st.LookupOverruns path)
    {tr : List NsEvent} {out : Option (Option Nat × NsState)}
    (hx : Exec (searchStorageServer st path) tr out) : out ≠ none := by
  obtain ⟨h, -⟩ | ⟨-, -, -, -, rfl⟩ | ⟨_, _, -, -, -, rfl⟩ := exec_searchStorageServer hx
  · exact absurd h ho
  · simp
  · simp

/-- Lookups that find a server ping once and mark servers as that ping tells. -/
theorem lookup_pings {st st₁ s : NsState} {path : Text} {t : List NsEvent} {i : Nat}
    (hx : Exec (searchStorageServer st path) t (some (some i, st₁)))
    (hs : s.storageServers = st.storageServers) :
    t.length = 1 ∧ st₁.storageServers = (s.afterPings t).storageServers := by
  obtain ⟨-, -, hout⟩ | ⟨-, -, -, -, hout⟩ | ⟨j, r, -, -, rfl, hout⟩ := exec_searchStorageServer hx
  · cases hout
  · cases hout
  · obtain ⟨-, rfl⟩ := Prod.mk.inj (Option.some.inj hout)
    refine ⟨rfl, ?_⟩
    cases r with
    | noSocket => exact hs.symm
    | down => simp [NsState.afterPings, NsState.afterPing, NsState.modifyServer, hs]
    | up => simp [NsState.afterPings, NsState.afterPing, NsState.modifyServer, hs]

theorem isUp_of_storageServers {st st' : NsState} (h : st'.storageServers = st.storageServers)
    (i : Nat) : st'.isUp i = st.isUp i := by
  unfold NsState.isUp
  rw [h]

theorem overruns_of_frozen (st : NsState) {st' : NsState} (hf : st'.frozen = st.frozen)
    (hc : st'.cache = st.cache) {path : Text} (h : st'.LookupOverruns path) :
    st.LookupOverruns path := by
  unfold NsState.LookupOverruns at h ⊢
  rw [hc, roots_of_frozen hf, length_of_frozen hf, storageServerIndex_of_frozen hf] at h
  exact h

theorem resolve_of_frozen (st : NsState) {st' : NsState} (hf : st'.frozen = st.frozen)
    (hc : st'.cache = st.cache) (path : Text) : st'.resolve path = st.resolve path := by
  unfold NsState.resolve
  rw [hc, roots_of_frozen hf]

/-! ### One command -/

/-- A trie update of a registered server is defined if the operation is. -/
private theorem updateRoot_ne_none {st : NsState} {i : Nat} {f : TrieNode → Option TrieNode}
    (hd : st.DistinctRoots) (hi : i < st.roots.length)
    (hf : ∀ n, n.Distinct → f n ≠ none) : st.updateRoot i f ≠ none := by
  have hlt : i < st.storageServers.length := by simpa [NsState.roots] using hi
  have hroot : st.roots[i]? = some st.storageServers[i].root := by simp [NsState.roots, hlt]
  obtain ⟨m, hm⟩ := Option.ne_none_iff_exists'.mp (hf _ (hd i _ hroot))
  simp [NsState.updateRoot, hlt, hm]

private theorem EntryAnswerable.proper {c : EntryChange} {st : NsState} {tr : List NsEvent}
    {updatable : Prop} (h : EntryAnswerable c st tr updatable)
    (htop : isTopPath c.lookup = false) :
    ¬ st.LookupOverruns c.lookup ∧ Unbroken tr ∧ Presentable tr ∧ (Confirmed tr → updatable) := by
  obtain htop' | h := h
  · rw [htop] at htop'
    cases htop'
  · exact h

private theorem EntryRun.repliesOnce {c : EntryChange} {st : NsState}
    {line command path : Text} {tr : List NsEvent} {out : Option NsState} {updatable : Prop}
    (hd : st.DistinctRoots) (hi : st.Indexed)
    (hop : updatable → ∀ n, n.Distinct → c.trieOp n ≠ none)
    (hsafe : EntryAnswerable c st tr updatable) (h : EntryRun c st line command path tr out) :
    RepliesOnce tr out := by
  cases h with
  | invalid _ => exact ⟨by simp, invalidPath, by decide, rfl⟩
  | overruns htop ho => exact absurd ho (hsafe.proper htop).1
  | unknown _ hl => exact repliesOnce_of_pings (exec_lookup hl).1 (by decide) _ _
  | down _ hl _ => exact repliesOnce_of_pings (exec_lookup hl).1 (by decide) _ _
  | @unsent _ i _ htop hl => exact absurd (by simp) ((hsafe.proper htop).2.1 i line)
  | unanswered _ hl =>
    exact ⟨by simp, notResponding, by decide, by simp [sent_of_pings (exec_lookup hl).1, sentBy]⟩
  | @overlong _ i _ bytes htop hl hlen =>
    exact absurd ((hsafe.proper htop).2.2.1 i bytes (by simp)).1 (Nat.not_lt.mpr hlen)
  | @refused _ i _ bytes _ htop hl _ _ =>
    exact ⟨by simp, cstr bytes, ((hsafe.proper htop).2.2.1 i bytes (by simp)).2,
      by simp [sent_of_pings (exec_lookup hl).1, sentBy]⟩
  | @carriedOut _ _ i _ _ bytes _ htop hl _ hcould hr =>
    obtain ⟨-, -, hans, hupd⟩ := hsafe.proper htop
    obtain ⟨hp, hk, hf, -⟩ := exec_lookup hl
    obtain ⟨hrep, st₃, hst₃, hf₃, -⟩ := exec_replicateCommand hr
    cases hst₃
    have hroots := (roots_of_frozen hf₃).trans (roots_of_frozen hf)
    refine ⟨?_, cstr bytes, (hans i bytes (by simp)).2, ?_⟩
    · refine updateRoot_ne_none (fun j n hj ↦ hd j n (hroots ▸ hj)) ?_
        (hop (hupd ⟨i, bytes, by simp, hcould⟩))
      rw [hroots]
      exact hi.resolve hk.symm
    · simp [sent_of_pings hp, sent_of_replicates hrep, sentBy]

/-- A server that the lookup found and left marked down has not answered the lookup's ping, so
the condition is about the pings behind it. -/
private theorem ReadAnswerable.replica {st st₁ : NsState} {path : Text} {t t₂ : List NsEvent}
    {i : Nat} (h : ReadAnswerable st path (t ++ t₂))
    (hl : Exec (searchStorageServer st path) t (some (some i, st₁))) (hdown : st₁.isUp i = false) :
    ∃ b, answered b ∈ t₂ ∧ (b = i ∨ st.rootName b ≠ none) := by
  obtain ⟨hone, hup⟩ := lookup_pings hl (s := st) rfl
  obtain hyes | hb := h.2 i (exec_lookup hl).2.1.symm
  · rw [List.take_left' hone, ← isUp_of_storageServers hup, hdown] at hyes
    cases hyes
  · rwa [List.drop_left' hone] at hb

private theorem LocateRun.repliesOnce {st : NsState} {path : Text} {tr : List NsEvent}
    {out : Option NsState} (hsafe : ReadAnswerable st path tr) (h : LocateRun st path tr out) :
    RepliesOnce tr out := by
  cases h with
  | overruns ho => exact absurd ho hsafe.1
  | unknown hl => exact repliesOnce_of_pings (exec_lookup hl).1 (by decide) _ _
  | found hl _ =>
    exact repliesOnce_of_pings (exec_lookup hl).1 (clip_ne_nil (by simp [lit])) _ _
  | backAgain hl _ hr =>
    obtain ⟨hp, -⟩ := exec_redundantSs hr
    exact repliesOnce_of_pings (Pings.append (exec_lookup hl).1 hp) (clip_ne_nil (by simp [lit])) _ _
  | replica hl _ hr _ _ =>
    obtain ⟨hp, -⟩ := exec_redundantSs hr
    exact repliesOnce_of_pings (Pings.append (exec_lookup hl).1 hp) (clip_ne_nil (by simp [lit])) _ _
  | rootless hl hdown hr hb hn =>
    obtain ⟨-, _, _, hout, hf, -, hans⟩ := exec_redundantSs hr
    cases hout
    obtain ⟨b', hb', hgood⟩ := hsafe.replica hl hdown
    cases (hans b').mp hb'
    rw [rootName_of_frozen (hf.trans (exec_lookup hl).2.2.1)] at hn
    exact absurd hgood (by simp [hb, hn])
  | lost hl hdown hr =>
    obtain ⟨-, _, _, hout, -, -, hans⟩ := exec_redundantSs hr
    cases hout
    obtain ⟨b, hb, -⟩ := hsafe.replica hl hdown
    cases (hans b).mp hb

private theorem afterPings_append (st : NsState) (t₁ t₂ : List NsEvent) :
    st.afterPings (t₁ ++ t₂) = (st.afterPings t₁).afterPings t₂ :=
  List.foldl_append

theorem copyCommand_of_frozen {st st' : NsState} (hf : st'.frozen = st.frozen)
    (line : Text) (i j : Nat) : copyCommand st' line i j = copyCommand st line i j := by
  unfold copyCommand
  rw [receiverAddress_of_frozen hf]

private theorem frozen_withRoot {st st' : NsState} (hf : st'.frozen = st.frozen) (j : Nat)
    (root : TrieNode) : (st'.withRoot j root).frozen = (st.withRoot j root).frozen := by
  have hset : ∀ s : NsState, (s.withRoot j root).frozen =
      (s.frozen.1.modify j (fun info ↦ { info with root := root }), s.frozen.2) := by
    intro s
    simp only [NsState.frozen, NsState.withRoot, NsState.modifyServer, Prod.mk.injEq, and_true]
    apply List.ext_getElem?
    intro k
    simp only [List.getElem?_map, List.getElem?_modify]
    cases s.storageServers[k]? with
    | none => rfl
    | some info => by_cases hjk : j = k <;> simp [hjk]
  rw [hset, hset, hf]

private theorem backupCopyCommand_of_frozen {st st' : NsState} (hf : st'.frozen = st.frozen)
    (line src dest : Text) (b : Nat) :
    backupCopyCommand st' line src dest b = backupCopyCommand st line src dest b := by
  unfold backupCopyCommand
  rw [rootName_of_frozen hf, receiverAddress_of_frozen hf]

/-- Copies to backups that can all be named come back and send nothing to the client. -/
private theorem replicated_quietly {st : NsState} {receiver : Nat → Nat}
    {msg : Nat → Option Text} {b₁ b₂ : Option Nat} {t : List NsEvent} {out : Option NsState}
    (hmsg : ∀ b, answered b ∈ t → msg b ≠ none)
    (h : Exec (do
      let st₁ ← replicateTo st receiver msg b₁
      replicateTo st₁ receiver msg b₂) t out) :
    out ≠ none ∧ sent t = [] := by
  obtain ⟨h₁, rfl⟩ | ⟨st₁, t₁, t₂, rfl, h₁, h₂⟩ := exec_bind.mp h
  · obtain ⟨-, ⟨b, -, rfl, hm, -⟩ | ⟨_, hout, -⟩⟩ := exec_replicateTo h₁
    · exact absurd hm (hmsg b (by simp [answered]))
    · cases hout
  · obtain ⟨hr₁, -⟩ := exec_replicateTo h₁
    obtain ⟨hr₂, ⟨b, -, rfl, hm, -⟩ | ⟨_, rfl, -⟩⟩ := exec_replicateTo h₂
    · exact absurd hm (hmsg b (by simp [answered]))
    · exact ⟨by simp, by rw [sent_append, sent_of_replicates hr₁, sent_of_replicates hr₂]; rfl⟩

private theorem CopyRun.repliesOnce {st : NsState} {line : Text} {tr : List NsEvent}
    {out : Option NsState}
    (hsafe : ∀ verb src dest rest, words line = verb :: src :: dest :: rest →
      (isTopWord src || isTopWord dest) = false → CopyAnswerable st line src dest tr)
    (h : CopyRun st line tr out) : RepliesOnce tr out := by
  cases h with
  | incomplete _ => exact ⟨by simp, _, by decide, rfl⟩
  | invalid _ _ => exact ⟨by simp, _, by decide, rfl⟩
  | overrunsSrc hw htop ho => exact absurd ho (hsafe _ _ _ _ hw htop).source
  | @overrunsDest _ src _ _ _ _ _ hw htop hs ho =>
    obtain ⟨-, -, hf, hc⟩ := exec_lookup hs
    exact absurd (overruns_of_frozen { st with cache := st.cacheAfter src } hf hc ho)
      (hsafe _ _ _ _ hw htop).target
  | unknown _ _ hs hd _ =>
    exact repliesOnce_of_pings (Pings.append (exec_lookup hs).1 (exec_lookup hd).1) (by decide) _ _
  | @performed _ src dest _ t₁ t₂ t₃ i j st₁ st₂ _ hw htop hs hd hup hp =>
    have hc := hsafe _ _ _ _ hw htop
    obtain ⟨hp₁, hi, hf₁, hc₁⟩ := exec_lookup hs
    obtain ⟨hp₂, hj, hf₂, hc₂⟩ := exec_lookup hd
    obtain ⟨hone₁, hs₁⟩ := lookup_pings hs (s := st) rfl
    obtain ⟨hone₂, hs₂⟩ := lookup_pings hd hs₁.symm
    have htwo : (t₁ ++ t₂).length = 2 := by simp [hone₁, hone₂]
    have hsent : sent (t₁ ++ t₂) = [] := sent_of_pings (hp₁.append hp₂)
    cases hp with
    | overlong hmsg =>
      have hdest := resolve_of_frozen { st with cache := st.cacheAfter src } hf₁ hc₁ dest
      have hfits := hc.fits i j hi.symm (hdest.symm.trans hj.symm)
      rw [List.take_left' htwo, afterPings_append, ← isUp_of_storageServers hs₂,
        ← isUp_of_storageServers hs₂, ← copyCommand_of_frozen (hf₂.trans hf₁)] at hfits
      exact absurd hmsg (hfits hup)
    | @unsent msg _ => exact absurd (by simp) (hc.sends i msg)
    | unanswered _ => exact absurd (by simp) (hc.receives i)
    | @unterminated _ bytes _ hlen =>
      exact absurd (hc.answers i bytes (by simp)).1 (Nat.not_lt.mpr hlen)
    | @clientGone _ bytes _ _ =>
      refine ⟨by simp, cstr bytes, (hc.answers i bytes (by simp)).2, ?_⟩
      rw [sent_append, hsent]
      rfl
    | @badIndex _ _ _ segments _ _ hindex =>
      obtain ⟨_, _, hsome, -⟩ := hc.index j segments (by simp)
      rw [hindex] at hsome
      cases hsome
    | @reindexed _ bytes _ _ segments root t _ _ _ hindex hr =>
      obtain ⟨_, _, hsome, hnames⟩ := hc.index j segments (by simp)
      cases hindex.symm.trans hsome
      obtain ⟨hout, hquiet⟩ := replicated_quietly (fun b hb ↦ by
        rw [backupCopyCommand_of_frozen (frozen_withRoot (hf₂.trans hf₁) j root)]
        refine hnames b ?_
        rw [← List.append_assoc, List.drop_left' (by simp [hone₁, hone₂])]
        exact hb) hr
      refine ⟨hout, cstr bytes, (hc.answers i bytes (by simp)).2, ?_⟩
      rw [sent_append, hsent, sent_append, hquiet]
      rfl

/-- An answerable command gets exactly one reply. -/
theorem ClientRun.oneReply {st : NsState} {line : Text} {tr : List NsEvent}
    {out : Option NsState} (hk : st.DistinctRoots ∧ st.Indexed) (hsafe : Answerable st line tr)
    (h : ClientRun st line tr out) : OneReply st line tr out := by
  have hother : ∀ {tr : List NsEvent} {out : Option NsState}, isListing line = false →
      RepliesOnce tr out → OneReply st line tr out := by
    intro tr out hls h
    exact ⟨h.1, fun hyes ↦ absurd (hls.symm.trans hyes) (by decide), fun _ ↦ h.2⟩
  cases h with
  | listing hls hx =>
    obtain ⟨hlist, hheard⟩ := hsafe.listing hls
    obtain ⟨rfl, hsent⟩ := exec_listAll hlist hx hheard
    exact ⟨by simp, fun _ ↦ hsent, fun hno ↦ absurd (hls.symm.trans hno) (by decide)⟩
  | copy hls hcopy hr => exact hother hls (hr.repliesOnce (hsafe.copy hcopy))
  | pathless hls _ _ => exact hother hls ⟨by simp, notFound, by decide, rfl⟩
  | writeStops _ _ hw htop hwrite _ =>
    rw [hsafe.write hwrite _ _ _ hw] at htop
    cases htop
  | write _ _ hw htop hwrite _ _ =>
    rw [hsafe.write hwrite _ _ _ hw] at htop
    cases htop
  | make hls _ hw htop _ hc hr =>
    refine hother hls (hr.repliesOnce hk.1 hk.2 (fun hlen n hn ↦ ?_)
      (hsafe.make _ _ _ hw hc htop))
    obtain ⟨m, hm, -⟩ := TrieOp.run_refines (o := .add _) hlen hn
    exact Option.ne_none_iff_exists'.mpr ⟨m, hm⟩
  | remove hls _ hw htop _ hc hr =>
    refine hother hls (hr.repliesOnce hk.1 hk.2 (fun hlen n hn ↦ ?_)
      (hsafe.remove _ _ _ hw hc htop))
    obtain ⟨m, hm, -⟩ := TrieOp.run_refines (o := .delete _) hlen hn
    exact Option.ne_none_iff_exists'.mpr ⟨m, hm⟩
  | read hls hcopy hw htop _ hmake hremove hr =>
    exact hother hls (hr.repliesOnce (hsafe.read hls hcopy _ _ _ hw hmake hremove htop))

/-! ### Sessions -/

/-- What a client takes as the reply to `line` from the messages that have arrived, and what it
leaves, `client.c:405–603`: the messages up to one with the end marker for a listing, one
message otherwise. -/
def takeReply (line : Text) (arrived : List Text) : Option (List Text × List Text) :=
  if isListing line then
    let shown := arrived.takeWhile (fun m ↦ !containsText listingOver m)
    match arrived.drop shown.length with
    | [] => none
    | last :: rest => some (shown ++ [last], rest)
  else match arrived with
    | [] => none
    | msg :: rest => some ([msg], rest)

/-- A client of the naming server: the tables, and the messages that have been sent to the
client and that it has not read. -/
structure Session where
  tables : NsState
  unread : List Text

/-- The client sends a command that `ok` admits and takes a reply; or the naming server does
something else. -/
inductive Session.Step (ok : NsState → Text → List NsEvent → Prop) : Session → Session → Prop where
  | other {s : Session} {st' : NsState} : NsStep s.tables st' → Step ok s ⟨st', s.unread⟩
  | command {s : Session} {st' : NsState} {line : Text} {tr : List NsEvent}
      {reply rest : List Text} :
      ok s.tables line tr → Exec (processClient s.tables line) tr (some st') →
      takeReply line (s.unread ++ sent tr) = some (reply, rest) → Step ok s ⟨st', rest⟩

/-- The sessions before any registration. -/
def Session.initial : Session := ⟨.initial, []⟩

/-- The client takes a single reply as a whole. -/
theorem OneReply.taken {st : NsState} {line : Text} {tr : List NsEvent} {out : Option NsState}
    (hsafe : Answerable st line tr) (h : OneReply st line tr out) :
    takeReply line (sent tr) = some (sent tr, []) := by
  unfold takeReply
  cases hls : isListing line with
  | false =>
    obtain ⟨msg, -, hsent⟩ := h.other hls
    simp [hsent]
  | true =>
    have hnot : ∀ m ∈ drawn st.listing, (!containsText listingOver m) = true := by
      intro m hm
      simp [(hsafe.listing hls).1.unmarked m hm]
    have hover : containsText listingOver listingOver = true := by decide
    have hshown : (sent tr).takeWhile (fun m ↦ !containsText listingOver m) = drawn st.listing := by
      rw [h.listing hls, List.takeWhile_append_of_pos hnot,
        List.takeWhile_cons_of_neg (by simp [hover]), List.append_nil]
    simp only [if_true, hshown]
    rw [h.listing hls, List.drop_left' rfl]

private theorem unread_of_reachable {s : Session}
    (h : Reachable (fun s ↦ s = Session.initial) (Session.Step Answerable) s) :
    (s.tables.DistinctRoots ∧ s.tables.Indexed) ∧ s.unread = [] := by
  refine h.invariant (I := fun s ↦ (s.tables.DistinctRoots ∧ s.tables.Indexed) ∧ s.unread = []) ?_ ?_
  · rintro s rfl
    exact ⟨NsState.initial_keeps, rfl⟩
  · rintro s t ⟨hk, hun⟩ hst
    cases hst with
    | other hx => exact ⟨hx.keeps hk, hun⟩
    | command hsafe hx htake =>
      have hone := (exec_processClient hx).oneReply hk hsafe
      refine ⟨(NsStep.command hx).keeps hk, ?_⟩
      rw [hun, List.nil_append, hone.taken hsafe] at htake
      exact (Prod.mk.inj (Option.some.inj htake)).2.symm

/-- In every session of answerable commands, among whatever registrations, notifications and
commands of others, a further answerable command gets exactly one reply, and what the client
then takes is that reply. -/
theorem one_reply_per_command {s : Session}
    (h : Reachable (fun s ↦ s = Session.initial) (Session.Step Answerable) s) {line : Text}
    {tr : List NsEvent} {out : Option NsState} (hsafe : Answerable s.tables line tr)
    (hx : Exec (processClient s.tables line) tr out) :
    OneReply s.tables line tr out ∧
      takeReply line (s.unread ++ sent tr) = some (sent tr, []) := by
  obtain ⟨hk, hun⟩ := unread_of_reachable h
  have hone := (exec_processClient hx).oneReply hk hsafe
  refine ⟨hone, ?_⟩
  rw [hun, List.nil_append]
  exact hone.taken hsafe

private theorem sample_session (ok : NsState → Text → List NsEvent → Prop) {st : NsState}
    (h : sampleRegistration.replay [] = some (some st)) :
    Reachable (fun s ↦ s = Session.initial) (Session.Step ok) ⟨st, []⟩ :=
  .next (.start rfl) (.other (.register (exec_of_replay h)))

/-- After a server exporting `./s` has registered, a client creates `./s/a` and gets one reply. -/
theorem one_reply_to_mkdir :
    ∃ s : Session, Reachable (fun s ↦ s = Session.initial) (Session.Step Answerable) s ∧
      ∃ tr out, Exec (processClient s.tables (lit "mkdir ./s/a")) tr out ∧
        OneReply s.tables (lit "mkdir ./s/a") tr out ∧
        takeReply (lit "mkdir ./s/a") (s.unread ++ sent tr) = some (sent tr, []) := by
  let tr : List NsEvent := [⟨.ping 0, PingResult.up⟩, ⟨.forward 0 (lit "mkdir ./s/a"), true⟩,
    ⟨.recvServer 0, some (lit "Created folder @ ./s/a\n")⟩,
    ⟨.sendClient (lit "Created folder @ ./s/a\n"), true⟩]
  have hrun : ((sampleRegistration.replay []).join.bind (fun st ↦
      ((processClient st (lit "mkdir ./s/a")).replay tr).map
        (fun _ ↦ searchInTries st.roots (lit "./s")))) = some (some (some 0)) := by
    decide +kernel
  obtain ⟨st, hst, hrest⟩ := Option.bind_eq_some_iff.mp hrun
  obtain ⟨out, hout, hfound⟩ := Option.map_eq_some_iff.mp hrest
  have hreach := sample_session Answerable (Option.join_eq_some_iff.mp hst)
  have hw : words (lit "mkdir ./s/a") = [lit "mkdir", lit "./s/a"] := by decide
  have hsafe : Answerable st (lit "mkdir ./s/a") tr := by
    constructor
    · exact fun h ↦ absurd h (by decide)
    · exact fun h ↦ absurd h (by decide)
    · exact fun h ↦ absurd h (by decide)
    · intro command path rest hwords _ _
      rw [hw, List.cons.injEq, List.cons.injEq] at hwords
      obtain ⟨-, rfl, -⟩ := hwords
      have hparent : beforeLast slash (lit "./s/a") = lit "./s" := by decide
      refine .inr ⟨?_, ?_, ?_, fun _ ↦ by decide⟩
      · rintro ⟨-, h⟩
        simp only [makeChange, hparent, hfound] at h
        simp at h
      · intro i msg hm
        simp [tr] at hm
      · intro i bytes hm
        simp only [tr, List.mem_cons, Sigma.mk.injEq, reduceCtorEq, false_and,
          NsOp.recvServer.injEq, List.not_mem_nil, or_false, false_or] at hm
        obtain ⟨rfl, hm⟩ := hm
        rw [heq_eq_eq, Option.some.injEq] at hm
        subst hm
        decide
    · intro command path rest hwords hc
      rw [hw, List.cons.injEq] at hwords
      obtain ⟨rfl, -⟩ := hwords
      exact absurd hc (by decide)
    · intro _ _ command path rest hwords hc
      rw [hw, List.cons.injEq] at hwords
      obtain ⟨rfl, -⟩ := hwords
      exact absurd (.inl rfl) hc
  exact ⟨⟨st, []⟩, hreach, tr, out, exec_of_replay hout,
    one_reply_per_command hreach hsafe (exec_of_replay hout)⟩

/-- A client's `write -s ./s` gets two replies: the one for the write, and one for a lookup of
`-s` as a path. -/
theorem write_is_answered_twice :
    ¬ ∀ s, Reachable (fun s ↦ s = Session.initial) (Session.Step (fun _ _ _ ↦ True)) s →
      ∀ line tr out, 2 ≤ (words line).length → Exec (processClient s.tables line) tr out →
      OneReply s.tables line tr out := by
  intro hall
  let tr : List NsEvent := [⟨.ping 0, PingResult.up⟩,
    ⟨.sendClient (lit "PATH_OK_SYNC|10.0.0.1|4000" ++ [0]), true⟩,
    ⟨.sendClient (lit "Storage server not found"), true⟩]
  have hrun : ((sampleRegistration.replay []).join.bind (fun st ↦
      ((processClient st (lit "write -s ./s")).replay tr).map (fun _ ↦ ()))) = some () := by
    decide +kernel
  obtain ⟨st, hst, hrest⟩ := Option.bind_eq_some_iff.mp hrun
  obtain ⟨out, hout, -⟩ := Option.map_eq_some_iff.mp hrest
  have hreach := sample_session (fun _ _ _ ↦ True) (Option.join_eq_some_iff.mp hst)
  obtain ⟨msg, -, hsent⟩ := (hall _ hreach _ tr out (by decide) (exec_of_replay hout)).other (by decide)
  cases hsent

end NetworkFileSystem.Naming
