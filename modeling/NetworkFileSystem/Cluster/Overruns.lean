import NetworkFileSystem.Client.Requests
import NetworkFileSystem.Cluster.CopyOrders
import NetworkFileSystem.Naming.Arrays

/-!
# Arrays along a request

`helper.c:71–79`, `naming_server.c:636–655,716–733`, `storage_server.c:255–311,355–370`,
`tries.c:115–139`. A client's line goes to the naming server, which may forward it to a storage
server; reads and writes go to a storage server directly. Each program puts what it gets into
arrays of its own.
-/

namespace NetworkFileSystem.Cluster

open Base Protocol Storage Naming Trie Transfer Prog

/-! ### The storage server -/

/-- `parse_command`, `helper.c:71–79`. -/
def parseCommand {n : Nat} (args : Slots n Text) (command : Text) : Option (Slots n Text) :=
  (Slots.fill args 0 (words command)).map Prod.fst

/-- `recv_good(sock, buffer, BUFFER_SIZE)`: what is in the buffer, and the number that is
returned; `none` is a failure. -/
def recvGood (buffer : CharArray bufferSize) : Option Text → CharArray bufferSize × Int
  | none => (buffer, -1)
  | some bytes => (buffer.store 0 bytes, bytes.length)

/-- `listen_to_nm` up to its tests, `storage_server.c:357–370`. -/
def listenToNmArgs (args : Slots maxArgs Text) (r : Option Text) : Option (Slots maxArgs Text) := do
  let (buffer, bytesReceived) := recvGood (CharArray.zeros bufferSize) r
  -- `exit(0)`
  if bytesReceived ≤ 0 then some args
  else
    let buffer ← buffer.poke bytesReceived 0
    parseCommand args buffer.text

/-- `char *args[2]`. -/
def maxClientArgs : Nat := 2

/-- `process_client` up to its tests, `storage_server.c:258–311`. A failed receive is only
reported; `freed` is the string in `tempBuffer` when it is parsed again, behind `free`. -/
def processClientArgs (buffer : CharArray bufferSize) (args : Slots maxClientArgs Text)
    (r : Option Text) (freed : Text) : Option (Slots maxClientArgs Text) := do
  let (buffer, bytesReceived) := recvGood buffer r
  let buffer ← buffer.poke bytesReceived 0
  if startsWith (lit "WRITE_SYNC|") buffer.text then some args
  else
    let args ← parseCommand args buffer.text
    parseCommand args freed

theorem isSome_parseCommand {n : Nat} {args : Slots n Text} {command : Text} :
    (parseCommand args command).isSome ↔ (words command).length ≤ n := by
  rw [parseCommand, Option.isSome_map, Slots.isSome_fill (Nat.zero_le n), Nat.zero_add]

/-- A command fits if there is room for the NUL behind it and for its words. -/
theorem isSome_listenToNmArgs {args : Slots maxArgs Text} {bytes : Text} (hne : bytes ≠ [])
    (h0 : 0 ∉ bytes) : (listenToNmArgs args (some bytes)).isSome ↔
      bytes.length < bufferSize ∧ (words bytes).length ≤ maxArgs := by
  have hlisten : listenToNmArgs args (some bytes) =
      (((CharArray.zeros bufferSize).store 0 bytes).poke bytes.length 0).bind
        (fun buffer ↦ parseCommand args buffer.text) := by
    simp [listenToNmArgs, recvGood, hne]
  have hpoke : (((CharArray.zeros bufferSize).store 0 bytes).poke bytes.length 0).isSome ↔
      0 ≤ (bytes.length : Int) ∧ (bytes.length : Int) < bufferSize := CharArray.isSome_poke
  rw [hlisten]
  cases hb : ((CharArray.zeros bufferSize).store 0 bytes).poke bytes.length 0 with
  | none =>
    rw [hb] at hpoke
    simp at hpoke ⊢
    omega
  | some buffer =>
    rw [hb] at hpoke
    simp at hpoke
    rw [Option.bind_some, CharArray.text_poke hb, cstr_eq_self h0, isSome_parseCommand]
    simp [hpoke]

/-- A message fits if there is room for the NUL behind it and, unless it is a synchronous write,
for its words and for those that are left of it. -/
theorem isSome_processClientArgs {buffer : CharArray bufferSize} {args : Slots maxClientArgs Text}
    {bytes freed : Text} (h0 : 0 ∉ bytes) :
    (processClientArgs buffer args (some bytes) freed).isSome ↔
      bytes.length < bufferSize ∧ (startsWith (lit "WRITE_SYNC|") bytes = true ∨
        (words bytes).length ≤ maxClientArgs ∧ (words freed).length ≤ maxClientArgs) := by
  have hpoke : ((buffer.store 0 bytes).poke bytes.length 0).isSome ↔
      0 ≤ (bytes.length : Int) ∧ (bytes.length : Int) < bufferSize := CharArray.isSome_poke
  simp only [processClientArgs, recvGood]
  cases hb : (buffer.store 0 bytes).poke bytes.length 0 with
  | none =>
    rw [hb] at hpoke
    simp at hpoke ⊢
    omega
  | some c =>
    rw [hb] at hpoke
    simp at hpoke
    simp only [Option.bind_eq_bind, Option.bind_some, CharArray.text_poke hb, cstr_eq_self h0]
    split
    · next hsync => simp [hpoke, hsync]
    · next hsync =>
      have hfirst : (parseCommand args bytes).isSome ↔ (words bytes).length ≤ maxClientArgs :=
        isSome_parseCommand
      cases hargs : parseCommand args bytes with
      | none =>
        rw [hargs] at hfirst
        simp at hfirst
        simp [hsync]
        omega
      | some args' =>
        rw [hargs] at hfirst
        rw [Option.bind_some, isSome_parseCommand]
        simp [hpoke, hsync, hfirst.mp rfl]

/-! ### Requests -/

/-- What a client sends to a storage server itself, `client.c:380–601`: a write with its data, or
the line of a command that is no listing, entry command, copy or write. -/
inductive SentDirectly (line : Text) : Text → Prop where
  | read {reply ip port msg : Text} : isListing line = false →
      (∀ verb ∈ [lit "mkdir", lit "rmdir", lit "touch", lit "rm", lit "copy", lit "write"],
        startsWith verb line = false) →
      Client.readRequest line reply = some (ip, port, msg) → SentDirectly line msg
  | write {reply path ip port data msg : Text} : startsWith (lit "write") line = true →
      (words line)[2]? = some path → Client.writeMessage reply path ip port data = some msg →
      SentDirectly line msg

/-- A client's command line on its way through the servers. -/
structure Request where
  tables : NsState
  /-- The descriptor of the client's connection. -/
  socket : Nat
  line : Text
  /-- What the client sends to a storage server itself. -/
  direct : Option Text
  /-- The result of the `recv_good` of a storage server for a message: `none` is a failure, the
  empty text a closed connection. -/
  arrives : Text → Option Text
  /-- What the memory holds that a storage server has given back and parses again. -/
  freed : Text
  addressed : Addressed tables
  string : 0 ∉ line
  short : line.length < bufferSize
  sent : ∀ msg ∈ direct, SentDirectly line msg
  received : ∀ msg, arrives msg = none ∨ arrives msg = some [] ∨
    arrives msg = some (msg.take bufferSize)

/-- Every array that the request reaches in a run is filled inside its bounds. -/
structure Request.Inside (q : Request) (tr : List UseEvent) : Prop where
  used : ∀ u ∈ Noted.notes tr, u.Inside
  forwarded : ∀ i msg ok, (⟨.forward i msg, ok⟩ : NsEvent) ∈ Noted.plain tr →
    ∀ args, (listenToNmArgs args (q.arrives msg)).isSome
  direct : ∀ msg ∈ q.direct, ∀ buffer args,
    (processClientArgs buffer args (q.arrives msg) q.freed).isSome

/-- The words that the address of another server adds to a copy. -/
def addedWords (st : NsState) (line : Text) : Nat :=
  match words line with
  | _ :: src :: dest :: _ =>
    if startsWith (lit "copy") line ∧ (copyServers st src dest).any (fun (i, j) ↦ i ≠ j) then 2
    else 0
  | _ => 0

/-- There is room for the line and for what the run makes of it: for each text of the log, each
parsed path, the copy command and the answer of the storage server in the arrays of the naming
server, and for the words of the forwarded line and of the direct message in those of a storage
server. -/
structure Request.Roomy (q : Request) (tr : List UseEvent) : Prop where
  log : q.line.length + (decimal q.socket).length + 31 < bufferSize
  used : ∀ u ∈ Noted.notes tr, u.Fits
  forwarded : (∃ i msg ok, (⟨.forward i msg, ok⟩ : NsEvent) ∈ Noted.plain tr ∧
    q.arrives msg = some msg) → (words q.line).length + addedWords q.tables q.line ≤ maxArgs
  direct : ∀ msg ∈ q.direct, ∃ bytes, q.arrives msg = some bytes ∧ bytes.length < bufferSize ∧
    (startsWith (lit "WRITE_SYNC|") bytes = true ∨
      (words bytes).length ≤ maxClientArgs ∧ (words q.freed).length ≤ maxClientArgs)

/-! ### What is forwarded -/

private theorem zero_notMem_of_isWord {t : Text} (h : IsWord t) : 0 ∉ t :=
  fun h0 ↦ (h 0 h0).2 rfl

/-- A forwarded command is a string of the buffer's size with the words of the line, and those
of an address. -/
private theorem forwarded_words {q : Request} {tr : List NsEvent} {out : Option NsState}
    (h : Exec (processClient q.tables q.line) tr out) {i : Nat} {msg : Text} {ok : Bool}
    (hm : (⟨.forward i msg, ok⟩ : NsEvent) ∈ tr) :
    0 ∉ msg ∧ msg ≠ [] ∧ msg.length < bufferSize ∧
      (words msg).length = (words q.line).length + addedWords q.tables q.line := by
  have hentry : ∀ command path rest, startsWith (lit "copy") q.line = false →
      words q.line = command :: path :: rest → 0 ∉ q.line ∧ q.line ≠ [] ∧
        q.line.length < bufferSize ∧
        (words q.line).length = (words q.line).length + addedWords q.tables q.line := by
    intro command path rest hcopy hw
    refine ⟨q.string, ?_, q.short, ?_⟩
    · intro hnil
      rw [hnil] at hw
      cases hw
    · have hnone : addedWords q.tables q.line = 0 := by
        unfold addedWords
        split
        · rw [if_neg]
          rw [hcopy]
          simp
        · rfl
      rw [hnone, Nat.add_zero]
  cases (exec_processClient h).forward hm with
  | make hcopy hw => exact hentry _ _ _ hcopy hw
  | remove hcopy hw => exact hentry _ _ _ hcopy hw
  | copy hcopy =>
    obtain ⟨verb, src, dest, rest, j, hw, hs, hj, hmsg⟩ := forwarded_copy hcopy h hm
    obtain ⟨-, -, -, -, -, hlen, -⟩ := copyCommand_shape hcopy hw hmsg
    have hadded : addedWords q.tables q.line = if i = j then 0 else 2 := by
      unfold addedWords
      rw [hw]
      simp only [hcopy, hs, true_and, Option.any_some]
      by_cases hij : i = j <;> simp [hij]
    have hdrop : 0 ∉ q.line.drop 4 := fun h0 ↦ q.string (List.mem_of_mem_drop h0)
    obtain ⟨⟨-, hip, -⟩, -, haddr⟩ := q.addressed.receiverAddress_eq hj
    have hzero : 0 ∉ receiverAddress q.tables j := by
      rw [haddr, List.mem_cons, List.mem_append, List.mem_cons]
      rintro (h0 | h0 | h0 | h0)
      · exact absurd h0 (by decide)
      · exact zero_notMem_of_isWord hip h0
      · exact absurd h0 (by decide)
      · exact zero_notMem_of_isWord (isWord_decimal _) h0
    have hform := copyCommand_eq_some hmsg
    refine ⟨?_, ?_, hlen, ?_⟩
    · rw [hform]
      split
      · rw [List.mem_append, not_or]
        exact ⟨by decide, hdrop⟩
      · rw [List.mem_append, List.mem_append, not_or, not_or]
        exact ⟨⟨by decide, hdrop⟩, hzero⟩
    · rw [hform]
      split <;> simp [lit]
    · rw [length_words_copyCommand q.addressed hj hcopy hw hmsg, hadded]

theorem zero_notMem_of_sentDirectly {line msg : Text} (hline : 0 ∉ line)
    (h : SentDirectly line msg) : 0 ∉ msg := by
  cases h with
  | read _ _ hr =>
    unfold Client.readRequest at hr
    split at hr
    · cases hr
    · obtain ⟨details, -, hr⟩ := Option.bind_eq_some_iff.mp hr
      split at hr
      · cases hr
        exact hline
      · cases hr
  | write _ _ hw =>
    unfold Client.writeMessage at hw
    split at hw
    · obtain ⟨header, -, hw⟩ := Option.bind_eq_some_iff.mp hw
      rw [Option.ite_none_right_eq_some, Option.some.injEq] at hw
      rw [← hw.2, cstr]
      intro h0
      have hne := List.mem_takeWhile_imp h0
      simp at hne
    · cases hw

/-! ### Bounds -/

section Bounds

variable {q : Request} {tr : List UseEvent}

/-- The arrays of the naming server. -/
private theorem used_iff {out : Option NsState}
    (h : Exec (processClientUses q.tables q.socket q.line) tr out) :
    (∀ u ∈ Noted.notes tr, u.Inside) ↔ ∀ u ∈ Noted.notes tr, u.Fits := by
  refine forall₂_congr fun u hu ↦ ArrayUse.inside_iff fun line address hrewritten ↦ ?_
  have hof : (ArrayUse.rewritten line address).OfLine q.socket q.line :=
    (notes_processClientUses h).2 _ (hrewritten ▸ hu)
  obtain ⟨rfl, hcopy⟩ := hof
  exact ⟨q.string, q.short, hcopy⟩

/-- The arrays of `listen_to_nm`. -/
private theorem forwarded_iff {out : Option NsState}
    (h : Exec (processClientUses q.tables q.socket q.line) tr out) :
    (∀ i msg ok, (⟨.forward i msg, ok⟩ : NsEvent) ∈ Noted.plain tr →
        ∀ args, (listenToNmArgs args (q.arrives msg)).isSome) ↔
      ((∃ i msg ok, (⟨.forward i msg, ok⟩ : NsEvent) ∈ Noted.plain tr ∧
        q.arrives msg = some msg) → (words q.line).length + addedWords q.tables q.line ≤ maxArgs) := by
  have hplain := Noted.exec_erase h
  rw [erase_processClientUses] at hplain
  constructor
  · rintro hall ⟨i, msg, ok, hm, harr⟩
    obtain ⟨h0, hne, -, hwords⟩ := forwarded_words hplain hm
    have hargs := hall i msg ok hm (Vector.replicate maxArgs none)
    rw [harr, isSome_listenToNmArgs hne h0, hwords] at hargs
    exact hargs.2
  · intro hfits i msg ok hm args
    obtain ⟨h0, hne, hlen, hwords⟩ := forwarded_words hplain hm
    obtain harr | harr | harr := q.received msg
    · rw [harr]
      rfl
    · rw [harr]
      rfl
    · rw [List.take_of_length_le hlen.le] at harr
      rw [harr, isSome_listenToNmArgs hne h0, hwords]
      exact ⟨hlen, hfits ⟨i, msg, ok, hm, harr⟩⟩

/-- The arrays of `process_client` of a storage server. -/
private theorem direct_iff {msg : Text} (h : msg ∈ q.direct) :
    (∀ buffer args, (processClientArgs buffer args (q.arrives msg) q.freed).isSome) ↔
      ∃ bytes, q.arrives msg = some bytes ∧ bytes.length < bufferSize ∧
        (startsWith (lit "WRITE_SYNC|") bytes = true ∨
          (words bytes).length ≤ maxClientArgs ∧ (words q.freed).length ≤ maxClientArgs) := by
  have h0 := zero_notMem_of_sentDirectly q.string (q.sent msg h)
  have harrived : ∀ bytes, q.arrives msg = some bytes → 0 ∉ bytes := by
    intro bytes hbytes
    obtain harr | harr | harr := q.received msg <;> rw [harr] at hbytes <;> cases hbytes
    · exact List.not_mem_nil
    · exact fun hmem ↦ h0 (List.mem_of_mem_take hmem)
  constructor
  · intro hall
    have hone := hall (CharArray.zeros bufferSize) (Vector.replicate maxClientArgs none)
    cases harr : q.arrives msg with
    | none =>
      rw [harr] at hone
      cases hone
    | some bytes =>
      rw [harr, isSome_processClientArgs (harrived bytes harr)] at hone
      exact ⟨bytes, rfl, hone⟩
  · rintro ⟨bytes, harr, hfits⟩ buffer args
    rw [harr, isSome_processClientArgs (harrived bytes harr)]
    exact hfits

end Bounds

/-- In every run of the naming server on a line of at most 1023 bytes the arrays that the request
reaches are filled inside their bounds if and only if the request is roomy. -/
theorem inside_iff_roomy (q : Request) {tr : List UseEvent} {out : Option NsState}
    (h : Exec (processClientUses q.tables q.socket q.line) tr out) : q.Inside tr ↔ q.Roomy tr := by
  constructor
  · intro hin
    have hused := (used_iff h).mp hin.used
    exact ⟨hused _ (notes_processClientUses h).1, hused, (forwarded_iff h).mp hin.forwarded,
      fun msg hmsg ↦ (direct_iff hmsg).mp (hin.direct msg hmsg)⟩
  · intro hr
    exact ⟨(used_iff h).mpr hr.used, (forwarded_iff h).mpr hr.forwarded,
      fun msg hmsg ↦ (direct_iff hmsg).mpr (hr.direct msg hmsg)⟩

/-- A request whose messages arrive whole. -/
private def wholeRequest (st : NsState) (haddr : Addressed st) (line : Text) (h0 : 0 ∉ line)
    (hshort : line.length < bufferSize) : Request where
  tables := st
  socket := 5
  line := line
  direct := none
  arrives := fun msg ↦ some (msg.take bufferSize)
  freed := []
  addressed := haddr
  string := h0
  short := hshort
  sent := by simp
  received := fun _ ↦ .inr (.inr rfl)

/-- The events of a command for the first server that stays without an answer. -/
private def forwardedOnly (line : Text) : List NsEvent :=
  [⟨.ping 0, PingResult.up⟩, ⟨.forward 0 line, true⟩, ⟨.recvServer 0, none⟩,
    ⟨.sendClient notResponding, true⟩]

/-- A removal at the first server, with all that is put into arrays. -/
private def removal : List UseEvent :=
  [⟨.note (.logged .fromClient (lit "rm ./s/a") 5), ()⟩, ⟨.note (.parsed (lit "./s/a")), ()⟩,
    ⟨.op (.ping 0), PingResult.up⟩, ⟨.op (.forward 0 (lit "rm ./s/a")), true⟩,
    ⟨.note (.logged .toServer (lit "rm ./s/a") 4), ()⟩,
    ⟨.op (.recvServer 0), some (lit "Removed file @ ./s/a\n")⟩,
    ⟨.note (.logged .fromServer (lit "Removed file @ ./s/a\n") 4), ()⟩,
    ⟨.note (.ended (lit "Removed file @ ./s/a\n")), ()⟩,
    ⟨.op (.sendClient (lit "Removed file @ ./s/a\n")), true⟩,
    ⟨.note (.logged .toClient (lit "Removed file @ ./s/a\n") 5), ()⟩,
    ⟨.note (.parsed (lit "./s/a")), ()⟩]

/-- The `rm` of `./s/a` at the first server stays inside all arrays. -/
theorem inside_iff_roomy_rm : ∃ (q : Request) (out : Option NsState), q.line = lit "rm ./s/a" ∧
    Exec (processClientUses q.tables q.socket q.line) removal out ∧ q.Inside removal := by
  obtain ⟨d, -, -, haddr, -, hx⟩ := twoEntries_run
    (fun st ↦ ((processClientUses st 5 (lit "rm ./s/a")).replay removal).isSome) true
    (by decide +kernel : ((twoEntries.replay []).join.bind (fun st ↦
      ((processClient st (lit "rm ./s/a")).replay (Noted.plain removal)).map (fun _ ↦
        (st.roots.length, st.storageServers.map (fun info ↦ (info.ip, info.portClient)),
          ((processClientUses st 5 (lit "rm ./s/a")).replay removal).isSome)))) = _)
  obtain ⟨out, hout⟩ := Option.isSome_iff_exists.mp hx
  have hrun := exec_of_replay hout
  let q := wholeRequest d.tables haddr (lit "rm ./s/a") (by decide) (by decide)
  have hlog : (lit "rm ./s/a").length + (decimal 5).length + 31 < bufferSize := by decide
  have hadded : addedWords d.tables (lit "rm ./s/a") = 0 := by
    have hwords : words (lit "rm ./s/a") = [lit "rm", lit "./s/a"] := by decide
    rw [addedWords, hwords]
  have hsent : (words (lit "rm ./s/a")).length ≤ maxArgs := by decide
  refine ⟨q, out, rfl, hrun, (inside_iff_roomy q hrun).mpr ⟨hlog, by decide, fun _ ↦ ?_, ?_⟩⟩
  · exact hadded.symm ▸ hsent
  · intro msg hmsg
    cases hmsg

/-- A `touch` with six words is forwarded as it is, and its words overrun `args[5]`. -/
theorem sixth_word_overruns :
    ¬ ∀ d : Deployment,
      Reachable (fun s ↦ s = Deployment.initial) (Deployment.Step (fun _ _ ↦ True)) d →
      ∀ q : Request, q.tables = d.tables → ∀ tr out,
        Exec (processClientUses q.tables q.socket q.line) tr out → q.Inside tr := by
  intro hall
  obtain ⟨d, out, hreach, haddr, hx, -⟩ := twoEntries_run (fun _ ↦ ()) () (by decide +kernel :
    ((twoEntries.replay []).join.bind (fun st ↦
      ((processClient st (lit "touch ./s/c 1 2 3 4")).replay
        (forwardedOnly (lit "touch ./s/c 1 2 3 4"))).map (fun _ ↦ (st.roots.length,
          st.storageServers.map (fun info ↦ (info.ip, info.portClient)), ())))) = _)
  let q := wholeRequest d.tables haddr (lit "touch ./s/c 1 2 3 4") (by decide) (by decide)
  rw [← erase_processClientUses d.tables q.socket] at hx
  obtain ⟨tr, hx, hplain⟩ := Noted.exec_of_erase hx
  have hin := (hall d hreach q rfl tr out hx).forwarded 0 (lit "touch ./s/c 1 2 3 4") true
    (by simp [hplain, forwardedOnly]) (Vector.replicate maxArgs none)
  have htake : (lit "touch ./s/c 1 2 3 4").take bufferSize = lit "touch ./s/c 1 2 3 4" := by
    decide
  have harr : q.arrives (lit "touch ./s/c 1 2 3 4") = some (lit "touch ./s/c 1 2 3 4") :=
    congrArg some htake
  rw [harr, isSome_listenToNmArgs (by decide) (by decide)] at hin
  exact absurd hin.2 (by decide)

end NetworkFileSystem.Cluster
