import NetworkFileSystem.Base.CharArray
import NetworkFileSystem.Base.Notes
import NetworkFileSystem.Base.Slots
import NetworkFileSystem.Naming.Containment

/-!
# The arrays that a client's command fills

`tries.c:115–131`, `naming_server.c:635–650,716–733,829–1136`. The naming server parses paths
into `path_arr`, prints what it receives and sends into the lines of its log, ends the answer of
a storage server with a NUL and rewrites a copy in its buffer. The programs of the handlers once
more, with a note for each of these; without the notes they are the programs of the handlers.
-/

namespace NetworkFileSystem.Naming

open Base Protocol Trie Prog

/-! ### Paths -/

/-- The loop at `tries.c:119–129`, with the `NULL` behind it. -/
def parseLoop (arr : Slots maxPath Text) (curr : Nat) : List Text → Option (Slots maxPath Text)
  | [] => Slots.put arr curr none
  | token :: rest =>
    if token = lit "~" then parseLoop arr curr rest
    else do
      let arr ← Slots.put arr curr (some token)
      parseLoop arr (curr + 1) rest

/-- `ParsePath`, `tries.c:115–131`; nothing is known about `arr`. -/
def parsePathInto (arr : Slots maxPath Text) (path : Text) : Option (Slots maxPath Text) :=
  parseLoop arr 0 (tokens slash path)

private theorem parseLoop_eq (arr : Slots maxPath Text) (curr : Nat) (ws : List Text) :
    parseLoop arr curr ws =
      (Slots.fill arr curr (ws.filter (· ≠ lit "~"))).bind (fun (arr, k) ↦ Slots.put arr k none) := by
  induction ws generalizing arr curr with
  | nil => rfl
  | cons w ws ih =>
    by_cases hw : w = lit "~"
    · rw [parseLoop, if_pos hw, ih, List.filter_cons_of_neg (by simp [hw])]
    · rw [parseLoop, if_neg hw, List.filter_cons_of_pos (by simp [hw]), Slots.fill]
      simp only [Option.bind_eq_bind, Option.bind_assoc]
      exact Option.bind_congr (fun arr _ ↦ ih arr (curr + 1))

private theorem parsePathInto_eq (arr : Slots maxPath Text) (path : Text) :
    parsePathInto arr path = Slots.fillNull arr (components path) :=
  parseLoop_eq arr 0 (tokens slash path)

/-- `ParsePath` stores a component in each slot and a `NULL` behind them. -/
theorem isSome_parsePathInto (arr : Slots maxPath Text) (path : Text) :
    (parsePathInto arr path).isSome ↔ (components path).length < maxPath := by
  rw [parsePathInto_eq, Slots.isSome_fillNull]

/-- What `ParsePath` stores in front of the `NULL` is what `parsePath` gives. -/
theorem parsePath_eq (arr : Slots maxPath Text) (path : Text) :
    parsePath path = (parsePathInto arr path).map Slots.upToNull := by
  have hfits := isSome_parsePathInto arr path
  cases h : parsePathInto arr path with
  | none =>
    rw [h] at hfits
    rw [parsePath, if_neg (by simpa using hfits)]
    rfl
  | some c =>
    rw [parsePathInto_eq] at h
    rw [parsePath, if_pos, Option.map_some, Slots.upToNull_fillNull h]
    rw [← Slots.isSome_fillNull, h]
    rfl

/-! ### Texts -/

/-- The lines of the log, by where a text comes from or goes to. -/
inductive LogLine where
  | fromClient
  | toServer
  | fromServer
  | toClient
  deriving DecidableEq

namespace LogLine

/-- What stands before and behind the text, `naming_server.c:731,949,976,990`. -/
def frame : LogLine → Text × Text
  | fromClient => (lit "Recieved: '", lit "' -from- Client fd[")
  | toServer => (lit "Sending: '", lit "' -to- Storage Server fd[")
  | fromServer => (lit "recieved: '", lit "' -from- Storage Server fd[")
  | toClient => (lit "Sending: '", lit "' -to- Client fd[")

/-- The line for a text on the connection `socket`. -/
def text (k : LogLine) (t : Text) (socket : Nat) : Text :=
  k.frame.1 ++ t ++ k.frame.2 ++ decimal socket ++ lit "]"

/-- How many bytes stand around the text and the descriptor. -/
def around : LogLine → Nat
  | fromClient => 31
  | toServer => 36
  | fromServer => 39
  | toClient => 28

theorem length_text (k : LogLine) (t : Text) (socket : Nat) :
    (k.text t socket).length = t.length + (decimal socket).length + k.around := by
  cases k <;> simp [text, frame, around, lit] <;> omega

end LogLine

/-- `buffer` behind `recv_good`, `naming_server.c:720–722`. -/
def lineBuffer (line : Text) : CharArray bufferSize := (CharArray.zeros bufferSize).store 0 line

/-- The changes of `buffer` at `naming_server.c:636–648`; `address` is that of another server. -/
def rewriteCopy (buffer : CharArray bufferSize) (address : Option Text) :
    Option (CharArray bufferSize) :=
  match address with
  | none => buffer.splice 4 (lit "copysame")
  | some address => do
    let buffer ← buffer.splice 4 (lit "copydifferent")
    buffer.strcat address

theorem holds_lineBuffer {line : Text} (h0 : 0 ∉ line) (h : line.length < bufferSize) :
    (lineBuffer line).Holds line := by
  refine ⟨h0, ?_⟩
  have hsize : bufferSize = 1024 := rfl
  have hzeros : (CharArray.zeros bufferSize).bytes.drop (0 + line.length) =
      0 :: List.replicate (bufferSize - line.length - 1) 0 := by
    rw [CharArray.zeros, List.drop_replicate, ← List.replicate_succ]
    congr 1
    omega
  rw [lineBuffer, CharArray.bytes_store (by omega), hzeros]
  simp

/-- How many bytes a copy gains. -/
def addedBytes : Option Text → Nat
  | none => 4
  | some address => 9 + address.length

private theorem four_le_length {line : Text} (h : startsWith (lit "copy") line = true) :
    4 ≤ line.length := by
  have hpre := (List.isPrefixOf_iff_prefix.mp h).length_le
  exact hpre

/-- The rewriting stays inside the buffer if and only if what it makes fits. -/
theorem isSome_rewriteCopy {line : Text} (h0 : 0 ∉ line) (h : line.length < bufferSize)
    (hcopy : startsWith (lit "copy") line = true) (address : Option Text) :
    (rewriteCopy (lineBuffer line) address).isSome ↔
      line.length + addedBytes address < bufferSize := by
  have hholds := holds_lineBuffer h0 h
  have hfour := four_le_length hcopy
  cases address with
  | none =>
    have hverb : (lit "copysame").length = 8 := rfl
    rw [rewriteCopy, hholds.isSome_splice hfour, hverb, addedBytes]
    omega
  | some address =>
    have hverb : (lit "copydifferent").length = 13 := rfl
    have hsplice := hholds.isSome_splice (u := lit "copydifferent") hfour
    rw [hverb] at hsplice
    rw [rewriteCopy, addedBytes]
    cases hb : (lineBuffer line).splice 4 (lit "copydifferent") with
    | none =>
      rw [hb] at hsplice
      simp at hsplice ⊢
      omega
    | some b =>
      have hlen : (lit "copydifferent" ++ line.drop 4).length = line.length + 9 := by
        rw [List.length_append, List.length_drop, hverb]
        omega
      have hstrcat := (hholds.splice_eq_some hfour (by decide) hb).isSome_strcat (u := address)
      rw [hlen] at hstrcat
      change (b.strcat address).isSome ↔ _
      rw [hstrcat]
      omega

/-- The rewritten buffer holds the command that is sent. -/
theorem copyCommand_eq {st : NsState} {line : Text} (h0 : 0 ∉ line) (h : line.length < bufferSize)
    (hcopy : startsWith (lit "copy") line = true) {i j : Nat}
    (haddr : 0 ∉ receiverAddress st j) :
    copyCommand st line i j = (rewriteCopy (lineBuffer line)
      (if i = j then none else some (receiverAddress st j))).map CharArray.text := by
  have hholds := holds_lineBuffer h0 h
  have hfour := four_le_length hcopy
  have hfits := isSome_rewriteCopy h0 h hcopy (if i = j then none else some (receiverAddress st j))
  unfold copyCommand
  by_cases hij : i = j
  · simp only [if_pos hij] at hfits ⊢
    have hlen : (lit "copysame" ++ line.drop 4).length = line.length + addedBytes none := by
      rw [List.length_append, List.length_drop, addedBytes]
      change 8 + _ = _
      omega
    rw [hlen]
    cases hb : rewriteCopy (lineBuffer line) none with
    | none =>
      rw [hb] at hfits
      rw [if_neg (by simpa using hfits)]
      rfl
    | some b =>
      rw [hb] at hfits
      simp only [rewriteCopy] at hb
      have hnew := hholds.splice_eq_some hfour (by decide) hb
      rw [if_pos (hfits.mp rfl), Option.map_some, hnew.text_eq]
  · simp only [if_neg hij] at hfits ⊢
    have hlen : (lit "copydifferent" ++ line.drop 4 ++ receiverAddress st j).length =
        line.length + addedBytes (some (receiverAddress st j)) := by
      rw [List.length_append, List.length_append, List.length_drop, addedBytes]
      change 13 + _ + _ = _
      omega
    rw [hlen]
    cases hb : rewriteCopy (lineBuffer line) (some (receiverAddress st j)) with
    | none =>
      rw [hb] at hfits
      rw [if_neg (by simpa using hfits)]
      rfl
    | some b =>
      rw [hb] at hfits
      simp only [rewriteCopy, Option.bind_eq_bind, Option.bind_eq_some_iff] at hb
      obtain ⟨c, hc, hb⟩ := hb
      have hnew := (hholds.splice_eq_some hfour (by decide) hc).strcat_eq_some haddr hb
      rw [if_pos (hfits.mp rfl), Option.map_some, hnew.text_eq]

/-! ### Notes -/

/-- What is put into an array. -/
inductive ArrayUse where
  /-- A line of the log. -/
  | logged (k : LogLine) (text : Text) (socket : Nat)
  /-- `ParsePath(path, path_arr)`. -/
  | parsed (path : Text)
  /-- The copy command in place of the line. -/
  | rewritten (line : Text) (address : Option Text)
  /-- `response[bytes] = '\0'` behind a receive into a cleared array. -/
  | ended (bytes : Text)
  /-- `strlen(response)` behind a receive into a cleared array. -/
  | scanned (bytes : Text)
  deriving DecidableEq

/-- `response` behind `recv_good`. -/
def response (bytes : Text) : CharArray bufferSize := (CharArray.zeros bufferSize).store 0 bytes

/-- The array is filled, or scanned, inside its bounds; `log_it` prints a line of the log once
more into an array of the same size. -/
def ArrayUse.Inside : ArrayUse → Prop
  | .logged k text socket =>
    ((CharArray.zeros bufferSize).sprintf (k.text text socket)).isSome
  | .parsed path => ∀ arr, (parsePathInto arr path).isSome
  | .rewritten line address => (rewriteCopy (lineBuffer line) address).isSome
  | .ended bytes => ((response bytes).poke bytes.length 0).isSome
  | .scanned bytes => 0 ∈ (response bytes).bytes

/-- There is room for what is put into the array. -/
def ArrayUse.Fits : ArrayUse → Prop
  | .logged k text socket => text.length + (decimal socket).length + k.around < bufferSize
  | .parsed path => (components path).length < maxPath
  | .rewritten line address => line.length + addedBytes address < bufferSize
  | .ended bytes => bytes.length < bufferSize
  | .scanned bytes => bytes.length < bufferSize ∨ 0 ∈ bytes.take bufferSize

instance : (u : ArrayUse) → Decidable u.Fits
  | .logged _ _ _ => inferInstanceAs (Decidable (_ < _))
  | .parsed _ => inferInstanceAs (Decidable (_ < _))
  | .rewritten _ _ => inferInstanceAs (Decidable (_ < _))
  | .ended _ => inferInstanceAs (Decidable (_ < _))
  | .scanned _ => inferInstanceAs (Decidable (_ ∨ _))

/-- The arrays of the naming server are filled inside their bounds if and only if there is room. -/
theorem ArrayUse.inside_iff {u : ArrayUse}
    (hline : ∀ line address, u = .rewritten line address →
      0 ∉ line ∧ line.length < bufferSize ∧ startsWith (lit "copy") line = true) :
    u.Inside ↔ u.Fits := by
  cases u with
  | logged k text socket =>
    rw [ArrayUse.Inside, CharArray.isSome_sprintf, LogLine.length_text]
    exact Iff.rfl
  | parsed path =>
    constructor
    · exact fun h ↦ (isSome_parsePathInto (Vector.replicate maxPath none) path).mp (h _)
    · exact fun h arr ↦ (isSome_parsePathInto arr path).mpr h
  | rewritten line address =>
    obtain ⟨h0, hshort, hcopy⟩ := hline line address rfl
    exact isSome_rewriteCopy h0 hshort hcopy address
  | ended bytes =>
    rw [ArrayUse.Inside, CharArray.isSome_poke, ArrayUse.Fits]
    omega
  | scanned bytes => exact CharArray.zero_mem_store_zeros

/-- Programs that note what they put into arrays. -/
abbrev UseProg (α : Type) : Type := Prog (Noted NsOp ArrayUse) (Noted.Out NsOp.Res) α

abbrev UseEvent : Type := Event (Noted NsOp ArrayUse) (Noted.Out NsOp.Res)

/-- An array is about to be filled. -/
def noteUse (u : ArrayUse) : UseProg Unit := Noted.write u

/-- The same where the handler of `rmdir` and `rm` logs and that of `mkdir` and `touch` does not. -/
def noteUseIf (logs : Bool) (u : ArrayUse) : UseProg Unit :=
  if logs then noteUse u else pure ()

/-- Arrays are filled one after the other. -/
def noteUses : List ArrayUse → UseProg Unit
  | [] => pure ()
  | u :: us => do
    noteUse u
    noteUses us

/-- A lookup that the cache does not answer parses the path, `naming_server.c:358`. -/
def noteLookup (st : NsState) (path : Text) : UseProg Unit :=
  if searchCache st.cache path = none then noteUse (.parsed path) else pure ()

/-- `searchStorageServer`. -/
def searchStorageServerUses (st : NsState) (buffer : Text) : UseProg (Option Nat × NsState) := do
  noteLookup st buffer
  Noted.lift (searchStorageServer st buffer)

/-- `exchange` on the connection `socket`, for a client on the connection `client`. -/
def exchangeUses (logs : Bool) (client socket i : Nat) (line : Text) :
    UseProg (Option Text) := do
  if ← Noted.lift (forward i line) then
    noteUseIf logs (.logged .toServer line socket)
    match ← Noted.lift (recvServer i) with
    | none =>
      Noted.lift (reply notResponding)
      noteUseIf logs (.logged .fromServer notResponding socket)
      pure none
    | some bytes =>
      noteUseIf logs (.logged .fromServer (cstr bytes) socket)
      noteUse (.ended bytes)
      if bytes.length < bufferSize then
        Noted.lift (reply (cstr bytes))
        noteUseIf logs (.logged .toClient (cstr bytes) client)
        pure (some (cstr bytes))
      else .abort
  else pure none

/-- The command to the second backup, `naming_server.c:1020–1035`. -/
def replicateSecondUses (logs : Bool) (st : NsState) (msg : Text) : Option Nat → UseProg NsState
  | none => pure st
  | some b => do
    let (up, st) ← Noted.lift (isSsUp st b)
    if up then
      Noted.lift (replicate b msg)
      noteUseIf logs (.logged .toServer msg (st.socket b))
      pure st
    else pure st

/-- `replicateCommand`. -/
def replicateCommandUses (logs : Bool) (st : NsState) (i : Nat) (command path : Text) :
    UseProg NsState := do
  let msg := clip bufferSize (command ++ lit "b " ++ path)
  let bs2 := st.backupServer2 i
  let st ← Noted.lift (replicateTo st id (fun _ ↦ some msg) (st.backupServer1 i))
  replicateSecondUses logs st msg bs2

/-- `changeEntry`: a confirmed command parses its path for the trie. -/
def changeEntryUses (logs : Bool) (c : EntryChange) (st : NsState) (client : Nat)
    (line command path : Text) : UseProg NsState := do
  if isTopPath c.lookup then
    Noted.lift (reply invalidPath)
    noteUseIf logs (.logged .toClient invalidPath client)
    return st
  match ← searchStorageServerUses st c.lookup with
  | (none, st) =>
    Noted.lift (reply notFound)
    noteUseIf logs (.logged .toClient notFound client)
    pure st
  | (some i, st) =>
    let st := { st with cache := c.cacheOp st.cache i }
    if st.isUp i then
      let answer ← exchangeUses logs client (st.socket i) i line
      if confirms answer then
        let st ← replicateCommandUses logs st i command path
        noteUse (.parsed path)
        Prog.ofOption (st.updateRoot i c.trieOp)
      else pure st
    else
      Noted.lift (reply notFound)
      noteUseIf logs (.logged .toClient notFound client)
      pure st

/-- A text goes to the client and into the log. -/
def replyUses (client : Nat) (text : Text) : UseProg Unit := do
  Noted.lift (reply text)
  noteUse (.logged .toClient text client)

/-- `locate`. -/
def locateUses (st : NsState) (client : Nat) (path : Text) : UseProg NsState := do
  match ← searchStorageServerUses st path with
  | (none, st) =>
    replyUses client notFound
    pure st
  | (some i, st) =>
    if st.isUp i then
      replyUses client (serverAddress st i)
      pure st
    else
      match ← Noted.lift (redundantSs st i) with
      | (none, _) => .abort
      | (some b, st) =>
        if b = i then
          replyUses client (serverAddress st i)
          pure st
        else
          let name ← Prog.ofOption (st.rootName b)
          Noted.lift (reply (backupAddress st b name))
          pure st

/-- `writeRequest`. -/
def writeRequestUses (st : NsState) (client : Nat) (flag : Text) (path : Option Text) :
    UseProg NsState := do
  let path ← Prog.ofOption path
  match ← searchStorageServerUses st path with
  | (some i, st) =>
    if st.isUp i then
      Noted.lift (reply (pathOk st flag i))
      pure st
    else
      replyUses client notFound
      pure st
  | (none, st) =>
    replyUses client notFound
    pure st

/-- `performCopy`: the lines of the new index are parsed one by one. -/
def performCopyUses (st : NsState) (line src dest : Text) (srcIndex destIndex : Nat) :
    UseProg NsState := do
  noteUse (.rewritten line (if srcIndex = destIndex then none else some (receiverAddress st destIndex)))
  let msg ← Prog.ofOption (copyCommand st line srcIndex destIndex)
  if ← Noted.lift (forward srcIndex msg) then
    match ← Noted.lift (recvServer srcIndex) with
    | none => pure st
    | some bytes =>
      noteUse (.scanned bytes)
      if bufferSize ≤ bytes.length then .abort
      else if ← Noted.lift (sendClient (cstr bytes)) then
        Noted.lift (reindex destIndex)
        let segments ← Noted.lift (recvIndex destIndex)
        noteUses ((indexedLines segments []).map .parsed)
        let (root, _) ← Prog.ofOption (indexHelper segments [] (createNode (lit ".")))
        let st := st.modifyServer destIndex (fun info ↦ { info with root := root })
        let bs2 := st.backupServer2 destIndex
        let copyTo := backupCopyCommand st line src dest
        let st ← Noted.lift
          (replicateTo st (fun _ ↦ destIndex) copyTo (st.backupServer1 destIndex))
        Noted.lift (replicateTo st (fun _ ↦ destIndex) copyTo bs2)
      else pure st
  else pure st

/-- `handleCopyRequest`. -/
def handleCopyRequestUses (st : NsState) (line : Text) : UseProg NsState :=
  match words line with
  | _ :: src :: dest :: _ =>
    if isTopWord src || isTopWord dest then do
      Noted.lift (reply (lit "Invalid source or destination path."))
      pure st
    else do
      let (srcIndex, st) ← searchStorageServerUses st src
      let (destIndex, st) ← searchStorageServerUses st dest
      match srcIndex, destIndex with
      | some i, some j =>
        if st.isUp i && st.isUp j then performCopyUses st line src dest i j
        else
          Noted.lift (reply (notFound ++ [0]))
          pure st
      | _, _ =>
        Noted.lift (reply (notFound ++ [0]))
        pure st
  | _ => do
    Noted.lift (reply (lit "Invalid request. Source or destination path missing."))
    pure st

/-- `processClient` for a line that came in on `socket`. -/
def processClientUses (st : NsState) (socket : Nat) (line : Text) : UseProg NsState := do
  noteUse (.logged .fromClient line socket)
  if line = lit "ls ~" ∨ line = lit "ls ." then Noted.lift (listAll st)
  else if startsWith (lit "copy") line then handleCopyRequestUses st line
  else match words line with
    | command :: path :: rest =>
      if isTopWord path then do
        Noted.lift (reply notFound)
        pure st
      else do
        let st ← if startsWith (lit "write") line then writeRequestUses st socket path rest.head?
          else pure st
        if command = lit "mkdir" ∨ command = lit "touch" then
          changeEntryUses false (makeChange path) st socket line command path
        else if command = lit "rmdir" ∨ command = lit "rm" then
          changeEntryUses true (removeChange path) st socket line command path
        else locateUses st socket path
    | _ => do
      Noted.lift (reply notFound)
      pure st

/-! ### Without the notes -/

@[simp] theorem erase_noteUse (u : ArrayUse) : Noted.erase (noteUse u) = pure () := rfl

@[simp] theorem erase_noteUseIf (logs : Bool) (u : ArrayUse) :
    Noted.erase (noteUseIf logs u) = pure () := by
  cases logs <;> rfl

@[simp] theorem erase_noteUses (us : List ArrayUse) : Noted.erase (noteUses us) = pure () := by
  induction us with
  | nil => rfl
  | cons u us ih => rw [noteUses, Noted.erase_bind, erase_noteUse, pure_bind, ih]

@[simp] theorem erase_noteLookup (st : NsState) (path : Text) :
    Noted.erase (noteLookup st path) = pure () := by
  unfold noteLookup
  split <;> rfl

@[simp] theorem erase_searchStorageServerUses (st : NsState) (buffer : Text) :
    Noted.erase (searchStorageServerUses st buffer) = searchStorageServer st buffer := by
  rw [searchStorageServerUses, Noted.erase_bind, erase_noteLookup, pure_bind, Noted.erase_lift]

@[simp] theorem erase_replyUses (client : Nat) (text : Text) :
    Noted.erase (replyUses client text) = reply text := by
  rw [replyUses, Noted.erase_bind, Noted.erase_lift]
  exact bind_pure _

@[simp] theorem erase_exchangeUses (logs : Bool) (client socket i : Nat) (line : Text) :
    Noted.erase (exchangeUses logs client socket i line) = exchange i line := by
  unfold exchangeUses exchange
  rw [Noted.erase_bind, Noted.erase_lift]
  refine bind_congr (fun sent ↦ ?_)
  cases sent with
  | false => rfl
  | true =>
    simp only [if_true, Noted.erase_bind, Noted.erase_lift, erase_noteUseIf, pure_bind]
    refine bind_congr (fun r ↦ ?_)
    cases r with
    | none =>
      simp only [Noted.erase_bind, Noted.erase_lift, erase_noteUseIf, pure_bind]
      rfl
    | some bytes =>
      simp only [Noted.erase_bind, erase_noteUseIf, erase_noteUse, pure_bind]
      split
      · simp only [Noted.erase_bind, Noted.erase_lift, erase_noteUseIf, pure_bind]
        rfl
      · rfl

@[simp] theorem erase_replicateSecondUses (logs : Bool) (st : NsState) (msg : Text)
    (bs : Option Nat) : Noted.erase (replicateSecondUses logs st msg bs) =
      replicateTo st id (fun _ ↦ some msg) bs := by
  cases bs with
  | none => rfl
  | some b =>
    rw [replicateSecondUses, replicateTo, Noted.erase_bind, Noted.erase_lift]
    refine bind_congr (fun x ↦ ?_)
    obtain ⟨up, st₁⟩ := x
    cases up with
    | false => rfl
    | true =>
      simp only [if_true, Noted.erase_bind, Noted.erase_lift, erase_noteUseIf, pure_bind]
      rfl

@[simp] theorem erase_replicateCommandUses (logs : Bool) (st : NsState) (i : Nat)
    (command path : Text) : Noted.erase (replicateCommandUses logs st i command path) =
      replicateCommand st i command path := by
  unfold replicateCommandUses replicateCommand
  simp only [Noted.erase_bind, Noted.erase_lift, erase_replicateSecondUses]

@[simp] theorem erase_changeEntryUses (logs : Bool) (c : EntryChange) (st : NsState) (client : Nat)
    (line command path : Text) : Noted.erase (changeEntryUses logs c st client line command path) =
      changeEntry c st line command path := by
  unfold changeEntryUses changeEntry
  split
  · simp only [Noted.erase_bind, Noted.erase_lift, erase_noteUseIf, pure_bind]
    rfl
  rw [Noted.erase_bind, erase_searchStorageServerUses]
  refine bind_congr (fun x ↦ ?_)
  obtain ⟨k, st₁⟩ := x
  cases k with
  | none =>
    simp only [Noted.erase_bind, Noted.erase_lift, erase_noteUseIf, pure_bind]
    rfl
  | some i =>
    dsimp only
    split
    · rw [Noted.erase_bind, erase_exchangeUses]
      refine bind_congr (fun answer ↦ ?_)
      split
      · simp only [Noted.erase_bind, erase_replicateCommandUses, erase_noteUse, pure_bind,
          Noted.erase_ofOption]
      · rfl
    · simp only [Noted.erase_bind, Noted.erase_lift, erase_noteUseIf, pure_bind]
      rfl

@[simp] theorem erase_locateUses (st : NsState) (client : Nat) (path : Text) :
    Noted.erase (locateUses st client path) = locate st path := by
  unfold locateUses locate
  rw [Noted.erase_bind, erase_searchStorageServerUses]
  refine bind_congr (fun x ↦ ?_)
  obtain ⟨k, st₁⟩ := x
  cases k with
  | none =>
    simp only [Noted.erase_bind, erase_replyUses]
    rfl
  | some i =>
    dsimp only
    split
    · simp only [Noted.erase_bind, erase_replyUses]
      rfl
    · rw [Noted.erase_bind, Noted.erase_lift]
      refine bind_congr (fun x ↦ ?_)
      obtain ⟨b, st₂⟩ := x
      cases b with
      | none => rfl
      | some b =>
        dsimp only
        split
        · simp only [Noted.erase_bind, erase_replyUses]
          rfl
        · simp only [Noted.erase_bind, Noted.erase_ofOption, Noted.erase_lift]
          rfl

@[simp] theorem erase_writeRequestUses (st : NsState) (client : Nat) (flag : Text)
    (path : Option Text) :
    Noted.erase (writeRequestUses st client flag path) = writeRequest st flag path := by
  cases path with
  | none => rfl
  | some p =>
    unfold writeRequestUses writeRequest
    rw [Noted.erase_bind, Noted.erase_ofOption]
    refine bind_congr (fun p ↦ ?_)
    rw [Noted.erase_bind, erase_searchStorageServerUses]
    refine bind_congr (fun x ↦ ?_)
    obtain ⟨k, st₁⟩ := x
    cases k with
    | none =>
      simp only [Noted.erase_bind, erase_replyUses]
      rfl
    | some i =>
      dsimp only
      split
      · simp only [Noted.erase_bind, Noted.erase_lift]
        rfl
      · simp only [Noted.erase_bind, erase_replyUses]
        rfl

@[simp] theorem erase_performCopyUses (st : NsState) (line src dest : Text) (i j : Nat) :
    Noted.erase (performCopyUses st line src dest i j) = performCopy st line src dest i j := by
  unfold performCopyUses performCopy
  rw [Noted.erase_bind, erase_noteUse, pure_bind, Noted.erase_bind, Noted.erase_ofOption]
  refine bind_congr (fun msg ↦ ?_)
  rw [Noted.erase_bind, Noted.erase_lift]
  refine bind_congr (fun sent ↦ ?_)
  cases sent with
  | false => rfl
  | true =>
    simp only [if_true, Noted.erase_bind, Noted.erase_lift]
    refine bind_congr (fun r ↦ ?_)
    cases r with
    | none => rfl
    | some bytes =>
      rw [Noted.erase_bind, erase_noteUse, pure_bind]
      dsimp only
      by_cases hfull : bufferSize ≤ bytes.length
      · rw [if_pos hfull, if_pos hfull]
        rfl
      rw [if_neg hfull, if_neg hfull, Noted.erase_bind, Noted.erase_lift]
      refine bind_congr (fun told ↦ ?_)
      cases told with
      | false => rfl
      | true =>
        simp only [if_true, Noted.erase_bind, Noted.erase_lift, erase_noteUses, pure_bind,
          Noted.erase_ofOption]

@[simp] theorem erase_handleCopyRequestUses (st : NsState) (line : Text) :
    Noted.erase (handleCopyRequestUses st line) = handleCopyRequest st line := by
  unfold handleCopyRequestUses handleCopyRequest
  generalize words line = ws
  match ws with
  | [] | [_] | [_, _] =>
    simp only [Noted.erase_bind, Noted.erase_lift]
    rfl
  | _ :: src :: dest :: _ =>
    dsimp only
    split
    · simp only [Noted.erase_bind, Noted.erase_lift]
      rfl
    · rw [Noted.erase_bind, erase_searchStorageServerUses]
      refine bind_congr (fun x ↦ ?_)
      obtain ⟨k, st₁⟩ := x
      rw [Noted.erase_bind, erase_searchStorageServerUses]
      refine bind_congr (fun x ↦ ?_)
      obtain ⟨k', st₂⟩ := x
      match k, k' with
      | some i, some j =>
        dsimp only
        split
        · exact erase_performCopyUses _ _ _ _ _ _
        · simp only [Noted.erase_bind, Noted.erase_lift]
          rfl
      | none, _ | some _, none =>
        simp only [Noted.erase_bind, Noted.erase_lift]
        rfl

/-- Without the notes it is the program of the naming server. -/
theorem erase_processClientUses (st : NsState) (socket : Nat) (line : Text) :
    Noted.erase (processClientUses st socket line) = processClient st line := by
  unfold processClientUses processClient makeEntry removeEntry
  rw [Noted.erase_bind, erase_noteUse, pure_bind]
  split
  · exact Noted.erase_lift _
  split
  · exact erase_handleCopyRequestUses st line
  generalize words line = ws
  match ws with
  | [] | [_] =>
    simp only [Noted.erase_bind, Noted.erase_lift]
    rfl
  | command :: path :: rest =>
    dsimp only
    split
    · simp only [Noted.erase_bind, Noted.erase_lift]
      rfl
    · have htail : ∀ st₁ : NsState, Noted.erase
          (if command = lit "mkdir" ∨ command = lit "touch" then
            changeEntryUses false (makeChange path) st₁ socket line command path
          else if command = lit "rmdir" ∨ command = lit "rm" then
            changeEntryUses true (removeChange path) st₁ socket line command path
          else locateUses st₁ socket path) =
            if command = lit "mkdir" ∨ command = lit "touch" then
              changeEntry (makeChange path) st₁ line command path
            else if command = lit "rmdir" ∨ command = lit "rm" then
              changeEntry (removeChange path) st₁ line command path
            else locate st₁ path := by
        intro st₁
        split
        · exact erase_changeEntryUses _ _ _ _ _ _ _
        split
        · exact erase_changeEntryUses _ _ _ _ _ _ _
        · exact erase_locateUses _ _ _
      split
      · rw [Noted.erase_bind, erase_writeRequestUses]
        exact bind_congr htail
      · exact htail st

/-! ### What is noted -/

/-- The received line is what is logged of the client, and the line that a copy is put into. -/
def ArrayUse.OfLine (socket : Nat) (line : Text) : ArrayUse → Prop
  | .logged .fromClient t s => t = line ∧ s = socket
  | .rewritten l _ => l = line ∧ startsWith (lit "copy") line = true
  | _ => True

section OfLine

variable {socket : Nat} {line : Text}

/-- What the program may perform or note for the line. -/
def StepOfLine (socket : Nat) (line : Text) : Noted NsOp ArrayUse → Prop
  | .op _ => True
  | .note u => u.OfLine socket line

private theorem only_noteUse {u : ArrayUse} (h : u.OfLine socket line) :
    Prog.Only (StepOfLine socket line) (noteUse u) := ⟨h, fun _ ↦ trivial⟩

private theorem only_noteUseIf {logs : Bool} {u : ArrayUse} (h : u.OfLine socket line) :
    Prog.Only (StepOfLine socket line) (noteUseIf logs u) := by
  cases logs with
  | false => trivial
  | true => exact only_noteUse h

private theorem only_noteUses {us : List ArrayUse} (h : ∀ u ∈ us, u.OfLine socket line) :
    Prog.Only (StepOfLine socket line) (noteUses us) := by
  induction us with
  | nil => trivial
  | cons u us ih =>
    rw [List.forall_mem_cons] at h
    exact Prog.only_bind (only_noteUse h.1) (fun _ ↦ ih h.2)

private theorem only_ops {α : Type} (p : NsProg α) :
    Prog.Only (StepOfLine socket line) (Noted.lift p : UseProg α) :=
  Noted.only_lift (fun _ ↦ trivial) p

private theorem only_ofOption {α : Type} (x : Option α) :
    Prog.Only (StepOfLine socket line) (Prog.ofOption x : UseProg α) := by
  cases x <;> trivial

private theorem only_search {st : NsState} {path : Text} :
    Prog.Only (StepOfLine socket line) (searchStorageServerUses st path) := by
  refine Prog.only_bind ?_ (fun _ ↦ only_ops _)
  unfold noteLookup
  split
  · exact only_noteUse trivial
  · trivial

private theorem only_replyUses {client : Nat} {text : Text} :
    Prog.Only (StepOfLine socket line) (replyUses client text) :=
  Prog.only_bind (only_ops _) (fun _ ↦ only_noteUse trivial)

private theorem only_exchangeUses {logs : Bool} {client s i : Nat} {msg : Text} :
    Prog.Only (StepOfLine socket line) (exchangeUses logs client s i msg) := by
  refine Prog.only_bind (only_ops _) (fun sent ↦ ?_)
  split
  · refine Prog.only_bind (only_noteUseIf trivial) (fun _ ↦ ?_)
    refine Prog.only_bind (only_ops _) (fun r ↦ ?_)
    split
    · exact Prog.only_bind (only_ops _)
        (fun _ ↦ Prog.only_bind (only_noteUseIf trivial) (fun _ ↦ trivial))
    · refine Prog.only_bind (only_noteUseIf trivial) (fun _ ↦ ?_)
      refine Prog.only_bind (only_noteUse trivial) (fun _ ↦ ?_)
      split
      · exact Prog.only_bind (only_ops _)
          (fun _ ↦ Prog.only_bind (only_noteUseIf trivial) (fun _ ↦ trivial))
      · trivial
  · trivial

private theorem only_replicateCommandUses {logs : Bool} {st : NsState} {i : Nat}
    {command path : Text} :
    Prog.Only (StepOfLine socket line) (replicateCommandUses logs st i command path) := by
  refine Prog.only_bind (only_ops _) (fun st₁ ↦ ?_)
  cases st.backupServer2 i with
  | none => trivial
  | some b =>
    apply Prog.only_bind (only_ops _)
    rintro ⟨up, st₂⟩
    cases up with
    | false => trivial
    | true =>
      refine Prog.only_bind (only_ops _) (fun _ ↦ ?_)
      exact Prog.only_bind (only_noteUseIf trivial) (fun _ ↦ trivial)

private theorem only_changeEntryUses {logs : Bool} {c : EntryChange} {st : NsState} {client : Nat}
    {msg command path : Text} :
    Prog.Only (StepOfLine socket line) (changeEntryUses logs c st client msg command path) := by
  have hreply : ∀ (st : NsState) (text : Text), Prog.Only (StepOfLine socket line) (do
      Noted.lift (reply text)
      noteUseIf logs (.logged .toClient text client)
      pure st : UseProg NsState) := fun st text ↦
    Prog.only_bind (only_ops _) (fun _ ↦ Prog.only_bind (only_noteUseIf trivial) (fun _ ↦ trivial))
  unfold changeEntryUses
  split
  · exact hreply st invalidPath
  apply Prog.only_bind only_search
  rintro ⟨k, st₁⟩
  cases k with
  | none => exact hreply st₁ notFound
  | some i =>
    dsimp only
    split
    · refine Prog.only_bind only_exchangeUses (fun answer ↦ ?_)
      split
      · refine Prog.only_bind only_replicateCommandUses (fun st₂ ↦ ?_)
        exact Prog.only_bind (only_noteUse trivial) (fun _ ↦ only_ofOption _)
      · trivial
    · exact hreply _ notFound

private theorem only_locateUses {st : NsState} {client : Nat} {path : Text} :
    Prog.Only (StepOfLine socket line) (locateUses st client path) := by
  apply Prog.only_bind only_search
  rintro ⟨k, st₁⟩
  cases k with
  | none => exact Prog.only_bind only_replyUses (fun _ ↦ trivial)
  | some i =>
    dsimp only
    split
    · exact Prog.only_bind only_replyUses (fun _ ↦ trivial)
    · apply Prog.only_bind (only_ops _)
      rintro ⟨b, st₂⟩
      cases b with
      | none => trivial
      | some b =>
        dsimp only
        split
        · exact Prog.only_bind only_replyUses (fun _ ↦ trivial)
        · exact Prog.only_bind (only_ofOption _)
            (fun _ ↦ Prog.only_bind (only_ops _) (fun _ ↦ trivial))

private theorem only_writeRequestUses {st : NsState} {client : Nat} {flag : Text}
    {path : Option Text} :
    Prog.Only (StepOfLine socket line) (writeRequestUses st client flag path) := by
  refine Prog.only_bind (only_ofOption _) (fun p ↦ ?_)
  apply Prog.only_bind only_search
  rintro ⟨k, st₁⟩
  cases k with
  | none => exact Prog.only_bind only_replyUses (fun _ ↦ trivial)
  | some i =>
    dsimp only
    split
    · exact Prog.only_bind (only_ops _) (fun _ ↦ trivial)
    · exact Prog.only_bind only_replyUses (fun _ ↦ trivial)

private theorem only_performCopyUses {st : NsState} {src dest : Text} {i j : Nat}
    (hcopy : startsWith (lit "copy") line = true) :
    Prog.Only (StepOfLine socket line) (performCopyUses st line src dest i j) := by
  refine Prog.only_bind (only_noteUse ⟨rfl, hcopy⟩) (fun _ ↦ ?_)
  refine Prog.only_bind (only_ofOption _) (fun msg ↦ ?_)
  refine Prog.only_bind (only_ops _) (fun sent ↦ ?_)
  split
  · refine Prog.only_bind (only_ops _) (fun r ↦ ?_)
    split
    · trivial
    · refine Prog.only_bind (only_noteUse trivial) (fun _ ↦ ?_)
      split
      · trivial
      · refine Prog.only_bind (only_ops _) (fun told ↦ ?_)
        split
        · refine Prog.only_bind (only_ops _) (fun _ ↦ ?_)
          refine Prog.only_bind (only_ops _) (fun segments ↦ ?_)
          refine Prog.only_bind (only_noteUses ?_) (fun _ ↦ ?_)
          · simp [ArrayUse.OfLine]
          · exact Prog.only_bind (only_ofOption _)
              (fun _ ↦ Prog.only_bind (only_ops _) (fun _ ↦ only_ops _))
        · trivial
  · trivial

private theorem only_handleCopyRequestUses {st : NsState}
    (hcopy : startsWith (lit "copy") line = true) :
    Prog.Only (StepOfLine socket line) (handleCopyRequestUses st line) := by
  unfold handleCopyRequestUses
  split
  · next verb src dest rest hw =>
    split
    · exact Prog.only_bind (only_ops _) (fun _ ↦ trivial)
    · apply Prog.only_bind only_search
      rintro ⟨k, st₁⟩
      apply Prog.only_bind only_search
      rintro ⟨k', st₂⟩
      dsimp only
      split
      · split
        · exact only_performCopyUses hcopy
        · exact Prog.only_bind (only_ops _) (fun _ ↦ trivial)
      · exact Prog.only_bind (only_ops _) (fun _ ↦ trivial)
  · exact Prog.only_bind (only_ops _) (fun _ ↦ trivial)

/-- The naming server puts nothing else into these arrays for the line. -/
theorem only_processClientUses (st : NsState) (socket : Nat) (line : Text) :
    Prog.Only (StepOfLine socket line) (processClientUses st socket line) := by
  refine Prog.only_bind (only_noteUse ⟨rfl, rfl⟩) (fun _ ↦ ?_)
  split
  · exact only_ops _
  split
  · next hcopy => exact only_handleCopyRequestUses hcopy
  split
  · next command path rest hw =>
    have htail : ∀ st₁ : NsState, Prog.Only (StepOfLine socket line)
        (if command = lit "mkdir" ∨ command = lit "touch" then
          changeEntryUses false (makeChange path) st₁ socket line command path
        else if command = lit "rmdir" ∨ command = lit "rm" then
          changeEntryUses true (removeChange path) st₁ socket line command path
        else locateUses st₁ socket path) := by
      intro st₁
      split
      · exact only_changeEntryUses
      split
      · exact only_changeEntryUses
      · exact only_locateUses
    split
    · exact Prog.only_bind (only_ops _) (fun _ ↦ trivial)
    dsimp only
    split
    · exact Prog.only_bind only_writeRequestUses htail
    · exact htail st
  · exact Prog.only_bind (only_ops _) (fun _ ↦ trivial)

/-- The notes of a run: the received line is logged first, and a copy is put into it. -/
theorem notes_processClientUses {st : NsState} {tr : List UseEvent} {out : Option NsState}
    (h : Exec (processClientUses st socket line) tr out) :
    .logged .fromClient line socket ∈ Noted.notes tr ∧
      ∀ u ∈ Noted.notes tr, u.OfLine socket line := by
  constructor
  · obtain ⟨rest, rfl, -⟩ := Noted.exec_write.mp h
    simp [Noted.notes]
  · intro u hu
    obtain ⟨e, he, hnote⟩ := Noted.mem_notes.mp hu
    have hstep := (only_processClientUses st socket line).exec h e he
    rw [hnote] at hstep
    exact hstep

end OfLine

end NetworkFileSystem.Naming
