import NetworkFileSystem.Client.Requests
import NetworkFileSystem.Naming.Registration
import NetworkFileSystem.Storage.Requests

/-!
# Writes from end to end

`client.c:448–534`, `storage_server.c:38–135,185–249`, `naming_server.c:1187–1233`. The client
joins the fields of a write by bars. The storage server and the naming server split at bars, or
at blanks, and take what they find in fixed places.
-/

namespace NetworkFileSystem.Client

open Base Protocol Naming Storage

/-- One `recv_good` into an array of `BUFFER_SIZE` bytes, for a message that arrives whole. A NUL
is put behind the bytes, past the array if they fill it; `storage_server.c:258–263`, and without
the NUL at `naming_server.c:1179–1180`. -/
def receiveWhole (sent : Text) : Option Text :=
  if sent.length < bufferSize then some (cstr sent) else none

/-- The path and the data in a synchronous write, `storage_server.c:40–44`. -/
def syncFields (command : Text) : Option (Text × Text) := do
  let path ← (tokens bar command)[1]?
  let data ← (tokens bar command)[2]?
  pure (path, data)

/-- The path, the address of the client and the data in an asynchronous write,
`storage_server.c:92–99`. -/
def asyncFields (command : Text) : Option (Text × Text × Text × Text) := do
  let path ← (tokens bar command)[1]?
  let ip ← (tokens bar command)[2]?
  let port ← (tokens bar command)[3]?
  let data ← (tokens bar command)[4]?
  pure (path, ip, port, data)

/-- The path in an acknowledgement, `naming_server.c:1188–1190` and `1223–1225`. -/
def notifiedPath (line : Text) : Option Text :=
  if startsWith (lit "WRITE_SYNC") line then (tokens bar line)[1]?
  else if startsWith (lit "writeasync") line then (words line)[1]?
  else none

/-! ### What the servers do with the fields -/

/-- The storage server takes `path` and `data` from a synchronous write: it opens nothing else
and prints nothing else. -/
structure SyncDecoded (command path data : Text) : Prop where
  fields : syncFields command = some (path, data)
  uses : Prog.Only (fun o ↦ (∀ p, o = .fopen p → p = path) ∧
    ∀ t, o = .fprintf t → t = data ++ lit "\n") (writeFile command)

/-- The storage server takes `path`, `ip`, `port` and `data` from an asynchronous write: it opens
nothing else, prints blocks of the data and notifies the naming server of the rest. -/
structure AsyncDecoded (command path ip port data : Text) : Prop where
  fields : asyncFields command = some (path, ip, port, data)
  uses : Prog.Only (fun o ↦ (∀ p, o = .fopen p → p = path) ∧
    (∀ t, o = .fprintf t → ∃ array blocks, asyncBlocks array 0 data = some blocks ∧ t ∈ blocks) ∧
    ∀ t, o = .notify t → t = asyncNotice path ip port) (writeFileAsync command)

/-- The naming server looks up `path` on an acknowledgement. -/
structure Acknowledged (line path : Text) : Prop where
  notified : notifiedPath line = some path
  looksUp : ∀ st : NsState, ∃ k, listenAsync st line = (searchStorageServer st path >>= k)

section Uses

variable {command path ip port data line : Text}

private theorem only_lockIndex {P : SsOp → Prop} (path : Text) (hlookup : P (.lookup path))
    (hcreate : P (.create path)) : Prog.Only P (lockIndex path) := by
  refine ⟨hlookup, fun r ↦ ?_⟩
  cases r with
  | none => exact ⟨hcreate, fun _ ↦ trivial⟩
  | some i => trivial

private theorem only_printBlocks {P : SsOp → Prop} {blocks : List Text}
    (h : ∀ t ∈ blocks, P (.fprintf t)) : Prog.Only P (printBlocks blocks) := by
  induction blocks with
  | nil => trivial
  | cons t blocks ih =>
    exact ⟨h t (by simp), fun _ ↦ ih (fun u hu ↦ h u (by simp [hu]))⟩

theorem syncDecoded_of_fields (h : syncFields command = some (path, data)) :
    SyncDecoded command path data := by
  refine ⟨h, ?_⟩
  simp only [syncFields, Option.pure_def, Option.bind_eq_bind, Option.bind_eq_some_iff,
    Option.some.injEq, Prod.mk.injEq] at h
  obtain ⟨_, hpath, _, hdata, rfl, rfl⟩ := h
  unfold writeFile
  simp only [hpath, hdata, Prog.ofOption]
  apply Prog.only_bind (only_lockIndex _ (by simp) (by simp))
  intro i
  refine ⟨by simp, fun _ ↦ ⟨by simp, fun ok ↦ ?_⟩⟩
  cases ok with
  | true => exact ⟨by simp, fun _ ↦ ⟨by simp, fun _ ↦ ⟨by simp, fun _ ↦ trivial⟩⟩⟩
  | false => trivial

theorem asyncDecoded_of_fields (h : asyncFields command = some (path, ip, port, data)) :
    AsyncDecoded command path ip port data := by
  refine ⟨h, ?_⟩
  simp only [asyncFields, Option.pure_def, Option.bind_eq_bind, Option.bind_eq_some_iff,
    Option.some.injEq, Prod.mk.injEq] at h
  obtain ⟨p, hpath, a, hip, q, hport, d, hdata, rfl, rfl, rfl, rfl⟩ := h
  unfold writeFileAsync
  simp only [hpath, hip, hport, hdata]
  refine ⟨by simp, fun _ ↦ ?_⟩
  apply Prog.only_bind (only_lockIndex _ (by simp) (by simp))
  intro i
  refine ⟨by simp, fun _ ↦ ⟨by simp, fun ok ↦ ?_⟩⟩
  cases ok with
  | true =>
    refine ⟨by simp, fun array ↦ ?_⟩
    change Prog.Only _ (Prog.ofOption (asyncBlocks array 0 d) >>= _)
    cases hblocks : asyncBlocks array 0 d with
    | none => trivial
    | some blocks =>
      apply Prog.only_bind (only_printBlocks ?_)
      · intro _
        refine ⟨by simp, fun _ ↦ ⟨by simp, fun told ↦ ?_⟩⟩
        cases told with
        | true => exact ⟨by simp, fun _ ↦ trivial⟩
        | false => trivial
      · intro t ht
        refine ⟨by simp, ?_, by simp⟩
        rintro u hu
        cases hu
        exact ⟨array, blocks, hblocks, ht⟩
  | false => exact ⟨by simp, fun _ ↦ trivial⟩

theorem acknowledged_of_notified (h : notifiedPath line = some path) : Acknowledged line path := by
  refine ⟨h, fun st ↦ ?_⟩
  unfold notifiedPath at h
  unfold listenAsync
  split at h
  · next hsync =>
    rw [if_pos hsync, h]
    exact ⟨_, rfl⟩
  · next hsync =>
    split at h
    · next hasync =>
      rw [if_neg hsync, if_pos hasync, h]
      exact ⟨_, rfl⟩
    · cases h

end Uses

/-! ### Round trips -/

/-- A text that no message is split in: what `inet_ntop` and `%d` give. -/
structure IsField (t : Text) : Prop where
  ne_nil : t ≠ []
  noBar : bar ∉ t
  noBlank : blank ∉ t
  noNul : 0 ∉ t

/-- `WRITE_SYNC|path|data`. -/
def syncMessage (path data : Text) : Text := lit "WRITE_SYNC|" ++ path ++ lit "|" ++ data

/-- `WRITE_ASYNC|path|ip|port|data`. -/
def asyncMessage (path ip port data : Text) : Text :=
  lit "WRITE_ASYNC|" ++ path ++ lit "|" ++ ip ++ lit "|" ++ port ++ lit "|" ++ data

/-- A write of `data` to `path` on server `i`, by a client at `ip` and `port`, comes through in
both forms: the storage server decodes what the client has encoded, and the naming server learns
of the path. -/
structure RoundTrips (st : NsState) (i : Nat) (path ip port data : Text) : Prop where
  sync : ∃ sent buffer line,
    writeMessage (cstr (pathOk st (lit "-s") i)) path ip port data = some sent ∧
    receiveWhole sent = some buffer ∧ SyncDecoded buffer path data ∧
    receiveWhole buffer = some line ∧ Acknowledged line path
  async : ∃ sent buffer line,
    writeMessage (cstr (pathOk st (lit "-a") i)) path ip port data = some sent ∧
    receiveWhole sent = some buffer ∧ AsyncDecoded buffer path ip port data ∧
    receiveWhole (asyncNotice path ip port) = some line ∧ Acknowledged line path

section RoundTrips

variable {st : NsState} {i : Nat} {path ip port data : Text}

private theorem writeMessage_sync (hsize : (syncMessage path data).length < maxWrite) :
    writeMessage (cstr (pathOk st (lit "-s") i)) path ip port data =
      some (cstr (syncMessage path data)) := by
  have hok : startsWith (lit "PATH_OK") (cstr (pathOk st (lit "-s") i)) = true := rfl
  have hheader : writeHeader (cstr (pathOk st (lit "-s") i)) path ip port =
      some (lit "WRITE_SYNC|" ++ path ++ lit "|") := rfl
  rw [writeMessage, if_pos hok, hheader]
  exact if_pos hsize

private theorem writeMessage_async (hsize : (asyncMessage path ip port data).length < maxWrite) :
    writeMessage (cstr (pathOk st (lit "-a") i)) path ip port data =
      some (cstr (asyncMessage path ip port data)) := by
  have hok : startsWith (lit "PATH_OK") (cstr (pathOk st (lit "-a") i)) = true := rfl
  have hheader : writeHeader (cstr (pathOk st (lit "-a") i)) path ip port =
      some (lit "WRITE_ASYNC|" ++ path ++ lit "|" ++ ip ++ lit "|" ++ port ++ lit "|") := rfl
  rw [writeMessage, if_pos hok, hheader]
  exact if_pos hsize

private theorem cstr_cstr (t : Text) : cstr (cstr t) = cstr t :=
  cstr_eq_self (fun h ↦ by simpa using List.mem_takeWhile_imp h)

private theorem mem_of_mem_tokens {d b : UInt8} {s w : Text} (hw : w ∈ tokens d s) (hb : b ∈ w) :
    b ∈ s :=
  (infix_of_mem_splitOn (List.mem_of_mem_filter hw)).subset hb

/-- What a storage server takes from a C string has none of the bytes it is split at. -/
private theorem plain_of_mem_tokens {s w : Text} (h : w ∈ tokens bar (cstr s)) :
    bar ∉ w ∧ w ≠ [] ∧ 0 ∉ w := by
  refine ⟨notMem_of_mem_tokens h, ne_nil_of_mem_tokens h, fun h0 ↦ ?_⟩
  simpa using List.mem_takeWhile_imp (mem_of_mem_tokens h h0)

private theorem tokens_syncMessage (hpath : path ≠ []) (hpathBar : bar ∉ path) (hdata : data ≠ [])
    (hdataBar : bar ∉ data) :
    tokens bar (syncMessage path data) = [lit "WRITE_SYNC", path, data] := by
  have hsplit : syncMessage path data = lit "WRITE_SYNC" ++ bar :: (path ++ bar :: data) := by
    simp [syncMessage, lit, bar]
  rw [hsplit, tokens_append_cons, tokens_append_cons, tokens_of_notMem hpathBar hpath,
    tokens_of_notMem hdataBar hdata, tokens_of_notMem (by decide) (by decide)]
  rfl

private theorem tokens_asyncMessage (hpath : path ≠ []) (hpathBar : bar ∉ path) (hip : IsField ip)
    (hport : IsField port) (hdata : data ≠ []) (hdataBar : bar ∉ data) :
    tokens bar (asyncMessage path ip port data) = [lit "WRITE_ASYNC", path, ip, port, data] := by
  have hsplit : asyncMessage path ip port data =
      lit "WRITE_ASYNC" ++ bar :: (path ++ bar :: (ip ++ bar :: (port ++ bar :: data))) := by
    simp [asyncMessage, lit, bar]
  rw [hsplit, tokens_append_cons, tokens_append_cons, tokens_append_cons, tokens_append_cons,
    tokens_of_notMem hpathBar hpath, tokens_of_notMem hip.noBar hip.ne_nil,
    tokens_of_notMem hport.noBar hport.ne_nil, tokens_of_notMem hdataBar hdata,
    tokens_of_notMem (by decide) (by decide)]
  rfl

/-- A write that comes through has data without bars and NULs, and fits the servers' buffers. -/
private theorem RoundTrips.encodable (h : RoundTrips st i path ip port data)
    (hpath : 0 ∉ path) (hip : IsField ip) (hport : IsField port)
    (hsize : (asyncMessage path ip port data).length < maxWrite) :
    bar ∉ path ∧ bar ∉ data ∧ data ≠ [] ∧ 0 ∉ data ∧
      (asyncMessage path ip port data).length < bufferSize := by
  obtain ⟨sent, buffer, line, hsent, hreceived, hdecoded, -, -⟩ := h.async
  rw [writeMessage_async hsize, Option.some.injEq] at hsent
  subst hsent
  unfold receiveWhole at hreceived
  split at hreceived
  · next hshort =>
    rw [cstr_cstr, Option.some.injEq] at hreceived
    subst hreceived
    have hfields := hdecoded.fields
    simp only [asyncFields, Option.pure_def, Option.bind_eq_bind, Option.bind_eq_some_iff,
      Option.some.injEq, Prod.mk.injEq] at hfields
    obtain ⟨p, hp, a, -, q, -, d, hd, rfl, -, -, rfl⟩ := hfields
    obtain ⟨hpathBar, -, -⟩ := plain_of_mem_tokens (List.mem_of_getElem? hp)
    obtain ⟨hdataBar, hdata, hnul⟩ := plain_of_mem_tokens (List.mem_of_getElem? hd)
    refine ⟨hpathBar, hdataBar, hdata, hnul, ?_⟩
    have hwhole : 0 ∉ asyncMessage p ip port d := by
      simp only [asyncMessage, List.mem_append, not_or]
      exact ⟨⟨⟨⟨⟨⟨⟨by decide, hpath⟩, by decide⟩, hip.noNul⟩, by decide⟩, hport.noNul⟩, by decide⟩,
        hnul⟩
    rwa [cstr_eq_self hwhole] at hshort
  · cases hreceived

private theorem receiveWhole_eq {t : Text} (hshort : t.length < bufferSize) (hnul : 0 ∉ t) :
    receiveWhole t = some t := by
  rw [receiveWhole, if_pos hshort, cstr_eq_self hnul]

/-- The notification of an asynchronous write names the path, which has no blank. -/
private theorem notifiedPath_asyncNotice (hpath : path ≠ []) (hblank : blank ∉ path)
    (hshort : (asyncMessage path ip port data).length < bufferSize) :
    notifiedPath (asyncNotice path ip port) = some path := by
  have hclip : asyncNotice path ip port =
      lit "writeasync" ++ blank :: (path ++ blank :: (ip ++ lit " " ++ port ++ lit "\n")) := by
    have hsplit : lit "writeasync " ++ path ++ lit " " ++ ip ++ lit " " ++ port ++ lit "\n" =
        lit "writeasync" ++ blank :: (path ++ blank :: (ip ++ lit " " ++ port ++ lit "\n")) := by
      simp [lit, blank]
    rw [asyncNotice, hsplit]
    apply List.take_of_length_le
    simp [asyncMessage, lit] at hshort ⊢
    omega
  have hsync : startsWith (lit "WRITE_SYNC") (asyncNotice path ip port) = false := by
    rw [hclip]
    rfl
  have hasync : startsWith (lit "writeasync") (asyncNotice path ip port) = true := by
    rw [hclip]
    rfl
  rw [notifiedPath, if_neg (by simp [hsync]), if_pos hasync, hclip, words, tokens_append_cons,
    tokens_append_cons, tokens_of_notMem (by decide) (by decide), tokens_of_notMem hblank hpath]
  rfl

/-- Writes decode to what was encoded exactly if neither the path nor the data has a bar, there
are data without a NUL, and the message is shorter than the buffers that receive it. -/
theorem writes_round_trip_iff (hpath : path ≠ []) (hblank : blank ∉ path) (hnul : 0 ∉ path)
    (hip : IsField ip) (hport : IsField port)
    (hsize : (asyncMessage path ip port data).length < maxWrite) :
    RoundTrips st i path ip port data ↔
      bar ∉ path ∧ bar ∉ data ∧ data ≠ [] ∧ 0 ∉ data ∧
        (asyncMessage path ip port data).length < bufferSize := by
  refine ⟨fun h ↦ h.encodable hnul hip hport hsize, ?_⟩
  rintro ⟨hpathBar, hdataBar, hdata, hdataNul, hshort⟩
  have hlengths : (syncMessage path data).length < (asyncMessage path ip port data).length := by
    simp [syncMessage, asyncMessage, lit]
    omega
  have hsyncNul : 0 ∉ syncMessage path data := by
    simp only [syncMessage, List.mem_append, not_or]
    exact ⟨⟨⟨by decide, hnul⟩, by decide⟩, hdataNul⟩
  have hasyncNul : 0 ∉ asyncMessage path ip port data := by
    simp only [asyncMessage, List.mem_append, not_or]
    exact ⟨⟨⟨⟨⟨⟨⟨by decide, hnul⟩, by decide⟩, hip.noNul⟩, by decide⟩, hport.noNul⟩, by decide⟩,
      hdataNul⟩
  have hnoticeNul : 0 ∉ asyncNotice path ip port := by
    intro h0
    have hnone : 0 ∉ lit "writeasync " ++ path ++ lit " " ++ ip ++ lit " " ++ port ++ lit "\n" := by
      simp only [List.mem_append, not_or]
      exact ⟨⟨⟨⟨⟨⟨by decide, hnul⟩, by decide⟩, hip.noNul⟩, by decide⟩, hport.noNul⟩, by decide⟩
    exact hnone (List.mem_of_mem_take h0)
  have hnoticeShort : (asyncNotice path ip port).length < bufferSize := by
    rw [asyncNotice, clip, List.length_take]
    simp only [bufferSize]
    omega
  constructor
  · have htokens := tokens_syncMessage hpath hpathBar hdata hdataBar
    have hreceived := receiveWhole_eq (by omega) hsyncNul
    refine ⟨_, _, _, ?_, hreceived, syncDecoded_of_fields ?_, hreceived, acknowledged_of_notified ?_⟩
    · rw [writeMessage_sync (by omega), cstr_eq_self hsyncNul]
    · rw [syncFields, htokens]
      rfl
    · have hstart : startsWith (lit "WRITE_SYNC") (syncMessage path data) = true := rfl
      rw [notifiedPath, if_pos hstart, htokens]
      rfl
  · have htokens := tokens_asyncMessage hpath hpathBar hip hport hdata hdataBar
    refine ⟨_, _, _, ?_, receiveWhole_eq hshort hasyncNul, asyncDecoded_of_fields ?_,
      receiveWhole_eq hnoticeShort hnoticeNul, acknowledged_of_notified ?_⟩
    · rw [writeMessage_async hsize, cstr_eq_self hasyncNul]
    · rw [asyncFields, htokens]
      rfl
    · exact notifiedPath_asyncNotice hpath hblank hshort

end RoundTrips

/-- A server that is up. -/
private def oneServer : NsState :=
  ⟨[⟨4, lit "10.0.0.1", 4000, Trie.createNode (lit "."), none, none, true⟩], 1, []⟩

private theorem isField_ip : IsField (lit "10.0.0.9") := ⟨by decide, by decide, by decide, by decide⟩

private theorem isField_port : IsField (lit "5000") := ⟨by decide, by decide, by decide, by decide⟩

theorem writes_round_trip_plain :
    RoundTrips oneServer 0 (lit "./s/f") (lit "10.0.0.9") (lit "5000") (lit "hello world") :=
  (writes_round_trip_iff (by decide) (by decide) (by decide) isField_ip isField_port
    (by decide)).mpr ⟨by decide, by decide, by decide, by decide, by decide⟩

/-- The data `a|b` end at the bar. -/
theorem data_end_at_bar :
    ¬ RoundTrips oneServer 0 (lit "./s/f") (lit "10.0.0.9") (lit "5000") (lit "a|b") ∧
      syncFields (syncMessage (lit "./s/f") (lit "a|b")) = some (lit "./s/f", lit "a") := by
  refine ⟨fun h ↦ ?_, by decide⟩
  exact absurd (h.encodable (by decide) isField_ip isField_port (by decide)).2.1 (by decide)

end NetworkFileSystem.Client
