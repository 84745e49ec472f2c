import NetworkFileSystem.Naming.Traces

/-!
# The runs of reads, writes and copies

`naming_server.c:587–713,739–826,1059–1130`. The same for the remaining handlers, and
for one round of `process_client` as a whole.
-/

namespace NetworkFileSystem.Naming

open Base Protocol Trie Prog

/-! ### Reads and writes -/

/-- The event of a ping that was answered. -/
def answered (b : Nat) : NsEvent := ⟨.ping b, PingResult.up⟩

private theorem answered_inj {a b : Nat} : answered a = answered b ↔ a = b := by
  simp [answered]

private theorem exec_tryBackup {st : NsState} {backup : Option Nat} {tr : List NsEvent}
    {out : Option (Bool × NsState)} (h : Exec (redundantSs.tryBackup st backup) tr out) :
    Pings tr ∧ ∃ up st', out = some (up, st') ∧ st'.frozen = st.frozen ∧ st'.cache = st.cache ∧
      ((up = true ∧ ∃ b, backup = some b ∧ tr = [answered b]) ∨
        (up = false ∧ ∀ b, answered b ∉ tr)) := by
  cases backup with
  | none =>
    obtain ⟨rfl, rfl⟩ := h
    exact ⟨by simp [Pings], false, st, rfl, rfl, rfl, .inr ⟨rfl, by simp⟩⟩
  | some b =>
    obtain ⟨r, rest, rfl, rfl, rfl⟩ := exec_isSsUp.mp h
    refine ⟨by simp [Pings, NsOp.isPing], _, _, rfl, by simp, by simp, ?_⟩
    by_cases hr : r = PingResult.up
    · subst hr
      exact .inl ⟨rfl, b, rfl, rfl⟩
    · refine .inr ⟨by simpa using hr, fun b' hb' ↦ hr ?_⟩
      simp only [answered, List.mem_singleton, Sigma.mk.injEq, NsOp.ping.injEq] at hb'
      obtain ⟨rfl, hb'⟩ := hb'
      exact (eq_of_heq hb').symm

/-- The search for a replica pings until a server answers, and returns that server. -/
theorem exec_redundantSs {st : NsState} {i : Nat} {tr : List NsEvent}
    {out : Option (Option Nat × NsState)} (h : Exec (redundantSs st i) tr out) :
    Pings tr ∧ ∃ k st', out = some (k, st') ∧ st'.frozen = st.frozen ∧ st'.cache = st.cache ∧
      ∀ b, answered b ∈ tr ↔ k = some b := by
  unfold redundantSs at h
  obtain ⟨r, rest, rfl, h₁⟩ := exec_isSsUp.mp h
  by_cases hr : r = PingResult.up
  · subst hr
    obtain ⟨rfl, rfl⟩ := h₁
    refine ⟨by simp [Pings, NsOp.isPing], _, _, rfl, by simp, by simp, fun b ↦ ?_⟩
    simp [answered, eq_comm]
  · have hno : ∀ b, answered b ≠ ⟨.ping i, r⟩ := by
      intro b hb
      simp only [answered, Sigma.mk.injEq, NsOp.ping.injEq] at hb
      obtain ⟨rfl, hb⟩ := hb
      exact hr (eq_of_heq hb).symm
    simp only [hr, decide_false, Bool.false_eq_true, if_false] at h₁
    obtain ⟨hx, rfl⟩ | ⟨⟨up, st₂⟩, tr₂, tr₃, rfl, hx, h₂⟩ := exec_bind.mp h₁
    · obtain ⟨-, _, _, hout, -⟩ := exec_tryBackup hx
      cases hout
    obtain ⟨hp₂, _, _, hout, hf₂, hc₂, hup₂⟩ := exec_tryBackup hx
    cases hout
    obtain ⟨rfl, b₁, hb₁, rfl⟩ | ⟨rfl, hno₂⟩ := hup₂
    · obtain ⟨rfl, rfl⟩ := h₂
      refine ⟨by simp [Pings, NsOp.isPing, answered], _, _, rfl, by simpa using hf₂,
        by simpa using hc₂, fun b ↦ ?_⟩
      rw [backupServer1_of_frozen hf₂, hb₁]
      simp [hno, answered_inj, eq_comm]
    · simp only [Bool.false_eq_true, if_false] at h₂
      obtain ⟨hx, rfl⟩ | ⟨⟨up, st₃⟩, tr₄, tr₅, rfl, hx, h₃⟩ := exec_bind.mp h₂
      · obtain ⟨-, _, _, hout, -⟩ := exec_tryBackup hx
        cases hout
      obtain ⟨hp₃, _, _, hout, hf₃, hc₃, hup₃⟩ := exec_tryBackup hx
      cases hout
      have hpings : Pings (⟨.ping i, r⟩ :: (tr₂ ++ tr₄)) := by
        simp only [Pings, List.mem_cons, List.mem_append]
        rintro e (rfl | he | he)
        · rfl
        · exact hp₂ e he
        · exact hp₃ e he
      obtain ⟨rfl, b₂, hb₂, rfl⟩ | ⟨rfl, hno₃⟩ := hup₃
      · obtain ⟨rfl, rfl⟩ := h₃
        refine ⟨by simpa using hpings, _, _, rfl, by simpa using hf₃.trans hf₂,
          by simpa using hc₃.trans hc₂, fun b ↦ ?_⟩
        rw [backupServer2_of_frozen hf₃, hb₂]
        simp [hno, hno₂, answered_inj, eq_comm]
      · obtain ⟨rfl, rfl⟩ := h₃
        refine ⟨by simpa using hpings, _, _, rfl, by simpa using hf₃.trans hf₂,
          by simpa using hc₃.trans hc₂, fun b ↦ ?_⟩
        simp [hno, hno₂, hno₃]

/-- The runs of `locate`: `t` is the trace of the lookup, `t₂` that of the search for a
replica. -/
inductive LocateRun (st : NsState) (path : Text) : List NsEvent → Option NsState → Prop where
  | overruns : st.LookupOverruns path → LocateRun st path [] none
  | unknown {t : List NsEvent} {st₁ : NsState} {ok : Bool} :
      Exec (searchStorageServer st path) t (some (none, st₁)) →
      LocateRun st path (t ++ [⟨.sendClient notFound, ok⟩]) (some st₁)
  | found {t : List NsEvent} {i : Nat} {st₁ : NsState} {ok : Bool} :
      Exec (searchStorageServer st path) t (some (some i, st₁)) → st₁.isUp i = true →
      LocateRun st path (t ++ [⟨.sendClient (serverAddress st₁ i), ok⟩]) (some st₁)
  | backAgain {t t₂ : List NsEvent} {i : Nat} {st₁ st₂ : NsState} {ok : Bool} :
      Exec (searchStorageServer st path) t (some (some i, st₁)) → st₁.isUp i = false →
      Exec (redundantSs st₁ i) t₂ (some (some i, st₂)) →
      LocateRun st path (t ++ t₂ ++ [⟨.sendClient (serverAddress st₂ i), ok⟩]) (some st₂)
  | replica {t t₂ : List NsEvent} {i b : Nat} {st₁ st₂ : NsState} {name : Text} {ok : Bool} :
      Exec (searchStorageServer st path) t (some (some i, st₁)) → st₁.isUp i = false →
      Exec (redundantSs st₁ i) t₂ (some (some b, st₂)) → b ≠ i → st₂.rootName b = some name →
      LocateRun st path (t ++ t₂ ++ [⟨.sendClient (backupAddress st₂ b name), ok⟩]) (some st₂)
  | rootless {t t₂ : List NsEvent} {i b : Nat} {st₁ st₂ : NsState} :
      Exec (searchStorageServer st path) t (some (some i, st₁)) → st₁.isUp i = false →
      Exec (redundantSs st₁ i) t₂ (some (some b, st₂)) → b ≠ i → st₂.rootName b = none →
      LocateRun st path (t ++ t₂) none
  | lost {t t₂ : List NsEvent} {i : Nat} {st₁ st₂ : NsState} :
      Exec (searchStorageServer st path) t (some (some i, st₁)) → st₁.isUp i = false →
      Exec (redundantSs st₁ i) t₂ (some (none, st₂)) →
      LocateRun st path (t ++ t₂) none

/-- Every execution of `locate` is one of the listed runs. -/
theorem exec_locate {st : NsState} {path : Text} {tr : List NsEvent} {out : Option NsState}
    (h : Exec (locate st path) tr out) : LocateRun st path tr out := by
  unfold locate at h
  obtain ⟨hs, rfl⟩ | ⟨⟨k, st₁⟩, t, tr₁, rfl, hs, h₁⟩ := exec_bind.mp h
  · obtain ⟨ho, rfl, -⟩ | ⟨-, -, -, -, hout⟩ | ⟨_, _, -, -, -, hout⟩ :=
      exec_searchStorageServer hs
    · exact .overruns ho
    · cases hout
    · cases hout
  · cases k with
    | none =>
      obtain ⟨ok, rest, rfl, rfl, rfl⟩ := exec_reply.mp h₁
      exact .unknown hs
    | some i =>
      simp only at h₁
      split at h₁
      · next hup =>
        obtain ⟨ok, rest, rfl, rfl, rfl⟩ := exec_reply.mp h₁
        exact .found hs hup
      · next hup =>
        have hdown : st₁.isUp i = false := Bool.eq_false_iff.mpr hup
        obtain ⟨hx, rfl⟩ | ⟨⟨k, st₂⟩, t₂, tr₂, rfl, hx, h₂⟩ := exec_bind.mp h₁
        · obtain ⟨-, _, _, hout, -⟩ := exec_redundantSs hx
          cases hout
        cases k with
        | none =>
          obtain ⟨rfl, rfl⟩ := h₂
          simpa using LocateRun.lost hs hdown hx
        | some b =>
          simp only at h₂
          split at h₂
          · next hb =>
            subst hb
            obtain ⟨ok, rest, rfl, rfl, rfl⟩ := exec_reply.mp h₂
            simpa using LocateRun.backAgain hs hdown hx
          · next hb =>
            cases hn : st₂.rootName b with
            | none =>
              rw [hn] at h₂
              obtain ⟨rfl, rfl⟩ := h₂
              simpa using LocateRun.rootless hs hdown hx hb hn
            | some name =>
              rw [hn] at h₂
              obtain ⟨ok, rest, rfl, rfl, rfl⟩ := exec_reply.mp h₂
              simpa using LocateRun.replica hs hdown hx hb hn

/-- The runs of `writeRequest`. -/
inductive WriteRun (st : NsState) (flag : Text) :
    Option Text → List NsEvent → Option NsState → Prop where
  | pathless : WriteRun st flag none [] none
  | overruns {path : Text} : st.LookupOverruns path → WriteRun st flag (some path) [] none
  | unknown {path : Text} {t : List NsEvent} {k : Option Nat} {st₁ : NsState} {ok : Bool} :
      Exec (searchStorageServer st path) t (some (k, st₁)) → k.all (fun i ↦ !st₁.isUp i) = true →
      WriteRun st flag (some path) (t ++ [⟨.sendClient notFound, ok⟩]) (some st₁)
  | found {path : Text} {t : List NsEvent} {i : Nat} {st₁ : NsState} {ok : Bool} :
      Exec (searchStorageServer st path) t (some (some i, st₁)) → st₁.isUp i = true →
      WriteRun st flag (some path) (t ++ [⟨.sendClient (pathOk st₁ flag i), ok⟩]) (some st₁)

/-- Every execution of `writeRequest` is one of the listed runs. -/
theorem exec_writeRequest {st : NsState} {flag : Text} {path : Option Text} {tr : List NsEvent}
    {out : Option NsState} (h : Exec (writeRequest st flag path) tr out) :
    WriteRun st flag path tr out := by
  unfold writeRequest at h
  cases path with
  | none =>
    obtain ⟨rfl, rfl⟩ := h
    exact .pathless
  | some path =>
    change Exec (searchStorageServer st path >>= _) tr out at h
    obtain ⟨hs, rfl⟩ | ⟨⟨k, st₁⟩, t, tr₁, rfl, hs, h₁⟩ := exec_bind.mp h
    · obtain ⟨ho, rfl, -⟩ | ⟨-, -, -, -, hout⟩ | ⟨_, _, -, -, -, hout⟩ :=
        exec_searchStorageServer hs
      · exact .overruns ho
      · cases hout
      · cases hout
    · cases k with
      | none =>
        obtain ⟨ok, rest, rfl, rfl, rfl⟩ := exec_reply.mp h₁
        exact .unknown hs rfl
      | some i =>
        simp only at h₁
        split at h₁
        · next hup =>
          obtain ⟨ok, rest, rfl, rfl, rfl⟩ := exec_reply.mp h₁
          exact .found hs hup
        · next hup =>
          obtain ⟨ok, rest, rfl, rfl, rfl⟩ := exec_reply.mp h₁
          exact .unknown hs (by simpa using hup)

/-- A read pings and replies. -/
theorem LocateRun.offLink {st : NsState} {path : Text} {tr : List NsEvent}
    {out : Option NsState} (h : LocateRun st path tr out) : OffLink tr := by
  cases h with
  | overruns _ => exact offLink_nil
  | unknown hl => exact (exec_lookup hl).1.offLink.append (offLink_sendClient _ _)
  | found hl _ => exact (exec_lookup hl).1.offLink.append (offLink_sendClient _ _)
  | backAgain hl _ hr =>
    exact ((exec_lookup hl).1.append (exec_redundantSs hr).1).offLink.append (offLink_sendClient _ _)
  | replica hl _ hr _ _ =>
    exact ((exec_lookup hl).1.append (exec_redundantSs hr).1).offLink.append (offLink_sendClient _ _)
  | rootless hl _ hr _ _ => exact ((exec_lookup hl).1.append (exec_redundantSs hr).1).offLink
  | lost hl _ hr => exact ((exec_lookup hl).1.append (exec_redundantSs hr).1).offLink

/-- So does the first part of a write. -/
theorem WriteRun.offLink {st : NsState} {flag : Text} {path : Option Text} {tr : List NsEvent}
    {out : Option NsState} (h : WriteRun st flag path tr out) : OffLink tr := by
  cases h with
  | pathless => exact offLink_nil
  | overruns _ => exact offLink_nil
  | unknown hl _ => exact (exec_lookup hl).1.offLink.append (offLink_sendClient _ _)
  | found hl _ => exact (exec_lookup hl).1.offLink.append (offLink_sendClient _ _)

/-- A listing is sent to the client. -/
theorem listAll_offLink {st : NsState} {tr : List NsEvent} {out : Option NsState}
    (h : Exec (listAll st) tr out) : OffLink tr := by
  have honly : (listAll st).Only (fun o ↦ o.isClientSend = true) := by
    unfold listAll
    split
    · refine only_bind (only_performAll (fun p hp ↦ ?_)) (fun _ ↦ ⟨rfl, fun _ ↦ trivial⟩)
      obtain ⟨root, -, rfl⟩ := List.mem_map.mp hp
      cases exportedFolder root with
      | none => trivial
      | some folder => exact only_printSlotNetwork _ _ folder
    · trivial
  intro e he
  obtain ⟨o, r⟩ := e
  have ho := honly.exec h _ he
  cases o with
  | sendClient msg => rfl
  | _ => cases ho

/-! ### Copies -/

/-- The tables behind the new index of server `j`. -/
def NsState.withRoot (st : NsState) (j : Nat) (root : TrieNode) : NsState :=
  st.modifyServer j (fun info ↦ { info with root := root })

/-- The runs of `performCopy` from server `i` to server `j`. -/
inductive PerformCopyRun (st : NsState) (line src dest : Text) (i j : Nat) :
    List NsEvent → Option NsState → Prop where
  | overlong : copyCommand st line i j = none → PerformCopyRun st line src dest i j [] none
  | unsent {msg : Text} : copyCommand st line i j = some msg →
      PerformCopyRun st line src dest i j [⟨.forward i msg, false⟩] (some st)
  | unanswered {msg : Text} : copyCommand st line i j = some msg →
      PerformCopyRun st line src dest i j [⟨.forward i msg, true⟩, ⟨.recvServer i, none⟩] (some st)
  | unterminated {msg bytes : Text} : copyCommand st line i j = some msg →
      bufferSize ≤ bytes.length → PerformCopyRun st line src dest i j
        [⟨.forward i msg, true⟩, ⟨.recvServer i, some bytes⟩] none
  | clientGone {msg bytes : Text} : copyCommand st line i j = some msg →
      bytes.length < bufferSize → PerformCopyRun st line src dest i j
        [⟨.forward i msg, true⟩, ⟨.recvServer i, some bytes⟩,
          ⟨.sendClient (cstr bytes), false⟩] (some st)
  | badIndex {msg bytes : Text} {ok : Bool} {segments : List Text} :
      copyCommand st line i j = some msg → bytes.length < bufferSize →
      indexHelper segments [] (createNode (lit ".")) = none →
      PerformCopyRun st line src dest i j [⟨.forward i msg, true⟩, ⟨.recvServer i, some bytes⟩,
        ⟨.sendClient (cstr bytes), true⟩, ⟨.reindex j, ok⟩, ⟨.recvIndex j, segments⟩] none
  | reindexed {msg bytes : Text} {ok finished : Bool} {segments : List Text} {root : TrieNode}
      {t : List NsEvent} {out : Option NsState} :
      copyCommand st line i j = some msg → bytes.length < bufferSize →
      indexHelper segments [] (createNode (lit ".")) = some (root, finished) →
      Exec (do
        let st₁ ← replicateTo (st.withRoot j root) (fun _ ↦ j)
          (backupCopyCommand (st.withRoot j root) line src dest)
          ((st.withRoot j root).backupServer1 j)
        replicateTo st₁ (fun _ ↦ j) (backupCopyCommand (st.withRoot j root) line src dest)
          ((st.withRoot j root).backupServer2 j)) t out →
      PerformCopyRun st line src dest i j ([⟨.forward i msg, true⟩, ⟨.recvServer i, some bytes⟩,
        ⟨.sendClient (cstr bytes), true⟩, ⟨.reindex j, ok⟩, ⟨.recvIndex j, segments⟩] ++ t) out

/-- Every execution of `performCopy` is one of the listed runs. -/
theorem exec_performCopy {st : NsState} {line src dest : Text} {i j : Nat} {tr : List NsEvent}
    {out : Option NsState} (h : Exec (performCopy st line src dest i j) tr out) :
    PerformCopyRun st line src dest i j tr out := by
  unfold performCopy at h
  obtain ⟨hm, rfl, rfl⟩ | ⟨msg, hm, h₁⟩ := exec_ofOption_bind.mp h
  · exact .overlong hm
  obtain ⟨sent, rest, rfl, h₂⟩ := exec_forward.mp h₁
  cases sent with
  | false =>
    obtain ⟨rfl, rfl⟩ := h₂
    exact .unsent hm
  | true =>
    obtain ⟨r, rest, rfl, h₃⟩ := exec_recvServer.mp h₂
    cases r with
    | none =>
      obtain ⟨rfl, rfl⟩ := h₃
      exact .unanswered hm
    | some bytes =>
      simp only at h₃
      split at h₃
      · next hlen =>
        obtain ⟨rfl, rfl⟩ := h₃
        exact .unterminated hm hlen
      · next hlen =>
        have hlt : bytes.length < bufferSize := Nat.lt_of_not_le hlen
        obtain ⟨ok, rest, rfl, h₄⟩ := exec_sendClient.mp h₃
        cases ok with
        | false =>
          obtain ⟨rfl, rfl⟩ := h₄
          exact .clientGone hm hlt
        | true =>
          obtain ⟨ok, rest, rfl, h₅⟩ := exec_reindex.mp h₄
          obtain ⟨segments, rest, rfl, h₆⟩ := exec_recvIndex.mp h₅
          obtain ⟨hi, rfl, rfl⟩ | ⟨⟨root, finished⟩, hi, h₇⟩ := exec_ofOption_bind.mp h₆
          · exact .badIndex hm hlt hi
          · exact .reindexed hm hlt hi h₇

/-- The runs of `handleCopyRequest`. -/
inductive CopyRun (st : NsState) (line : Text) : List NsEvent → Option NsState → Prop where
  | incomplete {ok : Bool} : (words line).length < 3 → CopyRun st line
      [⟨.sendClient (lit "Invalid request. Source or destination path missing."), ok⟩] (some st)
  | invalid {verb src dest : Text} {rest : List Text} {ok : Bool} :
      words line = verb :: src :: dest :: rest → (isTopWord src || isTopWord dest) = true →
      CopyRun st line
        [⟨.sendClient (lit "Invalid source or destination path."), ok⟩] (some st)
  | overrunsSrc {verb src dest : Text} {rest : List Text} :
      words line = verb :: src :: dest :: rest → (isTopWord src || isTopWord dest) = false →
      st.LookupOverruns src → CopyRun st line [] none
  | overrunsDest {verb src dest : Text} {rest : List Text} {t : List NsEvent} {i : Option Nat}
      {st₁ : NsState} : words line = verb :: src :: dest :: rest →
      (isTopWord src || isTopWord dest) = false →
      Exec (searchStorageServer st src) t (some (i, st₁)) → st₁.LookupOverruns dest →
      CopyRun st line t none
  | unknown {verb src dest : Text} {rest : List Text} {t₁ t₂ : List NsEvent} {i j : Option Nat}
      {st₁ st₂ : NsState} {ok : Bool} : words line = verb :: src :: dest :: rest →
      (isTopWord src || isTopWord dest) = false →
      Exec (searchStorageServer st src) t₁ (some (i, st₁)) →
      Exec (searchStorageServer st₁ dest) t₂ (some (j, st₂)) →
      (i.any st₂.isUp && j.any st₂.isUp) = false →
      CopyRun st line (t₁ ++ t₂ ++ [⟨.sendClient (notFound ++ [0]), ok⟩]) (some st₂)
  | performed {verb src dest : Text} {rest : List Text} {t₁ t₂ t₃ : List NsEvent} {i j : Nat}
      {st₁ st₂ : NsState} {out : Option NsState} :
      words line = verb :: src :: dest :: rest → (isTopWord src || isTopWord dest) = false →
      Exec (searchStorageServer st src) t₁ (some (some i, st₁)) →
      Exec (searchStorageServer st₁ dest) t₂ (some (some j, st₂)) →
      (st₂.isUp i && st₂.isUp j) = true →
      PerformCopyRun st₂ line src dest i j t₃ out → CopyRun st line (t₁ ++ t₂ ++ t₃) out

/-- Every execution of `handleCopyRequest` is one of the listed runs. -/
theorem exec_handleCopyRequest {st : NsState} {line : Text} {tr : List NsEvent}
    {out : Option NsState} (h : Exec (handleCopyRequest st line) tr out) :
    CopyRun st line tr out := by
  unfold handleCopyRequest at h
  split at h
  · next verb src dest more hw =>
    split at h
    · next htop =>
      obtain ⟨ok, rest, rfl, rfl, rfl⟩ := exec_reply.mp h
      exact .invalid hw htop
    · next htop =>
      have htop' := Bool.eq_false_iff.mpr htop
      obtain ⟨hs, rfl⟩ | ⟨⟨i, st₁⟩, t₁, tr₁, rfl, hs, h₁⟩ := exec_bind.mp h
      · obtain ⟨ho, rfl, -⟩ | ⟨-, -, -, -, hout⟩ | ⟨_, _, -, -, -, hout⟩ :=
          exec_searchStorageServer hs
        · exact .overrunsSrc hw htop' ho
        · cases hout
        · cases hout
      obtain ⟨hd, rfl⟩ | ⟨⟨j, st₂⟩, t₂, tr₂, rfl, hd, h₂⟩ := exec_bind.mp h₁
      · obtain ⟨ho, rfl, -⟩ | ⟨-, -, -, -, hout⟩ | ⟨_, _, -, -, -, hout⟩ :=
          exec_searchStorageServer hd
        · simpa using CopyRun.overrunsDest hw htop' hs ho
        · cases hout
        · cases hout
      simp only at h₂
      split at h₂
      · split at h₂
        · next hup =>
          have h₃ := CopyRun.performed hw htop' hs hd hup (exec_performCopy h₂)
          simpa using h₃
        · next hup =>
          obtain ⟨ok, rest, rfl, rfl, rfl⟩ := exec_reply.mp h₂
          simpa using @CopyRun.unknown _ _ _ _ _ _ _ _ _ _ _ _ ok hw htop' hs hd (Bool.eq_false_iff.mpr hup)
      · next hnone =>
        obtain ⟨ok, rest, rfl, rfl, rfl⟩ := exec_reply.mp h₂
        have hup : (i.any st₂.isUp && j.any st₂.isUp) = false := by
          cases i with
          | none => rfl
          | some i =>
            cases j with
            | none => exact Bool.and_false _
            | some j => exact absurd rfl (hnone i j rfl)
        simpa using @CopyRun.unknown _ _ _ _ _ _ _ _ _ _ _ _ ok hw htop' hs hd hup
  · next hw =>
    obtain ⟨ok, rest, rfl, rfl, rfl⟩ := exec_reply.mp h
    refine .incomplete ?_
    match hline : words line with
    | [] => simp
    | [_] => simp
    | [_, _] => simp
    | a :: b :: c :: l => exact absurd hline (hw a b c l)

/-! ### One round of the loop -/

/-- The lines that ask for the listing of all servers. -/
def isListing (line : Text) : Bool := line == lit "ls ~" || line == lit "ls ."

/-- The runs of `processClient`. -/
inductive ClientRun (st : NsState) (line : Text) : List NsEvent → Option NsState → Prop where
  | listing {tr : List NsEvent} {out : Option NsState} : isListing line = true →
      Exec (listAll st) tr out → ClientRun st line tr out
  | copy {tr : List NsEvent} {out : Option NsState} : isListing line = false →
      startsWith (lit "copy") line = true → CopyRun st line tr out → ClientRun st line tr out
  | pathless {ok : Bool} : isListing line = false → startsWith (lit "copy") line = false →
      (∀ command path rest, words line = command :: path :: rest → isTopWord path = true) →
      ClientRun st line [⟨.sendClient notFound, ok⟩] (some st)
  | writeStops {command path : Text} {rest : List Text} {tr : List NsEvent} :
      isListing line = false → startsWith (lit "copy") line = false →
      words line = command :: path :: rest → isTopWord path = false →
      startsWith (lit "write") line = true →
      WriteRun st path rest.head? tr none → ClientRun st line tr none
  | write {command path : Text} {rest : List Text} {t tr : List NsEvent} {st₁ : NsState}
      {out : Option NsState} :
      isListing line = false → startsWith (lit "copy") line = false →
      words line = command :: path :: rest → isTopWord path = false →
      startsWith (lit "write") line = true →
      WriteRun st path rest.head? t (some st₁) → LocateRun st₁ path tr out →
      ClientRun st line (t ++ tr) out
  | make {command path : Text} {rest : List Text} {tr : List NsEvent} {out : Option NsState} :
      isListing line = false → startsWith (lit "copy") line = false →
      words line = command :: path :: rest → isTopWord path = false →
      startsWith (lit "write") line = false →
      (command = lit "mkdir" ∨ command = lit "touch") →
      EntryRun (makeChange path) st line command path tr out → ClientRun st line tr out
  | remove {command path : Text} {rest : List Text} {tr : List NsEvent} {out : Option NsState} :
      isListing line = false → startsWith (lit "copy") line = false →
      words line = command :: path :: rest → isTopWord path = false →
      startsWith (lit "write") line = false →
      (command = lit "rmdir" ∨ command = lit "rm") →
      EntryRun (removeChange path) st line command path tr out → ClientRun st line tr out
  | read {command path : Text} {rest : List Text} {tr : List NsEvent} {out : Option NsState} :
      isListing line = false → startsWith (lit "copy") line = false →
      words line = command :: path :: rest → isTopWord path = false →
      startsWith (lit "write") line = false →
      ¬ (command = lit "mkdir" ∨ command = lit "touch") →
      ¬ (command = lit "rmdir" ∨ command = lit "rm") →
      LocateRun st path tr out → ClientRun st line tr out

/-- The first word of a line starts with the verb that the line starts with. -/
theorem startsWith_of_words {p line command : Text} {rest : List Text} (hp : blank ∉ p)
    (hne : p ≠ []) (h : startsWith p line = true) (hw : words line = command :: rest) :
    startsWith p command = true := by
  obtain ⟨t, rfl⟩ := List.isPrefixOf_iff_prefix.mp h
  obtain ⟨w, rest', ht⟩ := tokens_append_of_notMem (d := blank) hp hne t
  rw [words, ht, List.cons.injEq] at hw
  rw [← hw.1]
  exact List.isPrefixOf_iff_prefix.mpr ⟨w, rfl⟩

/-- Every execution of `processClient` is one of the listed runs. -/
theorem exec_processClient {st : NsState} {line : Text} {tr : List NsEvent}
    {out : Option NsState} (h : Exec (processClient st line) tr out) :
    ClientRun st line tr out := by
  unfold processClient at h
  split at h
  · next hls => exact .listing (by simpa [isListing] using hls) h
  · next hls =>
    have hls' : isListing line = false := by simpa [isListing] using hls
    split at h
    · next hcopy => exact .copy hls' hcopy (exec_handleCopyRequest h)
    · next hcopy =>
      have hcopy' : startsWith (lit "copy") line = false := by simpa using hcopy
      split at h
      · next command path rest hw =>
        split at h
        · next hpath =>
          obtain ⟨ok, t, rfl, rfl, rfl⟩ := exec_reply.mp h
          refine .pathless hls' hcopy' (fun c p r hw' ↦ ?_)
          rw [hw, List.cons.injEq, List.cons.injEq] at hw'
          exact hw'.2.1 ▸ hpath
        · next hpath =>
          have htop := Bool.eq_false_iff.mpr hpath
          by_cases hwrite : startsWith (lit "write") line = true
          · rw [if_pos hwrite] at h
            have hcmd := startsWith_of_words (by decide) (by decide) hwrite hw
            have hmake : ¬ (command = lit "mkdir" ∨ command = lit "touch") := by
              rintro (rfl | rfl) <;> revert hcmd <;> decide
            have hremove : ¬ (command = lit "rmdir" ∨ command = lit "rm") := by
              rintro (rfl | rfl) <;> revert hcmd <;> decide
            simp only [hmake, hremove, if_false] at h
            obtain ⟨hx, rfl⟩ | ⟨st₁, t, t', rfl, hx, h₁⟩ := exec_bind.mp h
            · exact .writeStops hls' hcopy' hw htop hwrite (exec_writeRequest hx)
            · exact .write hls' hcopy' hw htop hwrite (exec_writeRequest hx) (exec_locate h₁)
          · rw [if_neg hwrite] at h
            have hwrite' : startsWith (lit "write") line = false := by simpa using hwrite
            have hrest : Exec (if command = lit "mkdir" ∨ command = lit "touch" then
                makeEntry st line command path
              else if command = lit "rmdir" ∨ command = lit "rm" then
                removeEntry st line command path
              else locate st path) tr out := h
            split at hrest
            · next hc => exact .make hls' hcopy' hw htop hwrite' hc (exec_changeEntry hrest)
            · next hmake =>
              split at hrest
              · next hc => exact .remove hls' hcopy' hw htop hwrite' hc (exec_changeEntry hrest)
              · next hremove =>
                exact .read hls' hcopy' hw htop hwrite' hmake hremove (exec_locate hrest)
      · next hw =>
        obtain ⟨ok, t, rfl, rfl, rfl⟩ := exec_reply.mp h
        exact .pathless hls' hcopy' (fun c p r hw' ↦ absurd hw' (hw c p r))

end NetworkFileSystem.Naming
