import NetworkFileSystem.Client.Writes
import NetworkFileSystem.Naming.Replies
import NetworkFileSystem.Naming.Subscripts

/-!
# Where reads are sent

`naming_server.c:435–456,1059–1130,1187–1233`. A read follows the flag of the server that its
path resolves to, and where the flag is down, the pings of that server and its backups. The
result `-1` of the lookup or of the search for a replica is used as a subscript.
-/

namespace NetworkFileSystem.Naming

open Base Protocol Trie Prog

/-! ### Addresses -/

/-- `inet_ntoa` writes digits and dots. -/
def NsState.DottedAddresses (st : NsState) : Prop :=
  ∀ info ∈ st.storageServers, blank ∉ info.ip

section Addresses

variable {st st' : NsState}

theorem serverAddress_of_frozen (h : st'.frozen = st.frozen) (i : Nat) :
    serverAddress st' i = serverAddress st i := by
  have hs := skeleton_of_frozen h
  rw [serverAddress, ip_of_skeleton hs, portClient_of_skeleton hs, serverAddress]

theorem backupAddress_of_frozen (h : st'.frozen = st.frozen) (b : Nat) (name : Text) :
    backupAddress st' b name = backupAddress st b name := by
  have hs := skeleton_of_frozen h
  rw [backupAddress, ip_of_skeleton hs, portClient_of_skeleton hs, backupAddress]

theorem NsState.DottedAddresses.ip (h : st.DottedAddresses) (i : Nat) : blank ∉ st.ip i := by
  unfold NsState.ip
  cases hi : st.storageServers[i]? with
  | none => exact List.not_mem_nil
  | some info => exact h info (List.mem_of_getElem? hi)

/-- No address of a server starts with a word and a blank. -/
theorem serverAddress_ne (h : st.DottedAddresses) (i : Nat) {w t : Text} (hcomma : 44 ∉ w) :
    serverAddress st i ≠ w ++ blank :: t := by
  intro heq
  have hip := h.ip i
  have hpre : w ++ [blank] <+: st.ip i ++ 44 :: (decimal (st.portClient i) ++ lit " ") := by
    have hclip : clip bufferSize (st.ip i ++ lit "," ++ decimal (st.portClient i) ++ lit " ") <+:
        st.ip i ++ lit "," ++ decimal (st.portClient i) ++ lit " " := List.take_prefix _ _
    rw [show clip bufferSize (st.ip i ++ lit "," ++ decimal (st.portClient i) ++ lit " ") =
      w ++ blank :: t from heq] at hclip
    refine List.IsPrefix.trans ⟨t, by simp⟩ (hclip.trans ?_)
    simp [lit]
  obtain ⟨rest, hrest⟩ := hpre
  rw [List.append_assoc, List.append_eq_append_iff] at hrest
  obtain ⟨a, ha, hb⟩ | ⟨c, hc, hd⟩ := hrest
  · cases a with
    | nil => simp [blank] at hb
    | cons x a =>
      obtain ⟨rfl, -⟩ := List.cons.inj hb
      exact hip (ha ▸ List.mem_append_right _ List.mem_cons_self)
  · cases c with
    | nil => simp [blank] at hd
    | cons x c =>
      obtain ⟨rfl, -⟩ := List.cons.inj hd
      exact hcomma (hc ▸ List.mem_append_right _ List.mem_cons_self)

theorem serverAddress_ne_notFound (h : st.DottedAddresses) (i : Nat) :
    serverAddress st i ≠ notFound := by
  have hsplit : notFound = lit "Storage" ++ blank :: lit "server not found" := by decide
  rw [hsplit]
  exact serverAddress_ne h i (by decide)

theorem serverAddress_ne_backupAddress (h : st.DottedAddresses) (i b : Nat) (name : Text) :
    serverAddress st i ≠ backupAddress st b name := by
  have hsplit : backupAddress st b name = lit "Backup" ++ blank ::
      (st.ip b ++ lit "," ++ decimal (st.portClient b) ++ lit "," ++ name).take
        (bufferSize - 8) := by
    rw [backupAddress, clip, show lit "Backup " = lit "Backup" ++ [blank] by decide]
    simp [lit, bufferSize]
  rw [hsplit]
  exact serverAddress_ne h i (by decide)

end Addresses

/-! ### Reads -/

/-- The server that a command's path resolves to; the paths `/` and `./` are refused before. -/
def NsState.target (st : NsState) (path : Text) : Option Nat :=
  if isTopWord path then none else st.resolve path

/-- The reply that a read gets: the address of the server if it is reachable, else that of its
first reachable backup, if there is one. -/
def routedReply (st : NsState) (answers : Nat → PingResult) : Option Nat → Text
  | none => notFound
  | some i =>
    match firstReachable answers [some i, st.backupServer1 i, st.backupServer2 i] with
    | none => notFound
    | some b => if b = i then serverAddress st i else backupAddress st b ((st.rootName b).getD [])

/-- A read is routed: it gets its reply and no other, and no subscript leaves the table. -/
structure Routed (st : NsState) (answers : Nat → PingResult) (path : Text) (tr : List SubEvent) :
    Prop where
  reply : sent (Noted.plain tr) = [routedReply st answers (st.target path)]
  within : Within st.storageServerIndex tr

/-- The reads that are routed: the path is refused, or it resolves to a server that is reachable,
or to one with a reachable backup whose root has a name; and in the last case the flag of the
server is down, or the lookup takes it down. -/
def NsState.Routes (st : NsState) (answers : Nat → PingResult) (path : Text) : Prop :=
  isTopWord path = true ∨ ∃ i, st.resolve path = some i ∧
    (answers i = .up ∨
      ((st.isUp i = false ∨ (st.pingTarget path = some i ∧ answers i = .down)) ∧
        ∃ b, firstReachable answers [st.backupServer1 i, st.backupServer2 i] = some b ∧
          st.rootName b ≠ none))

/-- A lookup that comes back without a server. -/
def NsState.Unknown (st : NsState) (path : Text) : Prop :=
  ¬ st.LookupOverruns path ∧ st.resolve path = none

theorem not_overruns_of_resolve {st : NsState} {path : Text} {i : Nat}
    (h : st.resolve path = some i) : ¬ st.LookupOverruns path := by
  rintro ⟨hc, hs⟩
  rw [NsState.resolve, hc] at h
  obtain hs | ⟨hs, -⟩ := hs
  · simp [hs] at h
  · simp [hs] at h

/-- The flag of the server behind its lookup. -/
theorem isUp_after_lookup {st st₁ : NsState} (h : Sound st) {answers : Nat → PingResult}
    {path : Text} {tr : List NsEvent} {i : Nat}
    (hx : Exec (searchStorageServer st path) tr (some (some i, st₁))) (ha : Answered answers tr) :
    st₁.isUp i = if st.pingTarget path = some i ∧ answers i ≠ .noSocket
      then decide (answers i = .up) else st.isUp i := by
  have hresolve := (exec_lookup hx).2.1.symm
  obtain ⟨-, -, hout⟩ | ⟨-, -, -, -, hout⟩ | ⟨j, r, -, hp, rfl, hout⟩ :=
    exec_searchStorageServer hx
  · cases hout
  · cases hout
  · obtain rfl := ha j r (by simp)
    obtain ⟨-, rfl⟩ := Prod.mk.inj (Option.some.inj hout)
    have hi : i < { st with cache := st.cacheAfter path }.storageServers.length :=
      h.resolved hresolve
    rw [isUp_afterPing hi]
    by_cases hj : j = i
    · subst hj
      simp only [hp, true_and]
      rfl
    · rw [if_neg (by simp [hj]), if_neg (by simp [hp, hj])]
      rfl

/-- A lookup with notes is a lookup that visits counted entries and sends nothing. -/
private theorem exec_searchNoted {st : NsState} (h : Sound st) {path : Text} {tr : List SubEvent}
    {out : Option (Option Nat × NsState)} (hx : Exec (searchStorageServerNoted st path) tr out) :
    Exec (searchStorageServer st path) (Noted.plain tr) out ∧ sent (Noted.plain tr) = [] ∧
      Within st.storageServerIndex tr := by
  have hplain := Noted.exec_erase hx
  rw [erase_searchStorageServerNoted] at hplain
  refine ⟨hplain, ?_, h.within_search hx⟩
  obtain ⟨-, htr, -⟩ | ⟨-, -, -, htr, -⟩ | ⟨j, r, -, -, htr, -⟩ := exec_searchStorageServer hplain
  · rw [htr]
    rfl
  · rw [htr]
    rfl
  · rw [htr]
    rfl

private theorem exec_replyNoted {α : Type} {msg : Text} {f : Unit → SubProg α}
    {tr : List SubEvent} {out : Option α} (h : Exec (Noted.lift (reply msg) >>= f) tr out) :
    ∃ ok rest, tr = ⟨.op (.sendClient msg), ok⟩ :: rest ∧ Exec (f ()) rest out := by
  obtain ⟨ok, rest, rfl, hrest⟩ := h
  exact ⟨ok, rest, rfl, hrest⟩

section Reads

variable {st : NsState} {answers : Nat → PingResult} {path : Text} {tr : List SubEvent}

/-- A path without a server makes the code read `storage_servers[-1]`, or ends it. -/
private theorem not_routed_of_unknown {out : Option NsState} (h : Sound st)
    (hresolve : st.resolve path = none) (hx : Exec (locateNoted st path) tr out) :
    ¬ (sent (Noted.plain tr) = [notFound] ∧ Within st.storageServerIndex tr) := by
  rintro ⟨hreply, hwithin⟩
  obtain ⟨hs, -⟩ | ⟨⟨k, st₁⟩, t₁, u₁, rfl, hs, h₁⟩ := exec_bind.mp hx
  · rw [(exec_searchNoted h hs).2.1] at hreply
    cases hreply
  · obtain rfl : k = none := (exec_lookup (exec_searchNoted h hs).1).2.1.trans hresolve
    obtain ⟨u₂, rfl, -⟩ := exec_subscript.mp h₁
    obtain ⟨⟨_, -, hnone⟩, -⟩ := within_cons.mp (within_append.mp hwithin).2
    cases hnone

/-- How a read of a path of server `i` goes, by the flag behind the lookup. -/
private inductive FoundRun (st : NsState) (answers : Nat → PingResult) (i : Nat)
    (tr : List SubEvent) : Bool → Prop where
  | up : sent (Noted.plain tr) = [serverAddress st i] → Within st.storageServerIndex tr →
      FoundRun st answers i tr true
  | lost : firstReachable answers [some i, st.backupServer1 i, st.backupServer2 i] = none →
      none ∈ Noted.notes tr → FoundRun st answers i tr false
  | again : firstReachable answers [some i, st.backupServer1 i, st.backupServer2 i] = some i →
      sent (Noted.plain tr) = [serverAddress st i] → Within st.storageServerIndex tr →
      FoundRun st answers i tr false
  | rootless {b : Nat} :
      firstReachable answers [some i, st.backupServer1 i, st.backupServer2 i] = some b → b ≠ i →
      st.rootName b = none → sent (Noted.plain tr) = [] → FoundRun st answers i tr false
  | replica {b : Nat} {name : Text} :
      firstReachable answers [some i, st.backupServer1 i, st.backupServer2 i] = some b → b ≠ i →
      st.rootName b = some name → sent (Noted.plain tr) = [backupAddress st b name] →
      Within st.storageServerIndex tr → FoundRun st answers i tr false

/-- A part of a read that sends nothing to the client and visits only counted entries. -/
private structure Unheard (n : Nat) (tr : List SubEvent) : Prop where
  silent : sent (Noted.plain tr) = []
  within : Within n tr

private theorem Unheard.append {n : Nat} {t u : List SubEvent} (ht : Unheard n t)
    (hu : Unheard n u) : Unheard n (t ++ u) := by
  refine ⟨?_, within_append.mpr ⟨ht.within, hu.within⟩⟩
  rw [Noted.plain_append, sent_append, ht.silent, hu.silent]
  rfl

/-- One access to the table. -/
private theorem Unheard.note {n i : Nat} {t : List SubEvent} (ht : Unheard n t) (hi : i < n) :
    Unheard n (t ++ [⟨.note (some i), ()⟩]) :=
  ht.append ⟨rfl, within_cons.mpr ⟨⟨i, hi, rfl⟩, within_nil⟩⟩

/-- A reply behind such a part. -/
private theorem Unheard.reply {n : Nat} {t : List SubEvent} (ht : Unheard n t) {msg msg' : Text}
    (hmsg : msg = msg') (ok : Bool) :
    sent (Noted.plain (t ++ [⟨.op (.sendClient msg), ok⟩])) = [msg'] ∧
      Within n (t ++ [⟨.op (.sendClient msg), ok⟩]) := by
  subst hmsg
  refine ⟨?_, within_append.mpr ⟨ht.within, by simp [Within, Noted.notes]⟩⟩
  rw [Noted.plain_append, sent_append, ht.silent]
  rfl

/-- The search for a reachable server asks only the server itself and its backups. -/
private theorem exec_redundantSsNoted_of_frozen (h : Sound st) {st₁ st₂ : NsState} {i : Nat}
    {b : Option Nat} (hi : i < st.storageServerIndex) (hf : st₁.frozen = st.frozen)
    (hx : Exec (redundantSsNoted st₁ i) tr (some (b, st₂))) (ha : Answered answers (Noted.plain tr)) :
    firstReachable answers [some i, st.backupServer1 i, st.backupServer2 i] = b ∧
      st₂.frozen = st.frozen ∧ Unheard st.storageServerIndex tr ∧
      ∀ k, b = some k → k < st.storageServerIndex := by
  have hbackups : ∀ k, st.backupServer1 i = some k ∨ st.backupServer2 i = some k →
      k < st.storageServerIndex :=
    fun k hk ↦ (h.tabled.backup hk).1.trans_le h.counted
  obtain ⟨_, hout, hf₂, hvisited⟩ := exec_redundantSsNoted hx ha
  obtain ⟨rfl, rfl⟩ := Prod.mk.inj (Option.some.inj hout)
  rw [backupServer1_of_frozen hf, backupServer2_of_frozen hf] at hvisited ⊢
  refine ⟨rfl, hf₂.trans hf, ⟨?_, hvisited _ hi hbackups⟩, fun k hk ↦ ?_⟩
  · have hplain := Noted.exec_erase hx
    rw [erase_redundantSsNoted] at hplain
    exact sent_of_pings (exec_redundantSs hplain).1
  · have hmem := List.mem_of_find?_eq_some hk
    simp only [List.reduceOption_mem_iff, List.mem_cons, Option.some.injEq, List.not_mem_nil,
      or_false] at hmem
    obtain rfl | hmem := hmem
    · exact hi
    · exact hbackups k (hmem.imp Eq.symm Eq.symm)

private theorem exec_locateNoted_found {out : Option NsState} (h : Sound st) {i : Nat}
    (hresolve : st.resolve path = some i) (hx : Exec (locateNoted st path) tr out)
    (ha : Answered answers (Noted.plain tr)) :
    ∃ (st₁ : NsState) (t : List NsEvent),
      Exec (searchStorageServer st path) t (some (some i, st₁)) ∧ Answered answers t ∧
        FoundRun st answers i tr (st₁.isUp i) := by
  have hi : i < st.storageServerIndex := (h.resolved hresolve).trans_le h.counted
  obtain ⟨hs, -⟩ | ⟨⟨k, st₁⟩, t₁, u₁, rfl, hs, h₁⟩ := exec_bind.mp hx
  · exact absurd rfl
      (lookup_of_not_overruns (not_overruns_of_resolve hresolve) (exec_searchNoted h hs).1)
  obtain ⟨hsearch, hsilent, hwithin⟩ := exec_searchNoted h hs
  obtain rfl : k = some i := (exec_lookup hsearch).2.1.trans hresolve
  have hf := (exec_lookup hsearch).2.2.1
  rw [Noted.plain_append] at ha
  obtain ⟨ha₁, ha'⟩ := Answered.append.mp ha
  refine ⟨st₁, Noted.plain t₁, hsearch, ha₁, ?_⟩
  obtain ⟨u₂, rfl, h₂⟩ := exec_subscript.mp h₁
  obtain ⟨u₃, rfl, h₃⟩ := exec_subscript.mp h₂
  have hbefore : Unheard st.storageServerIndex
      (t₁ ++ [⟨.note (some i), ()⟩] ++ [⟨.note (some i), ()⟩]) :=
    (Unheard.note ⟨hsilent, hwithin⟩ hi).note hi
  cases hup : st₁.isUp i with
  | true =>
    simp only [hup, if_true] at h₃
    obtain ⟨ok, rest, rfl, rfl, -⟩ := exec_replyNoted h₃
    obtain ⟨hreply, hcounted⟩ := hbefore.reply (serverAddress_of_frozen hf i) ok
    exact .up (by simpa using hreply) (by simpa using hcounted)
  | false =>
    simp only [hup, Bool.false_eq_true, if_false] at h₃
    obtain ⟨hr, -⟩ | ⟨⟨b, st₂⟩, t₂, u₄, rfl, hr, h₄⟩ := exec_bind.mp h₃
    · obtain ⟨_, hout, -⟩ := exec_redundantSsNoted hr ha'
      cases hout
    change Answered answers (Noted.plain (t₂ ++ u₄)) at ha'
    rw [Noted.plain_append] at ha'
    obtain ⟨hfirst, hf₂, hasked, hcounts⟩ :=
      exec_redundantSsNoted_of_frozen h hi hf hr (Answered.append.mp ha').1
    obtain ⟨u₅, rfl, h₅⟩ := exec_subscript.mp h₄
    cases b with
    | none => exact .lost hfirst (by simp [Noted.notes])
    | some b =>
      have hb := hcounts b rfl
      have hafter := (hbefore.append hasked).note hb
      simp only at h₅
      split at h₅
      · next hbi =>
        subst hbi
        obtain ⟨ok, rest, rfl, rfl, -⟩ := exec_replyNoted h₅
        obtain ⟨hreply, hcounted⟩ := hafter.reply (serverAddress_of_frozen hf₂ b) ok
        exact .again hfirst (by simpa using hreply) (by simpa using hcounted)
      · next hbi =>
        obtain ⟨u₆, rfl, h₆⟩ := exec_subscript.mp h₅
        rw [rootName_of_frozen hf₂] at h₆
        have hread := hafter.note hb
        obtain ⟨hn, rfl, -⟩ | ⟨name, hn, h₇⟩ := exec_ofOption_bind.mp h₆
        · exact .rootless hfirst hbi hn (by simpa using hread.silent)
        · obtain ⟨ok, rest, rfl, rfl, -⟩ := exec_replyNoted h₇
          obtain ⟨hreply, hcounted⟩ := hread.reply (backupAddress_of_frozen hf₂ b name) ok
          exact .replica hfirst hbi hn (by simpa using hreply) (by simpa using hcounted)

/-- For an unreachable server, the flag behind the lookup. -/
private theorem flag_of_unreachable {st₁ : NsState} {t : List NsEvent} (h : Sound st) {i : Nat}
    (hx : Exec (searchStorageServer st path) t (some (some i, st₁))) (ha : Answered answers t)
    (hno : answers i ≠ .up) : st₁.isUp i = false ↔
      (st.isUp i = false ∨ (st.pingTarget path = some i ∧ answers i = .down)) := by
  rw [isUp_after_lookup h hx ha]
  cases hans : answers i with
  | up => exact absurd hans hno
  | noSocket => simp
  | down => by_cases hp : st.pingTarget path = some i <;> simp [hp]

/-- The first reachable one of a server and its backups is a backup, if the server is
unreachable. -/
private theorem firstReachable_of_unreachable {i : Nat} (hno : answers i ≠ .up)
    (rest : List (Option Nat)) :
    firstReachable answers (some i :: rest) = firstReachable answers rest := by
  rw [firstReachable_cons, if_neg (by simpa using hno)]

private theorem routed_found_iff {out : Option NsState} (h : Sound st)
    (hd : st.DottedAddresses) {i : Nat} (hresolve : st.resolve path = some i)
    (hx : Exec (locateNoted st path) tr out) (ha : Answered answers (Noted.plain tr)) :
    (sent (Noted.plain tr) = [routedReply st answers (some i)] ∧ Within st.storageServerIndex tr) ↔
      (answers i = .up ∨
        ((st.isUp i = false ∨ (st.pingTarget path = some i ∧ answers i = .down)) ∧
          ∃ b, firstReachable answers [st.backupServer1 i, st.backupServer2 i] = some b ∧
            st.rootName b ≠ none)) := by
  obtain ⟨st₁, t, hsearch, hat, hrun⟩ := exec_locateNoted_found h hresolve hx ha
  by_cases hup : answers i = .up
  · have hfirst : firstReachable answers [some i, st.backupServer1 i, st.backupServer2 i] =
        some i := by
      rw [firstReachable_cons, if_pos (by simpa using hup)]
    have hreply : routedReply st answers (some i) = serverAddress st i := by
      simp only [routedReply, hfirst, if_true]
    rw [hreply]
    refine iff_of_true ?_ (.inl hup)
    generalize st₁.isUp i = flag at hrun
    cases hrun with
    | up hs hw => exact ⟨hs, hw⟩
    | again _ hs hw => exact ⟨hs, hw⟩
    | lost hnone _ => simp [hfirst] at hnone
    | rootless hb hne _ _ => exact absurd (Option.some.inj (hb.symm.trans hfirst)) hne
    | replica hb hne _ _ _ => exact absurd (Option.some.inj (hb.symm.trans hfirst)) hne
  · have hskip := firstReachable_of_unreachable hup [st.backupServer1 i, st.backupServer2 i]
    rw [← flag_of_unreachable h hsearch hat hup, ← hskip]
    generalize st₁.isUp i = flag at hrun
    cases hrun with
    | up hs _ =>
      -- The reply names the unreachable server.
      refine iff_of_false ?_ (by simp [hup])
      rintro ⟨hreply, -⟩
      rw [hs, List.cons.injEq] at hreply
      have heq := hreply.1
      simp only [routedReply] at heq
      split at heq
      · exact serverAddress_ne_notFound hd i heq
      · next b hb =>
        split at heq
        · next hbi =>
          rw [hskip] at hb
          have hself := List.find?_some hb
          rw [hbi] at hself
          exact hup (by simpa using hself)
        · exact serverAddress_ne_backupAddress hd i b _ heq
    | lost hnone hmem =>
      refine iff_of_false ?_ (by simp [hup, hnone])
      rintro ⟨-, hwithin⟩
      obtain ⟨_, -, hbad⟩ := hwithin _ hmem
      cases hbad
    | again hb _ _ =>
      rw [hskip] at hb
      exact absurd (by simpa using List.find?_some hb) hup
    | rootless hb _ hroot hs =>
      refine iff_of_false ?_ (by simp [hup, hb, hroot])
      rintro ⟨hreply, -⟩
      rw [hs] at hreply
      cases hreply
    | replica hb hne hroot hs hw =>
      refine iff_of_true ⟨?_, hw⟩ (.inr ⟨rfl, _, hb, by simp [hroot]⟩)
      rw [hs]
      simp only [routedReply, hb, hne, if_false, hroot, Option.getD_some]

private theorem routed_iff {out : Option NsState} (h : Sound st) (hd : st.DottedAddresses)
    (hx : Exec (readNoted st path) tr out) (ha : Answered answers (Noted.plain tr)) :
    Routed st answers path tr ↔ st.Routes answers path := by
  unfold readNoted at hx
  by_cases htop : isTopWord path = true
  · rw [if_pos htop] at hx
    obtain ⟨ok, rest, rfl, rfl, -⟩ := exec_replyNoted hx
    refine iff_of_true ⟨?_, by simp [Within, Noted.notes]⟩ (.inl htop)
    rw [NsState.target, if_pos htop]
    rfl
  · rw [if_neg htop] at hx
    have htarget : st.target path = st.resolve path := if_neg htop
    cases hresolve : st.resolve path with
    | none =>
      refine iff_of_false (fun hrouted ↦ ?_) ?_
      · refine not_routed_of_unknown h hresolve hx ⟨?_, hrouted.within⟩
        rw [hrouted.reply, htarget, hresolve]
        rfl
      · simp [NsState.Routes, htop, hresolve]
    | some i =>
      have hfound := routed_found_iff h hd hresolve hx ha
      constructor
      · rintro ⟨hreply, hwithin⟩
        rw [htarget, hresolve] at hreply
        exact .inr ⟨i, hresolve, hfound.mp ⟨hreply, hwithin⟩⟩
      · rintro (htop' | ⟨j, hj, hroutes⟩)
        · exact absurd htop' htop
        · obtain rfl := Option.some.inj (hresolve.symm.trans hj)
          obtain ⟨hreply, hwithin⟩ := hfound.mpr hroutes
          refine ⟨?_, hwithin⟩
          rw [htarget, hresolve, hreply]

end Reads

/-! ### Write notifications -/

section Notifications

variable {st : NsState} {path : Text} {tr : List SubEvent}

private theorem within_copyTo {st₁ : NsState} {i : Nat} {backup : Option Nat}
    {out : Option NsState} {n : Nat} (hi : i < n) (hb : ∀ b, backup = some b → b < n)
    (hx : Exec (backupWrittenNoted.copyTo path i st₁ backup) tr out) :
    Within n tr ∧ ∀ st₂, out = some st₂ → st₂.frozen = st₁.frozen := by
  cases backup with
  | none =>
    obtain ⟨rfl, rfl⟩ := hx
    exact ⟨within_nil, fun _ h ↦ by cases h; rfl⟩
  | some b =>
    have hlt := hb b rfl
    obtain ⟨r, rest, rfl, h₁⟩ := exec_isSsUpNoted.mp hx
    have hstart : ∀ {u : List SubEvent}, Within n u →
        Within n (⟨.note (some b), ()⟩ :: ⟨.op (.ping b), r⟩ :: u) := fun hu ↦
      within_cons.mpr ⟨⟨b, hlt, rfl⟩, hu⟩
    simp only at h₁
    split at h₁
    · obtain ⟨u, rfl, h₂⟩ := exec_subscript.mp h₁
      obtain ⟨-, rfl, rfl⟩ | ⟨name, -, h₃⟩ := exec_ofOption_bind.mp h₂
      · exact ⟨hstart (within_cons.mpr ⟨⟨b, hlt, rfl⟩, within_nil⟩), fun _ h ↦ by cases h⟩
      · obtain ⟨u', rfl, h₄⟩ := exec_subscript.mp h₃
        obtain ⟨hc, rfl⟩ | ⟨_, t₁, t₂, rfl, hc, rfl, rfl⟩ := exec_bind.mp h₄
        · refine ⟨hstart (within_cons.mpr ⟨⟨b, hlt, rfl⟩, within_cons.mpr ⟨⟨i, hi, rfl⟩, ?_⟩⟩),
            fun _ h ↦ by cases h⟩
          exact within_lift hc
        · refine ⟨hstart (within_cons.mpr ⟨⟨b, hlt, rfl⟩, within_cons.mpr ⟨⟨i, hi, rfl⟩, ?_⟩⟩),
            fun _ h ↦ by cases h; simp⟩
          rw [List.append_nil]
          exact within_lift hc
    · obtain ⟨rfl, rfl⟩ := h₁
      exact ⟨hstart within_nil, fun _ h ↦ by cases h; simp⟩

private theorem within_backupWritten {st₁ : NsState} {i : Nat} {out : Option NsState} (h : Sound st)
    (hf : st₁.frozen = st.frozen) (hi : i < st.storageServerIndex)
    (hx : Exec (backupWrittenNoted st₁ path i) tr out) : Within st.storageServerIndex tr := by
  have hbackups : ∀ b, st₁.backupServer1 i = some b ∨ st₁.backupServer2 i = some b →
      b < st.storageServerIndex := by
    rw [backupServer1_of_frozen hf, backupServer2_of_frozen hf]
    exact fun b hb ↦ (h.tabled.backup hb).1.trans_le h.counted
  obtain ⟨h₁, -⟩ | ⟨st₂, t₁, t₂, rfl, h₁, h₂⟩ := exec_bind.mp hx
  · exact (within_copyTo hi (fun b hb ↦ hbackups b (.inl hb)) h₁).1
  · exact within_append.mpr ⟨(within_copyTo hi (fun b hb ↦ hbackups b (.inl hb)) h₁).1,
      (within_copyTo hi (fun b hb ↦ hbackups b (.inr hb)) h₂).1⟩

/-- A lookup of a notification and what follows on it. -/
private theorem within_notified {out : Option NsState} (h : Sound st)
    {f : Nat → NsState → SubProg NsState}
    (hf : ∀ i st₁ u o, i < st.storageServerIndex → st₁.frozen = st.frozen →
      Exec (f i st₁) u o → Within st.storageServerIndex u)
    (hx : Exec (searchStorageServerNoted st path >>= fun x ↦ do
      subscript x.1
      match x.1 with
      | none => Prog.abort
      | some i => f i x.2) tr out) :
    Within st.storageServerIndex tr ↔ ¬ st.Unknown path := by
  obtain ⟨hs, -⟩ | ⟨⟨k, st₁⟩, t₁, u₁, rfl, hs, h₁⟩ := exec_bind.mp hx
  · obtain ⟨hsearch, -, hwithin⟩ := exec_searchNoted h hs
    exact iff_of_true hwithin (fun hunknown ↦ lookup_of_not_overruns hunknown.1 hsearch rfl)
  · obtain ⟨hsearch, -, hwithin⟩ := exec_searchNoted h hs
    obtain ⟨-, hk, hfrozen, -⟩ := exec_lookup hsearch
    obtain ⟨u₂, rfl, h₂⟩ := exec_subscript.mp h₁
    rw [within_append, within_cons]
    cases k with
    | none =>
      have hno : ¬ st.LookupOverruns path := by
        intro hover
        obtain ⟨-, -, hout⟩ | ⟨hno, -⟩ | ⟨_, _, hno, -⟩ := exec_searchStorageServer hsearch
        · cases hout
        · exact hno hover
        · exact hno hover
      refine iff_of_false ?_ (fun hneg ↦ hneg ⟨hno, hk.symm⟩)
      rintro ⟨-, ⟨_, -, hbad⟩, -⟩
      cases hbad
    | some i =>
      have hi := (h.resolved hk.symm).trans_le h.counted
      refine iff_of_true ⟨hwithin, ⟨i, hi, rfl⟩, hf i st₁ u₂ out hi hfrozen h₂⟩ ?_
      rintro ⟨-, hnone⟩
      rw [hnone] at hk
      cases hk

private theorem within_listenAsync_iff {line : Text} {out : Option NsState} (h : Sound st)
    (hx : Exec (listenAsyncNoted st line) tr out) :
    Within st.storageServerIndex tr ↔
      ∀ path, Client.notifiedPath line = some path → ¬ st.Unknown path := by
  unfold listenAsyncNoted at hx
  unfold Client.notifiedPath
  split at hx
  · next hsync =>
    rw [if_pos hsync]
    obtain ⟨hnone, rfl, -⟩ | ⟨path, hpath, h₁⟩ := exec_ofOption_bind.mp hx
    · simp [hnone, within_nil]
    · rw [hpath]
      simp only [Option.some.injEq, forall_eq']
      refine within_notified h (f := fun i st ↦ backupWrittenNoted st path i) ?_ h₁
      exact fun i st₁ u o hi hf hxu ↦ within_backupWritten h hf hi hxu
  · next hsync =>
    rw [if_neg hsync]
    split at hx
    · next hasync =>
      rw [if_pos hasync]
      obtain ⟨hnone, rfl, -⟩ | ⟨path, hpath, h₁⟩ := exec_ofOption_bind.mp hx
      · simp [hnone, within_nil]
      · rw [hpath]
        simp only [Option.some.injEq, forall_eq']
        refine within_notified h (f := fun i st ↦ do
          let st ← backupWrittenNoted st path i
          let clientIp ← Prog.ofOption (words line)[2]?
          let clientPort ← Prog.ofOption (words line)[3]?
          let ack := clip bufferSize (lit "ACK: Backup completed for " ++ path)
          let _ ← Noted.lift (Prog.call (NsOp.sendAck clientIp clientPort ack) : NsProg Bool)
          pure st) ?_ h₁
        intro i st₁ u o hi hf hxu
        obtain ⟨hb, -⟩ | ⟨st₂, t₁, t₂, rfl, hb, h₂⟩ := exec_bind.mp hxu
        · exact within_backupWritten h hf hi hb
        · refine within_append.mpr ⟨within_backupWritten h hf hi hb, ?_⟩
          obtain ⟨-, rfl, -⟩ | ⟨ip, -, h₃⟩ := exec_ofOption_bind.mp h₂
          · exact within_nil
          · obtain ⟨-, rfl, -⟩ | ⟨port, -, h₄⟩ := exec_ofOption_bind.mp h₃
            · exact within_nil
            · obtain ⟨ok, rest, rfl, rfl, -⟩ := h₄
              simp [Within, Noted.notes]
    · next hasync =>
      rw [if_neg hasync]
      obtain ⟨rfl, -⟩ := hx
      simp [within_nil]

end Notifications

/-- For every reachable table and every pattern of reachable servers: a read is routed, with
every subscript in the table, exactly if its path is refused or resolves to a server that is
reachable, or that is flagged down by then and has a reachable backup; and a write notification
stays in the table exactly if its path is not unknown. -/
theorem read_routing_iff {st : NsState} (h : Reachable (fun s ↦ s = .initial) NsStep st)
    (hd : st.DottedAddresses) :
    (∀ line command path rest, IsRead line command → words line = command :: path :: rest →
      Noted.erase (readNoted st path) = processClient st line ∧
      ∀ answers tr out, Exec (readNoted st path) tr out → Answered answers (Noted.plain tr) →
        (Routed st answers path tr ↔ st.Routes answers path)) ∧
    ∀ line, Noted.erase (listenAsyncNoted st line) = listenAsync st line ∧
      ∀ tr out, Exec (listenAsyncNoted st line) tr out →
        (Within st.storageServerIndex tr ↔
          ∀ path, Client.notifiedPath line = some path → ¬ st.Unknown path) := by
  have hsound := NsStep.sound h
  refine ⟨fun line command path rest hread hw ↦ ⟨erase_readNoted hread hw st, ?_⟩,
    fun line ↦ ⟨erase_listenAsyncNoted st line, ?_⟩⟩
  · exact fun answers tr out hx ha ↦ routed_iff hsound hd hx ha
  · exact fun tr out hx ↦ within_listenAsync_iff hsound hx

private theorem dotted_of_ips {st : NsState} {n : Nat}
    (h : st.storageServers.map StorageServerInfo.ip = List.replicate n (lit "10.0.0.1")) :
    st.DottedAddresses := by
  intro info hinfo
  have hip : info.ip ∈ List.replicate n (lit "10.0.0.1") := h ▸ List.mem_map_of_mem hinfo
  rw [List.eq_of_mem_replicate hip]
  decide

/-- Three servers register; each has the other two as its backups. -/
private def threeRegistered : NsProg NsState := do
  let st ← registerStorageServer .initial 4 (lit "10.0.0.1") 4000
    [lit "./s\n./s/a\n@!-Finished Indexing-!@\n"]
  let st ← registerStorageServer st 5 (lit "10.0.0.1") 4001 [lit "./t\n@!-Finished Indexing-!@\n"]
  registerStorageServer st 6 (lit "10.0.0.1") 4002 [lit "./u\n@!-Finished Indexing-!@\n"]

/-- The server of the path and its first backup are down: a read gets the address of the second
backup, and a notification of a write stays in the table. -/
theorem read_routing_to_second_backup :
    ∃ st, Reachable (fun s ↦ s = .initial) NsStep st ∧ st.DottedAddresses ∧
      (∃ tr out, Exec (readNoted st (lit "./s/a")) tr out ∧
        Routed st (fun i ↦ if i = 2 then .up else .down) (lit "./s/a") tr ∧
        sent (Noted.plain tr) = [lit "Backup 10.0.0.1,4002,u"]) ∧
      ∀ tr out, Exec (listenAsyncNoted st (lit "WRITE_SYNC|./s/a|hi")) tr out →
        Within st.storageServerIndex tr := by
  have hrun : (threeRegistered.runWith agreeable).2.bind (fun st ↦
      ((processClient st (lit "cat ./s/a")).replay [⟨.ping 0, PingResult.down⟩,
        ⟨.ping 0, PingResult.down⟩, ⟨.ping 1, PingResult.down⟩, ⟨.ping 2, PingResult.up⟩,
        ⟨.sendClient (lit "Backup 10.0.0.1,4002,u"), true⟩]).map (fun _ ↦
          (st.storageServers.map StorageServerInfo.ip, st.rootName 2,
            [st.resolve (lit "./s/a"), st.pingTarget (lit "./s/a"), st.backupServer1 0,
              st.backupServer2 0]))) =
      some (List.replicate 3 (lit "10.0.0.1"), some (lit "u"), [some 0, some 0, some 1, some 2]) := by
    decide +kernel
  obtain ⟨st, hst, hread⟩ := Option.bind_eq_some_iff.mp hrun
  obtain ⟨out, hout, hstate⟩ := Option.map_eq_some_iff.mp hread
  obtain ⟨hips, hstate⟩ := Prod.mk.inj hstate
  obtain ⟨hname, hservers⟩ := Prod.mk.inj hstate
  simp only [List.cons.injEq, and_true] at hservers
  obtain ⟨hresolve, hping, hfirst, hsecond⟩ := hservers
  have hreg := exec_runWith agreeable threeRegistered
  rw [hst] at hreg
  obtain ⟨st₁, _, _, -, h₁, hrest⟩ := exec_bind_some hreg
  obtain ⟨st₂, _, _, -, h₂, h₃⟩ := exec_bind_some hrest
  have hreach : Reachable (fun s ↦ s = .initial) NsStep st :=
    .next (.next (.next (.start rfl) (.register h₁)) (.register h₂)) (.register h₃)
  have hd := dotted_of_ips hips
  obtain ⟨hreads, hnotices⟩ := read_routing_iff hreach hd
  have hwords : words (lit "cat ./s/a") = [lit "cat", lit "./s/a"] := by decide
  have hcat : IsRead (lit "cat ./s/a") (lit "cat") :=
    ⟨by decide, by decide, by decide, by decide, by decide⟩
  obtain ⟨herase, hiff⟩ := hreads _ _ _ _ hcat hwords
  have hx := exec_of_replay hout
  rw [← herase] at hx
  obtain ⟨tr, htr, hplain⟩ := Noted.exec_of_erase hx
  have ha : Answered (fun i ↦ if i = 2 then .up else .down) (Noted.plain tr) := by
    rw [hplain]
    intro b r hm
    simp only [List.mem_cons, Sigma.mk.injEq, NsOp.ping.injEq, reduceCtorEq, false_and,
      List.not_mem_nil, or_false] at hm
    obtain ⟨rfl, hr⟩ | ⟨rfl, hr⟩ | ⟨rfl, hr⟩ | ⟨rfl, hr⟩ := hm
    · exact eq_of_heq hr
    · exact eq_of_heq hr
    · exact eq_of_heq hr
    · exact eq_of_heq hr
  have hfound : firstReachable (fun i ↦ if i = 2 then .up else .down) [some 1, some 2] = some 2 := by
    decide
  refine ⟨st, hreach, hd, ⟨tr, out, htr, (hiff _ tr out htr ha).mpr (.inr ⟨0, hresolve, .inr
    ⟨.inr ⟨hping, rfl⟩, 2, ?_, ?_⟩⟩), ?_⟩, fun tr' out' htr' ↦ ?_⟩
  · rw [hfirst, hsecond]
    exact hfound
  · rw [hname]
    simp
  · rw [hplain]
    rfl
  · refine ((hnotices _).2 tr' out' htr').mpr fun path hpath hunknown ↦ ?_
    have hnotified : Client.notifiedPath (lit "WRITE_SYNC|./s/a|hi") = some (lit "./s/a") := by decide
    obtain rfl := Option.some.inj (hpath.symm.trans hnotified)
    exact absurd (hresolve.symm.trans hunknown.2) (by simp)

private theorem words_cat : words (lit "cat ./s") = [lit "cat", lit "./s"] := by
  decide

private theorem isRead_cat : IsRead (lit "cat ./s") (lit "cat") :=
  ⟨by decide, by decide, by decide, by decide, by decide⟩

/-- The only server is down, and there is no backup: a read of its folder makes the code follow
`storage_servers[-1]`, and gets no reply. -/
theorem read_without_replica_is_lost :
    ¬ ∀ st, Reachable (fun s ↦ s = .initial) NsStep st → st.DottedAddresses →
      ∀ line command path rest, IsRead line command → words line = command :: path :: rest →
      ∀ answers tr out, Exec (readNoted st path) tr out → Answered answers (Noted.plain tr) →
        Routed st answers path tr := by
  intro hall
  have hrun : (sampleRegistration.replay []).join.bind (fun st ↦
      ((processClient st (lit "cat ./s")).replay [⟨.ping 0, PingResult.down⟩,
        ⟨.ping 0, PingResult.down⟩]).map (fun _ ↦
          st.storageServers.map StorageServerInfo.ip)) = some [lit "10.0.0.1"] := by
    decide +kernel
  obtain ⟨st, hst, hread⟩ := Option.bind_eq_some_iff.mp hrun
  obtain ⟨out, hout, hips⟩ := Option.map_eq_some_iff.mp hread
  have hreach : Reachable (fun s ↦ s = .initial) NsStep st :=
    .next (.start rfl) (.register (exec_of_replay (Option.join_eq_some_iff.mp hst)))
  have hd := dotted_of_ips (n := 1) hips
  have hx := exec_of_replay hout
  rw [← erase_readNoted isRead_cat words_cat] at hx
  obtain ⟨tr, htr, hplain⟩ := Noted.exec_of_erase hx
  have hreply := (hall st hreach hd _ _ _ _ isRead_cat words_cat (fun _ ↦ .down) tr out htr (by
    rw [hplain]
    intro b r hm
    simp only [List.mem_cons, Sigma.mk.injEq, NsOp.ping.injEq, List.not_mem_nil, or_false,
      or_self] at hm
    obtain ⟨rfl, hr⟩ := hm
    exact eq_of_heq hr)).reply
  rw [hplain] at hreply
  cases hreply

end NetworkFileSystem.Naming
