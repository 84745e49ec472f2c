import NetworkFileSystem.Cluster.Link
import NetworkFileSystem.Naming.Replies

/-!
# Sends and receives in pairs

`naming_server.c:521–713,852–906,1176–1268`. Which traces leave the connections as they
were: a forwarded command is followed by its receive, a request for the index by the
reading of the index, and nothing else is sent but commands that are not answered. All
programs of the naming server have such traces, but for one part of a client's copy: the
command that repeats the copy on a backup is answered, and the answer is not read.
-/

namespace NetworkFileSystem.Cluster

open Base Protocol Naming Storage Prog

/-- A command of a backup. -/
def Quiet (msg : Text) : Prop := ∃ v, branch msg = some v ∧ v.isBackup = true

/-- A command that gets at most one message as its reply. -/
def Solo (msg : Text) : Prop :=
  startsWith (lit "ping") msg = false ∧ startsWith (lit "reindex") msg = false

/-- Traces in which every send is paired with what it causes. -/
inductive Disciplined : List NsEvent → Prop where
  | nil : Disciplined []
  | offLink {e : NsEvent} {tr : List NsEvent} : e.1.isOffLink = true → Disciplined tr →
      Disciplined (e :: tr)
  | quiet {i : Nat} {msg : Text} {ok : Bool} {tr : List NsEvent} : Quiet msg → Disciplined tr →
      Disciplined (⟨.replicate i msg, ok⟩ :: tr)
  | unsent {i : Nat} {msg : Text} {tr : List NsEvent} : Disciplined tr →
      Disciplined (⟨.forward i msg, false⟩ :: tr)
  | exchanged {i : Nat} {msg : Text} {r : Option Text} {tr : List NsEvent} : Solo msg →
      Disciplined tr → Disciplined (⟨.forward i msg, true⟩ :: ⟨.recvServer i, r⟩ :: tr)
  | reindexed {i : Nat} {ok : Bool} {segments : List Text} {tr : List NsEvent} :
      Disciplined tr → Disciplined (⟨.reindex i, ok⟩ :: ⟨.recvIndex i, segments⟩ :: tr)

theorem Disciplined.append {tr₁ tr₂ : List NsEvent} (h₁ : Disciplined tr₁)
    (h₂ : Disciplined tr₂) : Disciplined (tr₁ ++ tr₂) := by
  induction h₁ with
  | nil => exact h₂
  | offLink he _ ih => exact .offLink he ih
  | quiet hm _ ih => exact .quiet hm ih
  | unsent _ ih => exact .unsent ih
  | exchanged hm _ ih => exact .exchanged hm ih
  | reindexed _ ih => exact .reindexed ih

theorem disciplined_of_offLink {tr : List NsEvent} (h : OffLink tr) : Disciplined tr := by
  induction tr with
  | nil => exact .nil
  | cons e tr ih =>
    exact .offLink (h e (by simp)) (ih (fun x hx ↦ h x (by simp [hx])))

theorem disciplined_of_replicates {receiver : Nat → Nat} {msg : Nat → Option Text}
    {tr : List NsEvent} (hq : ∀ b m, msg b = some m → Quiet m)
    (h : Replicates receiver msg tr) : Disciplined tr := by
  induction tr with
  | nil => exact .nil
  | cons e tr ih =>
    have hrest := ih (fun x hx ↦ h x (by simp [hx]))
    obtain ⟨o, r⟩ := e
    obtain ho | ⟨b, m, hm, rfl⟩ := h _ List.mem_cons_self
    · cases o with
      | ping i => exact .offLink rfl hrest
      | _ => cases ho
    · exact .quiet (hq b m hm) hrest

/-! ### The connections along a trace -/

/-- The command that an event sends. -/
def commandOf : NsEvent → Option Text
  | ⟨.forward _ msg, _⟩ => some msg
  | ⟨.replicate _ msg, _⟩ => some msg
  | _ => none

/-- Every command that is sent can be executed: it fits the buffer, has at most five words and
those that its branch reads. -/
def Executable (tr : List NsEvent) : Prop :=
  ∀ e ∈ tr, ∀ msg, commandOf e = some msg → execute msg ≠ none

/-- All connections are calm. -/
def Links.Calm (w : Links) : Prop := ∀ i, (w i).Calm

/-- One connection awaits the reply to a command, the others are calm. -/
def Links.Awaiting (ok : List Text → Prop) (i : Nat) (msg : Text) (w : Links) : Prop :=
  (w i).Awaiting ok msg ∧ ∀ j, j ≠ i → (w j).Calm

/-- The paths of an index are indexable. -/
def IndexablePaths (paths : List Text) : Prop := ∀ p ∈ paths, Indexable p

section Links

variable {w w' : Links} {i : Nat} {msg : Text}

private theorem calm_update {l : Link} (hw : ∀ j, j ≠ i → (w j).Calm) (hl : l.Calm) :
    Links.Calm (Function.update w i l) := by
  intro j
  by_cases hj : j = i
  · subst hj
    rw [Function.update_self]
    exact hl
  · rw [Function.update_of_ne hj]
    exact hw j hj

private theorem awaiting_update {ok : List Text → Prop} {l : Link} (hw : ∀ j, j ≠ i → (w j).Calm)
    (hl : l.Awaiting ok msg) : Links.Awaiting ok i msg (Function.update w i l) := by
  refine ⟨by rwa [Function.update_self], fun j hj ↦ ?_⟩
  rw [Function.update_of_ne hj]
  exact hw j hj

theorem Links.Calm.silent {ok : List Text → Prop} (h : w.Calm)
    (hs : Relation.ReflTransGen (cluster ok).silent w w') : w'.Calm := by
  induction hs with
  | refl => exact h
  | tail _ hstep ih =>
    obtain ⟨j, l, hl, rfl⟩ := hstep
    exact calm_update (fun k _ ↦ ih k) ((ih j).step hl)

theorem Links.Awaiting.silent {ok : List Text → Prop} (h : w.Awaiting ok i msg)
    (hdef : execute msg ≠ none) (hs : Relation.ReflTransGen (cluster ok).silent w w') :
    w'.Awaiting ok i msg := by
  induction hs with
  | refl => exact h
  | tail _ hstep ih =>
    obtain ⟨j, l, hl, rfl⟩ := hstep
    by_cases hj : j = i
    · subst hj
      exact awaiting_update ih.2 (ih.1.step hdef hl)
    · refine ⟨?_, fun k hk ↦ ?_⟩
      · rw [Function.update_of_ne (Ne.symm hj)]
        exact ih.1
      · by_cases hkj : k = j
        · subst hkj
          rw [Function.update_self]
          exact (ih.2 k hk).step hl
        · rw [Function.update_of_ne hkj]
          exact ih.2 k hk

end Links

/-- Traces of paired sends of executable commands keep the connections calm, whatever the
storage servers do in between. -/
theorem Links.Calm.accepts {tr : List NsEvent} (hd : Disciplined tr) (hx : Executable tr)
    {w w' : Links} (h : w.Calm) (ha : (cluster IndexablePaths).Accepts w tr w') : w'.Calm := by
  induction hd generalizing w with
  | nil => exact h.silent ha.ended
  | @offLink e tr he _ ih =>
    obtain ⟨o, r⟩ := e
    obtain ⟨u, v, hs, hr, ha⟩ := ha.cons
    have hv : v = u := by
      cases o with
      | ping _ => exact hr
      | sendClient _ => exact hr
      | sendAck _ _ _ => exact hr
      | _ => cases he
    exact ih (fun e he ↦ hx e (by simp [he])) (hv ▸ h.silent hs) ha
  | @quiet i msg ok tr hm _ ih =>
    obtain ⟨u, v, hs, ⟨l, hl, rfl⟩, ha⟩ := ha.cons
    have hu := h.silent hs
    have hdef : execute msg ≠ none := hx _ List.mem_cons_self msg rfl
    exact ih (fun e he ↦ hx e (by simp [he]))
      (calm_update (fun j _ ↦ hu j) ((hu i).send_unanswered ⟨hdef, hm⟩ hl)) ha
  | @unsent i msg tr _ ih =>
    obtain ⟨u, v, hs, ⟨l, hl, rfl⟩, ha⟩ := ha.cons
    have hu := h.silent hs
    exact ih (fun e he ↦ hx e (by simp [he]))
      (calm_update (fun j _ ↦ hu j) ((hu i).send_failed hl)) ha
  | @exchanged i msg r tr hm _ ih =>
    obtain ⟨u, v, hs, ⟨l, hl, rfl⟩, ha⟩ := ha.cons
    obtain ⟨u', v', hs', ⟨l', hl', rfl⟩, ha⟩ := ha.cons
    have hu := h.silent hs
    have hdef : execute msg ≠ none := hx _ List.mem_cons_self msg rfl
    have hu' := (awaiting_update (fun j _ ↦ hu j) ((hu i).send hl)).silent hdef hs'
    exact ih (fun e he ↦ hx e (by simp [he]))
      (calm_update hu'.2 (hu'.1.receive (fun _ _ ↦ length_replies_le hm.1 hm.2 _ _) hl')) ha
  | @reindexed i ok segments tr _ ih =>
    obtain ⟨u, v, hs, ⟨l, hl, rfl⟩, ha⟩ := ha.cons
    obtain ⟨u', v', hs', ⟨l', hl', rfl⟩, ha⟩ := ha.cons
    have hu := h.silent hs
    have hu' := (awaiting_update (fun j _ ↦ hu j) ((hu i).send hl)).silent (by decide) hs'
    exact ih (fun e he ↦ hx e (by simp [he])) (calm_update hu'.2 (hu'.1.receiveIndex hl')) ha

/-! ### Texts of commands -/

theorem quiet_clip {v : Verb} (hv : v.isBackup = true) (s : Text) :
    Quiet (clip bufferSize (v.name ++ s)) := by
  have hlen : v.name.length ≤ bufferSize - 1 := by cases v <;> decide
  refine ⟨v, ?_, hv⟩
  rw [clip, List.take_append, List.take_of_length_le hlen]
  exact branch_of_isBackup hv _

/-- The verbs of entry commands. -/
def IsEntryVerb (command : Text) : Prop :=
  (command = lit "mkdir" ∨ command = lit "touch") ∨ (command = lit "rmdir" ∨ command = lit "rm")

theorem quiet_backupCommand {command : Text} (h : IsEntryVerb command) (path : Text) :
    Quiet (backupCommand command path) := by
  unfold backupCommand
  obtain (rfl | rfl) | (rfl | rfl) := h
  · exact quiet_clip (v := .mkdirb) rfl (lit " " ++ path)
  · exact quiet_clip (v := .touchb) rfl (lit " " ++ path)
  · exact quiet_clip (v := .rmdirb) rfl (lit " " ++ path)
  · exact quiet_clip (v := .rmb) rfl (lit " " ++ path)

theorem solo_of_words {line command : Text} {rest : List Text} (h : IsEntryVerb command)
    (hw : words line = command :: rest) : Solo line := by
  obtain ⟨k, t, rfl, -⟩ := tokens_eq_cons hw
  cases k with
  | zero => obtain (rfl | rfl) | (rfl | rfl) := h <;> exact ⟨rfl, rfl⟩
  | succ k => exact ⟨startsWith_cons_ne (by decide), startsWith_cons_ne (by decide)⟩

theorem solo_copyCommand {st : NsState} {line msg : Text} {i j : Nat}
    (h : copyCommand st line i j = some msg) : Solo msg := by
  unfold copyCommand at h
  simp only at h
  split_ifs at h <;> cases h
  · exact ⟨rfl, rfl⟩
  · exact ⟨rfl, rfl⟩

/-! ### Programs -/

private theorem disciplined_exchange {i : Nat} {msg bytes : Text} {ok : Bool} (h : Solo msg) :
    Disciplined [⟨.forward i msg, true⟩, ⟨.recvServer i, some bytes⟩,
      ⟨.sendClient (cstr bytes), ok⟩] :=
  .exchanged h (.offLink rfl .nil)

theorem EntryRun.disciplined {c : EntryChange} {st : NsState} {line command path : Text}
    {tr : List NsEvent} {out : Option NsState} (hline : Solo line)
    (hbackup : Quiet (backupCommand command path)) (h : EntryRun c st line command path tr out) :
    Disciplined tr := by
  have hlookup : ∀ {t : List NsEvent} {k : Option Nat} {st₁ : NsState},
      Exec (searchStorageServer st c.lookup) t (some (k, st₁)) → Disciplined t :=
    fun hl ↦ disciplined_of_offLink (exec_lookup hl).1.offLink
  cases h with
  | invalid _ => exact .offLink rfl .nil
  | overruns _ _ => exact .nil
  | unknown _ hl => exact (hlookup hl).append (.offLink rfl .nil)
  | down _ hl _ => exact (hlookup hl).append (.offLink rfl .nil)
  | unsent _ hl => exact (hlookup hl).append (.unsent .nil)
  | unanswered _ hl => exact (hlookup hl).append (.exchanged hline (.offLink rfl .nil))
  | overlong _ hl _ => exact (hlookup hl).append (.exchanged hline .nil)
  | refused _ hl _ _ => exact (hlookup hl).append (disciplined_exchange hline)
  | carriedOut _ hl _ _ hr =>
    refine ((hlookup hl).append (disciplined_exchange hline)).append
      (disciplined_of_replicates ?_ (exec_replicateCommand hr).1)
    rintro b m hm
    cases hm
    exact hbackup

/-- Without an answered ping nothing is replicated. -/
private theorem pings_of_unanswered {st : NsState} {receiver : Nat → Nat}
    {msg : Nat → Option Text} {backup : Option Nat} {t : List NsEvent} {out : Option NsState}
    (hno : ∀ b, answered b ∉ t) (h : Exec (replicateTo st receiver msg backup) t out) :
    Pings t := by
  cases backup with
  | none =>
    obtain ⟨rfl, -⟩ := h
    simp [Pings]
  | some b =>
    obtain ⟨r, rest, rfl, h₁⟩ := exec_isSsUp.mp h
    have hr : r ≠ PingResult.up := by
      rintro rfl
      exact hno b List.mem_cons_self
    simp only [hr, decide_false, Bool.false_eq_true, if_false] at h₁
    obtain ⟨rfl, -⟩ := h₁
    simp [Pings, NsOp.isPing]

private theorem PerformCopyRun.disciplined {st : NsState} {line src dest : Text} {i j : Nat}
    {tr : List NsEvent} {out : Option NsState} (hno : ∀ b, answered b ∉ tr.drop 5)
    (h : PerformCopyRun st line src dest i j tr out) : Disciplined tr := by
  cases h with
  | overlong _ => exact .nil
  | unsent _ => exact .unsent .nil
  | unanswered hm => exact .exchanged (solo_copyCommand hm) .nil
  | unterminated hm _ => exact .exchanged (solo_copyCommand hm) .nil
  | clientGone hm _ => exact disciplined_exchange (solo_copyCommand hm)
  | badIndex hm _ _ => exact (disciplined_exchange (solo_copyCommand hm)).append (.reindexed .nil)
  | reindexed hm _ _ hr =>
    refine ((disciplined_exchange (solo_copyCommand hm)).append (.reindexed .nil)).append
      (disciplined_of_offLink (Pings.offLink ?_))
    obtain ⟨h₁, -⟩ | ⟨st₁, t₁, t₂, rfl, h₁, h₂⟩ := exec_bind.mp hr
    · exact pings_of_unanswered hno h₁
    · have hboth : ∀ b, answered b ∉ t₁ ++ t₂ := hno
      have hno₁ : ∀ b, answered b ∉ t₁ := fun b hb ↦ hboth b (List.mem_append_left _ hb)
      have hno₂ : ∀ b, answered b ∉ t₂ := fun b hb ↦ hboth b (List.mem_append_right _ hb)
      exact (pings_of_unanswered hno₁ h₁).append (pings_of_unanswered hno₂ h₂)

/-- A copy after which no backup answers a ping. -/
private theorem CopyRun.disciplined {st : NsState} {line : Text} {tr : List NsEvent}
    {out : Option NsState} (hno : ∀ b, answered b ∉ tr.drop 7) (h : CopyRun st line tr out) :
    Disciplined tr := by
  cases h with
  | incomplete _ => exact .offLink rfl .nil
  | invalid _ _ => exact .offLink rfl .nil
  | overrunsSrc _ _ _ => exact .nil
  | overrunsDest _ _ hs _ => exact disciplined_of_offLink (exec_lookup hs).1.offLink
  | unknown _ _ hs hd _ =>
    exact disciplined_of_offLink (((exec_lookup hs).1.append (exec_lookup hd).1).offLink.append
      (offLink_sendClient _ _))
  | performed _ _ hs hd _ hp =>
    have hpings := ((exec_lookup hs).1.append (exec_lookup hd).1).offLink
    obtain ⟨hone₁, -⟩ := lookup_pings hs (s := st) rfl
    obtain ⟨hone₂, -⟩ := lookup_pings hd rfl
    refine (disciplined_of_offLink hpings).append (PerformCopyRun.disciplined (fun b hb ↦ hno b ?_) hp)
    rw [show (7 : Nat) = 2 + 5 from rfl, ← List.drop_drop,
      List.drop_left' (by simp [hone₁, hone₂])]
    exact hb

/-- Client commands are disciplined, except for copies after which a backup answers. -/
theorem ClientRun.disciplined {st : NsState} {line : Text} {tr : List NsEvent}
    {out : Option NsState}
    (hcopy : startsWith (lit "copy") line = true → ∀ b, answered b ∉ tr.drop 7)
    (h : ClientRun st line tr out) : Disciplined tr := by
  cases h with
  | listing _ hx => exact disciplined_of_offLink (listAll_offLink hx)
  | copy _ hc hr => exact CopyRun.disciplined (hcopy hc) hr
  | pathless _ _ _ => exact .offLink rfl .nil
  | writeStops _ _ _ _ _ hr => exact disciplined_of_offLink hr.offLink
  | write _ _ _ _ _ hw hl => exact disciplined_of_offLink (hw.offLink.append hl.offLink)
  | make _ _ hw _ _ hc hr =>
    exact EntryRun.disciplined (solo_of_words (.inl hc) hw) (quiet_backupCommand (.inl hc) _) hr
  | remove _ _ hw _ _ hc hr =>
    exact EntryRun.disciplined (solo_of_words (.inr hc) hw) (quiet_backupCommand (.inr hc) _) hr
  | read _ _ _ _ _ _ _ hr => exact disciplined_of_offLink hr.offLink

/-! ### Notifications and registrations -/

/-- A copy for a backup is forwarded, and its answer is read. -/
private theorem disciplined_handleBackupCopy {st : NsState} {command : Text} {i j : Nat}
    {tr : List NsEvent} {out : Option Unit} (h : Exec (handleBackupCopy st command i j) tr out) :
    Disciplined tr := by
  unfold handleBackupCopy at h
  simp only at h
  generalize hmsg : (if startsWith (lit "lcopy") command = true then command
    else lit "copydifferent" ++ command.drop 4) ++ receiverAddress st j = msg at h
  have hsolo : Solo msg := by
    subst hmsg
    split
    · next hl =>
      obtain ⟨t, rfl⟩ := List.isPrefixOf_iff_prefix.mp hl
      exact ⟨rfl, rfl⟩
    · exact ⟨rfl, rfl⟩
  split at h
  · obtain ⟨ok, rest, rfl, h₁⟩ := exec_forward.mp h
    cases ok with
    | false =>
      obtain ⟨rfl, -⟩ := h₁
      exact .unsent .nil
    | true =>
      obtain ⟨r, rest, rfl, rfl, -⟩ := exec_recvServer.mp h₁
      exact .exchanged hsolo .nil
  · obtain ⟨rfl, -⟩ := h
    exact .nil

private theorem disciplined_copyTo {st : NsState} {path : Text} {i : Nat} {backup : Option Nat}
    {tr : List NsEvent} {out : Option NsState}
    (h : Exec (backupWritten.copyTo path i st backup) tr out) : Disciplined tr := by
  cases backup with
  | none =>
    obtain ⟨rfl, -⟩ := h
    exact .nil
  | some b =>
    obtain ⟨r, rest, rfl, h₁⟩ := exec_isSsUp.mp h
    refine .offLink rfl ?_
    simp only at h₁
    split at h₁
    · obtain ⟨-, rfl, -⟩ | ⟨name, -, h₂⟩ := exec_ofOption_bind.mp h₁
      · exact .nil
      · obtain ⟨h₃, -⟩ | ⟨_, t₁, t₂, rfl, h₃, rfl, -⟩ := exec_bind.mp h₂
        · exact disciplined_handleBackupCopy h₃
        · exact (disciplined_handleBackupCopy h₃).append .nil
    · obtain ⟨rfl, -⟩ := h₁
      exact .nil

private theorem disciplined_backupWritten {st : NsState} {path : Text} {i : Nat}
    {tr : List NsEvent} {out : Option NsState} (h : Exec (backupWritten st path i) tr out) :
    Disciplined tr := by
  obtain ⟨h₁, -⟩ | ⟨st₁, t₁, t₂, rfl, h₁, h₂⟩ := exec_bind.mp h
  · exact disciplined_copyTo h₁
  · exact (disciplined_copyTo h₁).append (disciplined_copyTo h₂)

/-- Write notifications are disciplined. -/
theorem disciplined_listenAsync {st st' : NsState} {line : Text} {tr : List NsEvent}
    (h : Exec (listenAsync st line) tr (some st')) : Disciplined tr := by
  unfold listenAsync at h
  split at h
  · obtain ⟨-, -, hout⟩ | ⟨path, -, h₁⟩ := exec_ofOption_bind.mp h
    · cases hout
    obtain ⟨⟨k, st₁⟩, t₁, t₂, rfl, hl, h₂⟩ := exec_bind_some h₁
    refine (disciplined_of_offLink (exec_lookup hl).1.offLink).append ?_
    cases k with
    | none => cases h₂.2
    | some i => exact disciplined_backupWritten h₂
  · split at h
    · obtain ⟨-, -, hout⟩ | ⟨path, -, h₁⟩ := exec_ofOption_bind.mp h
      · cases hout
      obtain ⟨⟨k, st₁⟩, t₁, t₂, rfl, hl, h₂⟩ := exec_bind_some h₁
      refine (disciplined_of_offLink (exec_lookup hl).1.offLink).append ?_
      cases k with
      | none => cases h₂.2
      | some i =>
        obtain ⟨st₂, t₃, t₄, rfl, hb, h₃⟩ := exec_bind_some h₂
        obtain ⟨-, -, hout⟩ | ⟨ip, -, h₄⟩ := exec_ofOption_bind.mp h₃
        · cases hout
        obtain ⟨-, -, hout⟩ | ⟨port, -, h₅⟩ := exec_ofOption_bind.mp h₄
        · cases hout
        obtain ⟨ok, rest, rfl, rfl, -⟩ := exec_call_bind.mp h₅
        exact (disciplined_backupWritten hb).append (.offLink rfl .nil)
    · obtain ⟨rfl, -⟩ := h
      exact .nil

private theorem disciplined_createBackupHelper {st : NsState} {i j : Nat} {tr : List NsEvent}
    {out : Option Unit} (h : Exec (createBackupHelper st i j) tr out) : Disciplined tr := by
  unfold createBackupHelper at h
  obtain ⟨-, rfl, -⟩ | ⟨destName, -, h₁⟩ := exec_ofOption_bind.mp h
  · exact .nil
  obtain ⟨ok, rest, rfl, h₂⟩ := exec_replicate.mp h₁
  refine .quiet (quiet_clip (v := .mkdirb) rfl (lit " ./backfolderforss/" ++ destName)) ?_
  obtain ⟨-, rfl, -⟩ | ⟨sourceName, -, h₃⟩ := exec_ofOption_bind.mp h₂
  · exact .nil
  · exact disciplined_handleBackupCopy h₃

private theorem disciplined_performAll {ps : List (NsProg Unit)}
    (hps : ∀ p ∈ ps, ∀ tr out, Exec p tr out → Disciplined tr) {tr : List NsEvent}
    {out : Option Unit} (h : Exec (performAll ps) tr out) : Disciplined tr := by
  induction ps generalizing tr with
  | nil =>
    obtain ⟨rfl, -⟩ := h
    exact .nil
  | cons p ps ih =>
    obtain ⟨h₁, -⟩ | ⟨_, t₁, t₂, rfl, h₁, h₂⟩ := exec_bind.mp h
    · exact hps p (by simp) _ _ h₁
    · exact (hps p (by simp) _ _ h₁).append (ih (fun q hq ↦ hps q (by simp [hq])) h₂)

/-- Registrations are disciplined. -/
theorem disciplined_registerStorageServer {st st' : NsState} {ip : Text} {socket portClient : Nat}
    {segments : List Text} {tr : List NsEvent}
    (h : Exec (registerStorageServer st socket ip portClient segments) tr (some st')) :
    Disciplined tr := by
  unfold registerStorageServer at h
  obtain ⟨-, -, hout⟩ | ⟨⟨root, finished⟩, -, h₁⟩ := exec_ofOption_bind.mp h
  · cases hout
  obtain ⟨-, -, hout⟩ | ⟨found, -, h₂⟩ := exec_ofOption_bind.mp h₁
  · cases hout
  cases found with
  | some i =>
    obtain ⟨rfl, -⟩ := h₂
    exact .nil
  | none =>
    simp only at h₂
    split at h₂
    · obtain ⟨rfl, -⟩ := h₂
      exact .nil
    · obtain ⟨_, t₁, t₂, rfl, h₃, rfl, -⟩ := exec_bind_some h₂
      refine (disciplined_performAll (fun p hp tr out hx ↦ ?_) h₃).append .nil
      obtain ⟨x, -, rfl⟩ := List.mem_map.mp hp
      exact disciplined_createBackupHelper hx

end NetworkFileSystem.Cluster
