import NetworkFileSystem.Naming.Registration
import NetworkFileSystem.Storage.Commands

/-!
# The connections between naming server and storage servers

`storage_server.c:355–596`, `naming_server.c:56–103`. Every registered server has one
connection. The naming server writes commands to it and reads replies from it; the
storage server takes the commands one by one, in order, and sends what the branch of the
command sends. Messages arrive whole. Commands are counted, and every reply carries the
number of the command it answers; `reads` records, for each message that the naming
server reads, the number of its last command and the number in the reply.
-/

namespace NetworkFileSystem.Cluster

open Base Protocol Naming Storage

/-- One connection. -/
structure Link where
  isOpen : Bool
  sent : Nat
  inbox : List (Nat × Text)
  outbox : List (Nat × Text)
  reads : List (Nat × Nat)

namespace Link

/-- A connection on which nothing has been sent. -/
def idle : Link := ⟨true, 0, [], [], []⟩

/-- The naming server sends a command. Behind the end of the storage server's process it may
seem to succeed or fail, and is lost. -/
def send (msg : Text) (ok : Bool) (l l' : Link) : Prop :=
  if l.isOpen then
    ok = true ∧ l' = { l with sent := l.sent + 1, inbox := l.inbox ++ [(l.sent + 1, msg)] }
  else l' = { l with sent := l.sent + 1 }

/-- The naming server waits for one message; it gets none if the process at the other end is
gone. -/
def receive (r : Option Text) (l l' : Link) : Prop :=
  (∃ k bytes rest, l.outbox = (k, bytes) :: rest ∧ r = some bytes ∧
    l' = { l with outbox := rest, reads := l.reads ++ [(l.sent, k)] }) ∨
  (l.isOpen = false ∧ l.outbox = [] ∧ r = none ∧ l' = l)

/-- The naming server reads an index: messages up to the one that shows the end marker. -/
def receiveIndex (segments : List Text) (l l' : Link) : Prop :=
  ∃ taken rest, l.outbox = taken ++ rest ∧ segments = taken.map Prod.snd ∧
    (∀ pre, pre <+: segments → pre ≠ segments → indexEnds pre [] = false) ∧
    (indexEnds segments [] = true ∨ l.isOpen = false ∧ rest = []) ∧
    l' = { l with outbox := rest, reads := l.reads ++ taken.map (fun x ↦ (l.sent, x.1)) }

/-- The storage server takes a command, or its process ends. Indexes list paths that satisfy
`ok`. A command that leaves the bounds of the code may send anything. -/
inductive Step (ok : List Text → Prop) : Link → Link → Prop where
  | process {l : Link} {k : Nat} {msg : Text} {rest out : List (Nat × Text)} :
      l.isOpen = true → l.inbox = (k, msg) :: rest →
      (execute msg ≠ none → ∃ buffer2 paths, ok paths ∧
        out = l.outbox ++ (replies msg buffer2 paths).map (Prod.mk k)) →
      Step ok l { l with inbox := rest, outbox := out }
  | close {l : Link} : Step ok l { l with isOpen := false, inbox := [] }

end Link

/-- The connections, by the index of the server. -/
abbrev Links : Type := Nat → Link

/-- Do something on the connection of server `i`. -/
def Links.on (i : Nat) (step : Link → Link → Prop) (w w' : Links) : Prop :=
  ∃ l, step (w i) l ∧ w' = Function.update w i l

/-- The operations of the naming server on the connections. -/
def Links.respond : (o : NsOp) → o.Res → Links → Links → Prop
  | .forward i msg, ok => Links.on i (Link.send msg ok)
  | .replicate i msg, ok => Links.on i (Link.send msg ok)
  | .reindex i, ok => Links.on i (Link.send (lit "reindex") ok)
  | .recvServer i, r => Links.on i (Link.receive r)
  | .recvIndex i, segments => Links.on i (Link.receiveIndex segments)
  | .ping _, _ => fun w w' ↦ w' = w
  | .sendClient _, _ => fun w w' ↦ w' = w
  | .sendAck _ _ _, _ => fun w w' ↦ w' = w

/-- The storage servers with their connections, as the environment of the naming server. -/
def cluster (ok : List Text → Prop) : Environment NsOp NsOp.Res Links where
  respond := Links.respond
  silent := fun w w' ↦ ∃ i, Links.on i (Link.Step ok) w w'

/-- The connections of which only the first is in use. -/
def Links.single (l : Link) : Links := Function.update (fun _ ↦ .idle) 0 l

@[simp] theorem Links.single_zero (l : Link) : Links.single l 0 = l := Function.update_self ..

theorem Links.single_idle : Links.single .idle = fun _ ↦ .idle := by
  simp [Links.single]

theorem Links.on_single {step : Link → Link → Prop} {l l' : Link} (h : step l l') :
    Links.on 0 step (Links.single l) (Links.single l') := by
  refine ⟨l', by rw [Links.single_zero]; exact h, ?_⟩
  simp [Links.single]

/-! ### One connection -/

/-- A command that the storage server carries out without a reply. -/
def Unanswered (msg : Text) : Prop :=
  execute msg ≠ none ∧ ∃ v, branch msg = some v ∧ v.isBackup = true

/-- Every message read so far answered the last command. -/
def ReadsInStep (l : Link) : Prop := ∀ r ∈ l.reads, r.1 = r.2

namespace Link

/-- Between two exchanges: no reply is there or will come. -/
structure Calm (l : Link) : Prop where
  reads : ReadsInStep l
  outbox : l.outbox = []
  inbox : ∀ x ∈ l.inbox, Unanswered x.2
  closed : l.isOpen = false → l.inbox = []

/-- Behind the command `msg`: it is the last one that waits, or it has been answered, or the
process of the storage server has ended. -/
structure Awaiting (ok : List Text → Prop) (msg : Text) (l : Link) : Prop where
  reads : ReadsInStep l
  stage : (l.isOpen = true ∧ l.outbox = [] ∧ ∃ pre, l.inbox = pre ++ [(l.sent, msg)] ∧
      ∀ x ∈ pre, Unanswered x.2) ∨
    (l.inbox = [] ∧ ∃ buffer2 paths, ok paths ∧
      l.outbox = (replies msg buffer2 paths).map (Prod.mk l.sent)) ∨
    (l.isOpen = false ∧ l.inbox = [] ∧ l.outbox = [])

variable {ok : List Text → Prop} {l l' : Link} {msg : Text}

theorem send_of_isOpen (h : l.isOpen = true) :
    l.send msg true { l with sent := l.sent + 1, inbox := l.inbox ++ [(l.sent + 1, msg)] } := by
  rw [Link.send, if_pos h]
  exact ⟨rfl, rfl⟩

theorem calm_idle : Calm idle :=
  ⟨by simp [ReadsInStep, idle], rfl, by simp [idle], by simp [idle]⟩

private theorem outbox_of_unanswered {k : Nat} {out : List (Nat × Text)} (h : Unanswered msg)
    (hout : execute msg ≠ none → ∃ buffer2 paths, ok paths ∧
      out = l.outbox ++ (replies msg buffer2 paths).map (Prod.mk k)) : out = l.outbox := by
  obtain ⟨hdef, v, hv, hb⟩ := h
  obtain ⟨buffer2, paths, -, rfl⟩ := hout hdef
  rw [replies_of_isBackup hv hb]
  simp

theorem Calm.step (h : l.Calm) (hs : Step ok l l') : l'.Calm := by
  cases hs with
  | @process _ msg rest out hopen hin hout =>
    have hhead : Unanswered msg := h.inbox _ (by rw [hin]; exact List.mem_cons_self)
    have heq := outbox_of_unanswered hhead hout
    refine ⟨h.reads, heq.trans h.outbox, fun x hx ↦ h.inbox x ?_, fun hc ↦ ?_⟩
    · rw [hin]
      exact List.mem_cons_of_mem _ hx
    · rw [show l.isOpen = false from hc] at hopen
      cases hopen
  | close => exact ⟨h.reads, h.outbox, by simp, fun _ ↦ rfl⟩

theorem Awaiting.step (h : l.Awaiting ok msg) (hdef : execute msg ≠ none) (hs : Step ok l l') :
    l'.Awaiting ok msg := by
  cases hs with
  | @process k m rest out hopen hin hout =>
    refine ⟨h.reads, ?_⟩
    obtain ⟨-, hempty, pre, hpre, hquiet⟩ | ⟨hnil, -⟩ | ⟨-, hnil, -⟩ := h.stage
    · rw [hpre] at hin
      cases pre with
      | nil =>
        -- The awaited command itself is taken.
        obtain ⟨hhead, rfl⟩ := List.cons.inj hin
        obtain ⟨rfl, rfl⟩ := Prod.mk.inj hhead
        obtain ⟨buffer2, paths, hok, rfl⟩ := hout hdef
        exact .inr (.inl ⟨rfl, buffer2, paths, hok, by simp [hempty]⟩)
      | cons x pre =>
        obtain ⟨rfl, rfl⟩ := List.cons.inj hin
        have heq := outbox_of_unanswered (hquiet _ List.mem_cons_self) hout
        exact .inl ⟨hopen, heq.trans hempty, pre, rfl,
          fun x hx ↦ hquiet x (List.mem_cons_of_mem _ hx)⟩
    · rw [hnil] at hin
      cases hin
    · rw [hnil] at hin
      cases hin
  | close =>
    refine ⟨h.reads, ?_⟩
    obtain ⟨-, hempty, -⟩ | ⟨-, hans⟩ | ⟨-, -, hempty⟩ := h.stage
    · exact .inr (.inr ⟨rfl, rfl, hempty⟩)
    · exact .inr (.inl ⟨rfl, hans⟩)
    · exact .inr (.inr ⟨rfl, rfl, hempty⟩)

theorem Calm.send_unanswered {sent : Bool} (h : l.Calm) (hm : Unanswered msg)
    (hs : l.send msg sent l') : l'.Calm := by
  unfold Link.send at hs
  split at hs
  · next hopen =>
    obtain ⟨-, rfl⟩ := hs
    refine ⟨h.reads, h.outbox, fun x hx ↦ ?_, fun hc ↦ ?_⟩
    · obtain hx | hx := List.mem_append.mp hx
      · exact h.inbox x hx
      · exact List.mem_singleton.mp hx ▸ hm
    · rw [show l.isOpen = false from hc] at hopen
      cases hopen
  · subst hs
    exact ⟨h.reads, h.outbox, h.inbox, h.closed⟩

theorem Calm.send {sent : Bool} (h : l.Calm) (hs : l.send msg sent l') : l'.Awaiting ok msg := by
  unfold Link.send at hs
  split at hs
  · next hopen =>
    obtain ⟨-, rfl⟩ := hs
    exact ⟨h.reads, .inl ⟨hopen, h.outbox, l.inbox, rfl, h.inbox⟩⟩
  · next hopen =>
    subst hs
    have hc : l.isOpen = false := by simpa using hopen
    exact ⟨h.reads, .inr (.inr ⟨hc, h.closed hc, h.outbox⟩)⟩

/-- A failed send was one to a server that is gone. -/
theorem Calm.send_failed (h : l.Calm) (hs : l.send msg false l') : l'.Calm := by
  unfold Link.send at hs
  split at hs
  · obtain ⟨hf, -⟩ := hs
    cases hf
  · subst hs
    exact ⟨h.reads, h.outbox, h.inbox, h.closed⟩

private theorem readsInStep_append {reads : List (Nat × Nat)} (h : ReadsInStep l)
    (hr : ∀ r ∈ reads, r.1 = r.2) : ∀ r ∈ l.reads ++ reads, r.1 = r.2 :=
  fun r hm ↦ (List.mem_append.mp hm).elim (h r) (hr r)

private theorem Awaiting.inbox_of_closed (h : l.Awaiting ok msg) (hc : l.isOpen = false) :
    l.inbox = [] := by
  obtain ⟨ho, -⟩ | ⟨hin, -⟩ | ⟨-, hin, -⟩ := h.stage
  · rw [hc] at ho
    cases ho
  · exact hin
  · exact hin

/-- The one reply is read, and it is the reply to the last command. -/
theorem Awaiting.receive {r : Option Text} (h : l.Awaiting ok msg)
    (hone : ∀ buffer2 paths, (replies msg buffer2 paths).length ≤ 1) (hr : l.receive r l') :
    l'.Calm := by
  obtain ⟨k, bytes, rest, hout, -, rfl⟩ | ⟨hopen, hempty, -, rfl⟩ := hr
  · obtain ⟨-, hnone, -⟩ | ⟨hin, buffer2, paths, -, hans⟩ | ⟨-, -, hnone⟩ := h.stage
    · rw [hnone] at hout
      cases hout
    · have hlen := hone buffer2 paths
      rw [hans] at hout
      obtain ⟨x, xs, hx, hk, hxs⟩ := List.map_eq_cons_iff.mp hout
      have hnil : xs = [] := by
        rw [hx] at hlen
        simpa using hlen
      obtain ⟨rfl, rfl⟩ := Prod.mk.inj hk
      refine ⟨readsInStep_append h.reads (by simp), ?_, by simp [hin], fun _ ↦ hin⟩
      rw [← hxs, hnil]
      rfl
    · rw [hnone] at hout
      cases hout
  · have hin := h.inbox_of_closed hopen
    exact ⟨h.reads, hempty, by simp [hin], fun _ ↦ hin⟩

/-- An index is read to its end. -/
theorem Awaiting.receiveIndex {segments : List Text}
    (h : l.Awaiting (fun paths ↦ ∀ p ∈ paths, Indexable p) (lit "reindex"))
    (hr : l.receiveIndex segments l') : l'.Calm := by
  obtain ⟨taken, rest, hout, rfl, -, hend, rfl⟩ := hr
  obtain ⟨hopen, hnone, -⟩ | ⟨hin, buffer2, paths, hok, hans⟩ | ⟨-, hin, hnone⟩ := h.stage
  · -- Nothing has arrived, so nothing can have ended.
    rw [hnone, eq_comm, List.append_eq_nil_iff] at hout
    obtain ⟨rfl, rfl⟩ := hout
    obtain hend | ⟨hclosed, -⟩ := hend
    · cases hend
    · rw [hopen] at hclosed
      cases hclosed
  · rw [hans, replies_reindex] at hout
    have hmap := congrArg (List.map Prod.snd) hout
    simp only [List.map_map, List.map_append, Function.comp_def, List.map_id'] at hmap
    have hrest : rest = [] := by
      obtain hend | ⟨-, hrest⟩ := hend
      · obtain hall | hpre := List.prefix_concat_iff.mp
          (hmap ▸ List.prefix_append (taken.map Prod.snd) (rest.map Prod.snd))
        · rw [hall, indexMessages] at hmap
          simpa using hmap
        · -- Before the end marker there are only lines that do not end the index.
          rw [indexEnds_of_before _ hok hpre] at hend
          cases hend
      · exact hrest
    refine ⟨readsInStep_append h.reads ?_, hrest, by simp [hin], fun _ ↦ hin⟩
    intro r hr
    obtain ⟨x, hx, rfl⟩ := List.mem_map.mp hr
    have hx' : x ∈ (indexMessages paths).map (Prod.mk l.sent) := hout ▸ List.mem_append_left _ hx
    obtain ⟨_, -, rfl⟩ := List.mem_map.mp hx'
    rfl
  · rw [hnone, eq_comm, List.append_eq_nil_iff] at hout
    obtain ⟨rfl, rfl⟩ := hout
    refine ⟨readsInStep_append h.reads (by simp), rfl, by simp [hin], fun _ ↦ hin⟩

end Link

end NetworkFileSystem.Cluster
