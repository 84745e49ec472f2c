import NetworkFileSystem.Naming.Replies
import NetworkFileSystem.Base.Interleave

/-!
# Clients that share the connection of a storage server

`naming_server.c:852–906,943–1040`. Every client has a thread of its own, and threads that
forward a command to the same storage server send and receive on the same socket, with
nothing that ties a receive to a send. The server answers in the order in which the
commands arrive. Threads get the answers to their own commands if and only if they
receive in the order in which they have sent.
-/

namespace NetworkFileSystem.Naming

open Base Protocol Prog

variable {T : Type}

/-- The connection of a storage server with the commands and answers under way, each with the
thread whose command it is. `taken` are the receives so far: who received whose answer. -/
structure SharedConnection (T : Type) where
  waiting : List (T × Text)
  answers : List (T × Text)
  taken : List (T × T × Text)

namespace SharedConnection

/-- Nothing is under way. -/
def idle : SharedConnection T := ⟨[], [], []⟩

/-- The answers that the server has given, in order. -/
def given (w : SharedConnection T) : List (T × Text) := w.taken.map Prod.snd ++ w.answers

/-- The operations of thread `t` on the connection of server `i`. -/
def respond (i : Nat) (t : T) : (o : NsOp) → o.Res → SharedConnection T → SharedConnection T → Prop
  | .forward j msg, ok, w, w' =>
    j = i ∧ ok = true ∧ w' = { w with waiting := w.waiting ++ [(t, msg)] }
  | .recvServer j, r, w, w' =>
    j = i ∧ ∃ s bytes rest, w.answers = (s, bytes) :: rest ∧ r = some bytes ∧
      w' = { w with answers := rest, taken := w.taken ++ [(t, s, bytes)] }
  | .sendClient _, _, w, w' => w' = w
  | _, _, _, _ => False

/-- The server answers the first command that waits. -/
def answer (w w' : SharedConnection T) : Prop :=
  ∃ t msg rest bytes, w.waiting = (t, msg) :: rest ∧ bytes ≠ [] ∧
    w' = { w with waiting := rest, answers := w.answers ++ [(t, bytes)] }

/-- The connection of server `i` as the environment of the threads. -/
def environment (i : Nat) : SharedEnvironment T NsOp NsOp.Res (SharedConnection T) where
  respond := respond i
  silent := answer

end SharedConnection

/-- The runs of threads that each forward a line to server `i`. -/
def SharedRun [DecidableEq T] (i : Nat) (lines : T → Text) (log : List (T × NsEvent))
    (qs : T → NsProg (Option Text)) (w : SharedConnection T) : Prop :=
  Interleaved (SharedConnection.environment i) (fun t ↦ exchange i (lines t)) .idle log qs w

/-- The threads that sent a command, in order. -/
def senders (log : List (T × NsEvent)) : List T :=
  log.filterMap (fun x ↦ match x.2 with
    | ⟨.forward _ _, _⟩ => some x.1
    | _ => none)

/-- The threads that received an answer, in order. -/
def receivers (log : List (T × NsEvent)) : List T :=
  log.filterMap (fun x ↦ match x.2 with
    | ⟨.recvServer _, _⟩ => some x.1
    | _ => none)

/-- Every receive got the answer to the receiver's command; and a thread that is done has sent
that answer to its client, and changes the trie exactly if that answer reports success. -/
structure NoCrossTalk [DecidableEq T] (log : List (T × NsEvent)) (qs : T → NsProg (Option Text))
    (w : SharedConnection T) : Prop where
  answers : ∀ t s bytes, (t, s, bytes) ∈ w.taken → s = t
  done : ∀ t result, qs t = .ret result → ∃ bytes, (t, bytes) ∈ w.given ∧
    sent (own t log) = [cstr bytes] ∧ (confirms result = true ↔ couldNot (cstr bytes) = false)

/-! ### Order -/

/-- Sends succeed, and what a thread received is recorded as taken by it. -/
def Recorded (w : SharedConnection T) : T × NsEvent → Prop
  | (_, ⟨.forward _ _, ok⟩) => ok = true
  | (t, ⟨.recvServer _, r⟩) => ∃ s bytes, r = some bytes ∧ (t, s, bytes) ∈ w.taken
  | _ => True

/-- What the queues say about a run so far. -/
structure Queued (log : List (T × NsEvent)) (w : SharedConnection T) : Prop where
  senders : senders log =
    w.taken.map (fun x ↦ x.2.1) ++ w.answers.map Prod.fst ++ w.waiting.map Prod.fst
  receivers : receivers log = w.taken.map Prod.fst
  recorded : ∀ x ∈ log, Recorded w x

private theorem Recorded.mono {w w' : SharedConnection T} (h : ∀ x ∈ w.taken, x ∈ w'.taken)
    {x : T × NsEvent} (hx : Recorded w x) : Recorded w' x := by
  obtain ⟨t, o, r⟩ := x
  cases o with
  | recvServer j =>
    obtain ⟨s, bytes, hr, hm⟩ := hx
    exact ⟨s, bytes, hr, h _ hm⟩
  | _ => exact hx

private theorem recorded_append {w w' : SharedConnection T} {log : List (T × NsEvent)}
    {x : T × NsEvent} (h : ∀ y ∈ w.taken, y ∈ w'.taken) (hlog : ∀ y ∈ log, Recorded w y)
    (hx : Recorded w' x) : ∀ y ∈ log ++ [x], Recorded w' y := by
  intro y hy
  obtain hy | hy := List.mem_append.mp hy
  · exact (hlog y hy).mono h
  · exact List.mem_singleton.mp hy ▸ hx

private theorem Queued.respond {i : Nat} {t : T} {o : NsOp} {r : o.Res}
    {log : List (T × NsEvent)} {w w' : SharedConnection T} (h : Queued log w)
    (hr : SharedConnection.respond i t o r w w') : Queued (log ++ [(t, ⟨o, r⟩)]) w' := by
  cases o with
  | forward j msg =>
    obtain ⟨rfl, rfl, rfl⟩ := hr
    constructor
    · simp [Naming.senders, ← List.append_assoc, ← h.senders]
    · simp [Naming.receivers, ← h.receivers]
    · exact recorded_append (fun _ hy ↦ hy) h.recorded rfl
  | recvServer j =>
    obtain ⟨rfl, s, bytes, rest, hans, rfl, rfl⟩ := hr
    constructor
    · have hs := h.senders
      rw [hans] at hs
      simpa [Naming.senders] using hs
    · simp [Naming.receivers, ← h.receivers]
    · exact recorded_append (fun y hy ↦ by simp [hy]) h.recorded ⟨s, bytes, rfl, by simp⟩
  | sendClient msg =>
    obtain rfl : w' = w := hr
    constructor
    · simpa [Naming.senders] using h.senders
    · simpa [Naming.receivers] using h.receivers
    · exact recorded_append (fun _ hy ↦ hy) h.recorded trivial
  | ping j => cases hr
  | replicate j msg => cases hr
  | reindex j => cases hr
  | recvIndex j => cases hr
  | sendAck ip port msg => cases hr

private theorem Queued.answer {log : List (T × NsEvent)} {w w' : SharedConnection T}
    (h : Queued log w) (ha : w.answer w') : Queued log w' := by
  obtain ⟨t, msg, rest, bytes, hw, -, rfl⟩ := ha
  constructor
  · have hs := h.senders
    rw [hw] at hs
    simpa using hs
  · exact h.receivers
  · exact fun x hx ↦ (h.recorded x hx).mono (fun _ hy ↦ hy)

/-- The queues of every run. -/
theorem SharedRun.queued [DecidableEq T] {i : Nat} {lines : T → Text} {log : List (T × NsEvent)}
    {qs : T → NsProg (Option Text)} {w : SharedConnection T} (h : SharedRun i lines log qs w) :
    Queued log w := by
  induction h with
  | start => exact ⟨rfl, rfl, by simp⟩
  | silent _ ha ih => exact ih.answer ha
  | step _ _ hr ih => exact ih.respond hr

/-- Receives in the order of the sends are receives of the own answers, and only these. -/
private theorem own_iff_prefix {log : List (T × NsEvent)} {w : SharedConnection T}
    (h : Queued log w) :
    (∀ t s bytes, (t, s, bytes) ∈ w.taken → s = t) ↔ receivers log <+: senders log := by
  have howners : w.taken.map (fun x ↦ x.2.1) <+: senders log := by
    rw [h.senders, List.append_assoc]
    exact List.prefix_append _ _
  constructor
  · intro hown
    have heq : receivers log = w.taken.map (fun x ↦ x.2.1) := by
      rw [h.receivers]
      refine List.map_congr_left (fun x hx ↦ ?_)
      exact (hown x.1 x.2.1 x.2.2 hx).symm
    rw [heq]
    exact howners
  · intro hpre t s bytes hm
    rw [h.receivers] at hpre
    have heq : w.taken.map Prod.fst = w.taken.map (fun x ↦ x.2.1) :=
      (List.prefix_of_prefix_length_le hpre howners (by simp)).eq_of_length_le (by simp)
    exact (List.map_inj_left.mp heq _ hm).symm

/-- Every thread that is done got an answer, sent it to its client, and takes it as the result. -/
private theorem done_of_exec [DecidableEq T] {i : Nat} {lines : T → Text}
    {log : List (T × NsEvent)} {qs : T → NsProg (Option Text)} {w : SharedConnection T}
    (h : SharedRun i lines log qs w) {t : T} {result : Option Text} (ht : qs t = .ret result) :
    ∃ s bytes, (t, s, bytes) ∈ w.taken ∧ sent (own t log) = [cstr bytes] ∧
      result = some (cstr bytes) := by
  have hq := h.queued
  have hrec : ∀ e ∈ own t log, Recorded w (t, e) := fun e he ↦ hq.recorded _ (mem_own.mp he)
  obtain ⟨htr, -⟩ | ⟨ok, htr, -⟩ | ⟨_, -, -, hout⟩ | ⟨bytes, ok, -, htr, hout⟩ :=
    exec_exchange (Interleaved.exec h ht)
  · rw [htr] at hrec
    have hsent : false = true := hrec _ List.mem_cons_self
    cases hsent
  · rw [htr] at hrec
    obtain ⟨_, _, hr, -⟩ : Recorded w (t, ⟨.recvServer i, none⟩) := hrec _ (by simp)
    cases hr
  · cases hout
  · rw [htr] at hrec ⊢
    obtain ⟨s, bytes', hr, hm⟩ : Recorded w (t, ⟨.recvServer i, some bytes⟩) := hrec _ (by simp)
    cases hr
    exact ⟨s, bytes, hm, by simp [sentBy], Option.some.inj hout⟩

/-- In every interleaving of any number of threads that share a connection, there is no cross
talk exactly if the threads receive in the order in which they have sent. -/
theorem no_cross_talk_iff_receives_in_order [DecidableEq T] {i : Nat} {lines : T → Text}
    {log : List (T × NsEvent)} {qs : T → NsProg (Option Text)} {w : SharedConnection T}
    (h : SharedRun i lines log qs w) :
    NoCrossTalk log qs w ↔ receivers log <+: senders log := by
  rw [← own_iff_prefix h.queued]
  refine ⟨fun hn ↦ hn.answers, fun hown ↦ ⟨hown, fun t result ht ↦ ?_⟩⟩
  obtain ⟨s, bytes, hm, hsent, rfl⟩ := done_of_exec h ht
  cases hown t s bytes hm
  refine ⟨bytes, ?_, hsent, by simp [confirms]⟩
  exact List.mem_append_left _ (List.mem_map_of_mem hm)

/-! ### Two clients -/

section Steps

variable [DecidableEq T] {i : Nat} {lines : T → Text} {log : List (T × NsEvent)}
  {qs : T → NsProg (Option Text)} {w : SharedConnection T}

private theorem SharedRun.send (h : SharedRun i lines log qs w) (t : T) {msg : Text}
    {k : Bool → NsProg (Option Text)} (ht : qs t = .perform (.forward i msg) k) :
    SharedRun i lines (log ++ [(t, ⟨.forward i msg, true⟩)]) (Function.update qs t (k true))
      { w with waiting := w.waiting ++ [(t, msg)] } :=
  .step h ht ⟨rfl, rfl, rfl⟩

private theorem SharedRun.answer (h : SharedRun i lines log qs w) {t : T} {msg : Text}
    {rest : List (T × Text)} (hw : w.waiting = (t, msg) :: rest) (bytes : Text)
    (hb : bytes ≠ []) : SharedRun i lines log qs
      { w with waiting := rest, answers := w.answers ++ [(t, bytes)] } :=
  .silent h ⟨t, msg, rest, bytes, hw, hb, rfl⟩

private theorem SharedRun.receive (h : SharedRun i lines log qs w) (t : T)
    {k : Option Text → NsProg (Option Text)} (ht : qs t = .perform (.recvServer i) k) {s : T}
    {bytes : Text} {rest : List (T × Text)} (ha : w.answers = (s, bytes) :: rest) :
    SharedRun i lines (log ++ [(t, ⟨.recvServer i, some bytes⟩)])
      (Function.update qs t (k (some bytes)))
      { w with answers := rest, taken := w.taken ++ [(t, s, bytes)] } :=
  .step h ht ⟨rfl, s, bytes, rest, ha, rfl, rfl⟩

private theorem SharedRun.reply (h : SharedRun i lines log qs w) (t : T) {msg : Text}
    {k : Bool → NsProg (Option Text)} (ht : qs t = .perform (.sendClient msg) k) :
    SharedRun i lines (log ++ [(t, ⟨.sendClient msg, true⟩)]) (Function.update qs t (k true)) w :=
  .step h ht rfl

end Steps

/-- The lines of two clients. -/
private def twoLines : Bool → Text
  | true => lit "mkdir ./s/a"
  | false => lit "rm ./s/b"

private def created : Text := lit "Created folder @ ./s/a\n"

private def notRemoved : Text := lit "Could not remove file @ ./s/b\n"

/-- Two clients have sent; the one that sent first receives first, and is done. -/
theorem no_cross_talk_first_come_first_served :
    ∃ log qs w, SharedRun 0 twoLines log qs w ∧ qs true = .ret (some created) ∧
      NoCrossTalk log qs w := by
  have h₁ := SharedRun.send (.start : SharedRun 0 twoLines _ _ _) true rfl
  have h₂ := h₁.send false rfl
  have h₃ := h₂.answer rfl created (by decide)
  have h₄ := h₃.answer rfl notRemoved (by decide)
  have h₅ := (h₄.receive true rfl rfl).reply true rfl
  exact ⟨_, _, _, h₅, rfl, (no_cross_talk_iff_receives_in_order h₅).mpr (by decide)⟩

/-- Two clients have sent; the one that sent last receives first, gets the answer to the other's
command and passes it on, though its own command has failed. -/
theorem answers_are_swapped :
    ¬ ∀ (i : Nat) (lines : Bool → Text) (log : List (Bool × NsEvent))
      (qs : Bool → NsProg (Option Text)) (w : SharedConnection Bool),
      SharedRun i lines log qs w → NoCrossTalk log qs w := by
  intro hall
  have h₁ := SharedRun.send (.start : SharedRun 0 twoLines _ _ _) true rfl
  have h₂ := h₁.send false rfl
  have h₃ := h₂.answer rfl created (by decide)
  have h₄ := h₃.answer rfl notRemoved (by decide)
  have h₅ := (h₄.receive false rfl rfl).reply false rfl
  obtain ⟨bytes, hgiven, hsent, -⟩ := (hall _ _ _ _ _ h₅).done false (some created) rfl
  have hown : bytes = notRemoved := by
    simpa [SharedConnection.given, SharedConnection.idle] using hgiven
  rw [hown] at hsent
  exact absurd hsent (by decide)

end NetworkFileSystem.Naming
