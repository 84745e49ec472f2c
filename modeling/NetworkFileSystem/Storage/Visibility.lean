import NetworkFileSystem.Storage.SameLock

/-!
# When a write can be seen

`storage_server.c:38–202,204–282,322–336`. What a write prints stays in the buffer of its
stream until the file is closed. Both writers give the lock back before they close the file,
so a `cat` can come in between, and the asynchronous one tells the naming server before, so
the backups can be copied without the data. Whoever reads while no file is open, and whoever
is told by a request that has closed its file, finds all data in the file.
-/

namespace NetworkFileSystem.Storage

open Base Protocol Lock Prog

/-! ### Streams -/

/-- The stream of a write: not opened, open with what is printed so far, or closed. -/
inductive Stream where
  | unopened
  | opened (buffered : Text)
  | closed
  deriving DecidableEq

/-- The file of one path, with the streams that the requests have for it. -/
structure DataFile (T : Type) where
  contents : Text
  streams : T → Stream

variable {T : Type} [DecidableEq T]

/-- The calls of the C library on the file: printed text is buffered, and what is buffered is
appended to the file when the stream is closed. A reader gets the file or a part of it. -/
def fileRespond (t : T) : (o : SsOp) → o.Res → DataFile T → DataFile T → Prop
  | .fopen _, true, d, d' => d' = { d with streams := Function.update d.streams t (.opened []) }
  | .fprintf text, _, d, d' => ∃ buffered, d.streams t = .opened buffered ∧
      d' = { d with streams := Function.update d.streams t (.opened (buffered ++ text)) }
  | .fclose, _, d, d' => ∃ buffered, d.streams t = .opened buffered ∧
      d' = ⟨d.contents ++ buffered, Function.update d.streams t .closed⟩
  | .openRead _, r, d, d' => (∀ blocks, r = some blocks → blocks.flatten <+: d.contents) ∧ d' = d
  | _, _, d, d' => d' = d

/-- The table of locks and the file as the environment of requests. All requests for the path
come to one lock, and they may do what `allowed` says. -/
def lockedFile (allowed : T → SsOp → DataFile T → Prop) :
    SharedEnvironment T SsOp SsOp.Res (List LockStruct × DataFile T) where
  respond := fun t o r w w' ↦ allowed t o w.2 ∧ NoneYet o w.1 ∧ tableRespond o r w.1 w'.1 ∧
    fileRespond t o r w.2 w'.2
  silent := fun _ _ ↦ False

/-- A write to `path`, or a `cat` of it. -/
def Request.WritesOrReads (path : Text) : Request → Prop
  | .writeSync buffer | .writeAsync buffer => (tokens bar buffer)[1]? = some path
  | .cat path' => path' = path
  | .rm _ => False

/-- The runs of requests on a file with any contents. -/
def FileRun (allowed : T → SsOp → DataFile T → Prop) (requests : T → Request) (contents : Text)
    (log : List (T × SsEvent)) (qs : T → SsProg Unit) (w : List LockStruct × DataFile T) : Prop :=
  Interleaved (lockedFile allowed) (fun t ↦ (requests t).program)
    ([], ⟨contents, fun _ ↦ .unopened⟩) log qs w

/-- A lock is taken for reading only when no file is open, and the naming server is told only by
a request that has closed its file. -/
def Settled (t : T) : SsOp → DataFile T → Prop
  | .acquire .read _, d => ∀ u buffered, d.streams u ≠ .opened buffered
  | .notify _, d => d.streams t = .closed
  | _, _ => True

/-! ### What a request has done -/

/-- The lock that a request holds, its stream, what it has printed, whether it has released a
write lock, and whether it has told the naming server. -/
structure Progress where
  held : Option Mode
  stream : Stream
  printed : Text
  released : Bool
  notified : Bool

namespace Progress

/-- A request that has not begun. -/
def start : Progress := ⟨none, .unopened, [], false, false⟩

/-- What an operation adds. -/
def after (s : Progress) : SsEvent → Progress
  | ⟨.acquire m _, _⟩ => { s with held := some m }
  | ⟨.release .write _, _⟩ => { s with held := none, released := true }
  | ⟨.release _ _, _⟩ => { s with held := none }
  | ⟨.fopen _, true⟩ => { s with stream := .opened [] }
  | ⟨.fprintf text, _⟩ =>
    { s with stream := .opened (s.printed ++ text), printed := s.printed ++ text }
  | ⟨.fclose, _⟩ => { s with stream := .closed }
  | ⟨.notify _, true⟩ => { s with notified := true }
  | _ => s

/-- The order of the handlers: a file is opened once, printed to before the write lock is
released, and closed behind that. -/
def inOrder (s : Progress) : SsEvent → Bool
  | ⟨.acquire _ _, _⟩ => s.held = none
  | ⟨.release .write _, _⟩ => s.held = some .write ∧ s.printed ≠ []
  | ⟨.fopen _, _⟩ => s.stream = .unopened
  | ⟨.fprintf _, _⟩ => s.released = false
  | ⟨.fclose, _⟩ => s.released = true
  | _ => true

/-- The automaton of the order. -/
def next (s : Progress) (e : SsEvent) : Option Progress :=
  if s.inOrder e then some (s.after e) else none

end Progress

/-- What the events of a request amount to. -/
def progress (tr : List SsEvent) : Progress := tr.foldl Progress.after .start

theorem progress_concat (tr : List SsEvent) (e : SsEvent) :
    progress (tr ++ [e]) = (progress tr).after e :=
  List.foldl_append

/-- Everything that the request has printed is in the file, and it has printed something. -/
def Saved (s : Progress) (contents : Text) : Prop := s.printed ≠ [] ∧ s.printed <:+: contents

/-- While a `cat` holds its lock, the file has the data of every write that has released its
own; and it has the data of every request that has told the naming server. -/
structure Visible (log : List (T × SsEvent)) (contents : Text) : Prop where
  read : ∀ c, (progress (own c log)).held = some .read →
    ∀ t, (progress (own t log)).released = true → Saved (progress (own t log)) contents
  acknowledged : ∀ t, (progress (own t log)).notified = true →
    Saved (progress (own t log)) contents

/-! ### The order of the handlers -/

/-- A program in order from `s`. -/
private abbrev Ordered {α : Type} (s : Progress) (p : SsProg α) : Prop :=
  Follows Progress.next (fun _ _ ↦ True) s p

private theorem ordered_perform {o : SsOp} {α : Type} {f : o.Res → SsProg α} {s : Progress}
    (hs : ∀ r, s.inOrder ⟨o, r⟩ = true) (h : ∀ r, Ordered (s.after ⟨o, r⟩) (f r)) :
    Ordered s (perform o >>= f) :=
  follows_call (fun r ↦ ⟨_, if_pos (hs r), h r⟩)

private theorem ordered_lockIndex {α : Type} {path : Text} {f : Nat → SsProg α} {s : Progress}
    (h : ∀ i, Ordered s (f i)) : Ordered s (lockIndex path >>= f) := by
  have hindex : Follows Progress.next (fun _ s' ↦ s' = s) s (lockIndex path) := by
    refine follows_call (fun r ↦ ⟨s, rfl, ?_⟩)
    cases r with
    | none => exact fun i ↦ ⟨s, rfl, rfl⟩
    | some i => exact rfl
  exact follows_seq hindex h

/-- A notification is always in order. -/
private theorem ordered_sendAckToNm {α : Type} {command : Text} {f : Unit → SsProg α}
    {s : Progress} (h : Ordered { s with notified := true } (f ())) :
    Ordered s (sendAckToNm command >>= f) := by
  refine follows_call (fun r ↦ ⟨_, rfl, ?_⟩)
  cases r with
  | false => trivial
  | true => exact h

/-- The blocks of an asynchronous write are printed one behind the other. -/
private theorem ordered_printBlocks {α : Type} {blocks : List Text} {f : Unit → SsProg α}
    {s : Progress} (hs : s.released = false) (hstream : s.stream = .opened s.printed)
    (h : Ordered { s with stream := .opened (s.printed ++ blocks.flatten),
                          printed := s.printed ++ blocks.flatten } (f ())) :
    Ordered s (printBlocks blocks >>= f) := by
  induction blocks generalizing s with
  | nil =>
    rw [List.flatten_nil, List.append_nil, ← hstream] at h
    exact h
  | cons block blocks ih =>
    refine ordered_perform (fun _ ↦ by simp [Progress.inOrder, hs]) (fun _ ↦ ih hs rfl ?_)
    rw [List.flatten_cons, ← List.append_assoc] at h
    exact h

private theorem ordered_sendBlocks {α : Type} {blocks : List Text} {f : Unit → SsProg α}
    {s : Progress} (h : Ordered s (f ())) : Ordered s (sendBlocks blocks >>= f) := by
  induction blocks with
  | nil => exact h
  | cons block blocks ih =>
    refine follows_call (fun r ↦ ⟨s, rfl, ?_⟩)
    cases r with
    | false => exact h
    | true => exact ih

/-- The last block of an asynchronous write ends with a newline. -/
private theorem asyncBlocks_ne_nil {array data : Text} {offset : Nat} {blocks : List Text}
    (h : asyncBlocks array offset data = some blocks) : blocks.flatten ≠ [] := by
  induction data generalizing array offset blocks with
  | nil =>
    obtain ⟨text, -, hb⟩ := Option.bind_eq_some_iff.mp h
    cases hb
    simp [lit]
  | cons b data ih =>
    unfold asyncBlocks at h
    split at h
    · obtain ⟨block, -, hblocks⟩ := Option.bind_eq_some_iff.mp h
      obtain ⟨rest, hrest, hb⟩ := Option.bind_eq_some_iff.mp hblocks
      cases hb
      simp [ih hrest]
    · exact ih h

/-- Every write and every `cat` is in order. -/
theorem ordered_program {path : Text} {r : Request} (h : r.WritesOrReads path) :
    Follows Progress.next (fun _ _ ↦ True) .start r.program := by
  cases r with
  | rm path' => exact h.elim
  | cat path' =>
    refine ordered_lockIndex (fun i ↦ ordered_perform (fun _ ↦ rfl) (fun _ ↦ ?_))
    have hrelease : ∀ s : Progress, Ordered s (do let _ ← perform (.release .read i); pure ()) :=
      fun s ↦ ordered_perform (fun _ ↦ rfl) (fun _ ↦ trivial)
    unfold readFile
    rw [bind_assoc]
    refine ordered_perform (fun _ ↦ rfl) (fun r ↦ ?_)
    cases r with
    | some blocks => exact ordered_sendBlocks (hrelease _)
    | none => exact ordered_perform (fun _ ↦ rfl) (fun _ ↦ hrelease _)
  | writeSync buffer =>
    have hfile : Ordered .start (writeFile buffer) := by
      refine follows_ofOption (fun path hpath ↦ ordered_lockIndex (fun i ↦ ?_))
      refine ordered_perform (fun _ ↦ rfl) (fun _ ↦ ordered_perform (fun _ ↦ rfl) ?_)
      rintro (_ | _)
      · trivial
      · refine follows_ofOption (fun data hdata ↦ ordered_perform (fun _ ↦ rfl) (fun _ ↦ ?_))
        refine ordered_perform (fun _ ↦ ?_) (fun _ ↦ ordered_perform (fun _ ↦ rfl) (fun _ ↦ trivial))
        simp [Progress.inOrder, Progress.after, lit]
    refine follows_bind hfile (fun buffer2 s _ ↦ ordered_perform (fun _ ↦ rfl) (fun _ ↦ ?_))
    rw [← bind_pure (sendAckToNm buffer)]
    exact ordered_sendAckToNm trivial
  | writeAsync buffer =>
    refine ordered_perform (fun _ ↦ rfl) (fun _ ↦ ?_)
    refine follows_ofOption (fun path hpath ↦ ordered_lockIndex (fun i ↦ ?_))
    refine ordered_perform (fun _ ↦ rfl) (fun _ ↦ ordered_perform (fun _ ↦ rfl) ?_)
    rintro (_ | _)
    · exact ordered_perform (fun _ ↦ rfl) (fun _ ↦ trivial)
    · refine follows_ofOption (fun ip _ ↦ follows_ofOption (fun port _ ↦ ?_))
      refine follows_ofOption (fun data _ ↦ ordered_perform (fun _ ↦ rfl) (fun array ↦ ?_))
      refine follows_ofOption (fun blocks hblocks ↦ ordered_printBlocks rfl rfl ?_)
      refine ordered_perform (fun _ ↦ ?_) (fun _ ↦ ordered_sendAckToNm ?_)
      · simpa [Progress.inOrder, Progress.after, Progress.start] using asyncBlocks_ne_nil hblocks
      · exact ordered_perform (fun _ ↦ rfl) (fun _ ↦ trivial)

/-! ### Streams and the file -/

/-- What the order of the handlers makes of a request: the stream has what is printed, and a
closed one belongs to a write that has printed something and released its lock. -/
structure Progress.Valid (s : Progress) : Prop where
  unopened : s.stream = .unopened → s.printed = []
  buffered : ∀ text, s.stream = .opened text → text = s.printed
  closed : s.stream = .closed → s.released = true
  released : s.released = true → s.printed ≠ []

namespace Progress.Valid

theorem of_start : Progress.start.Valid :=
  ⟨fun _ ↦ rfl, (fun _ h ↦ nomatch h), (fun h ↦ nomatch h), (fun h ↦ nomatch h)⟩

theorem after {s : Progress} {e : SsEvent} (h : s.Valid) (he : s.inOrder e = true) :
    (s.after e).Valid := by
  obtain ⟨hunopened, hbuffered, hclosed, hreleased⟩ := h
  obtain ⟨o, r⟩ := e
  cases o with
  | release m i =>
    cases m with
    | write =>
      obtain ⟨-, hne⟩ := of_decide_eq_true he
      exact ⟨hunopened, hbuffered, fun _ ↦ rfl, fun _ ↦ hne⟩
    | read | delete => exact ⟨hunopened, hbuffered, hclosed, hreleased⟩
  | fopen path =>
    cases r with
    | true =>
      have hprinted := hunopened (of_decide_eq_true he)
      refine ⟨(fun hs ↦ nomatch hs), fun text hs ↦ ?_, (fun hs ↦ nomatch hs), hreleased⟩
      cases hs
      exact hprinted.symm
    | false => exact ⟨hunopened, hbuffered, hclosed, hreleased⟩
  | fprintf text =>
    have hnot : s.released = false := of_decide_eq_true he
    refine ⟨(fun hs ↦ nomatch hs), fun text hs ↦ ?_, (fun hs ↦ nomatch hs), fun hs ↦ ?_⟩
    · cases hs
      rfl
    · exact absurd (hnot.symm.trans hs) (by decide)
  | fclose =>
    have hrel : s.released = true := of_decide_eq_true he
    exact ⟨(fun hs ↦ nomatch hs), (fun _ hs ↦ nomatch hs), fun _ ↦ hrel, hreleased⟩
  | notify text => cases r <;> exact ⟨hunopened, hbuffered, hclosed, hreleased⟩
  | _ => exact ⟨hunopened, hbuffered, hclosed, hreleased⟩

theorem closed_of_not_opened {s : Progress} (h : s.Valid) (hs : s.released = true)
    (hno : ∀ text, s.stream ≠ .opened text) : s.stream = .closed := by
  cases hstream : s.stream with
  | unopened => exact absurd (h.unopened hstream) (h.released hs)
  | opened text => exact absurd hstream (hno text)
  | closed => rfl

end Progress.Valid

/-- A closed stream stays closed. -/
private theorem Progress.closed_after {s : Progress} {e : SsEvent} (h : s.Valid)
    (he : s.inOrder e = true) (hs : s.stream = .closed) : (s.after e).stream = .closed := by
  obtain ⟨o, r⟩ := e
  cases o with
  | fopen path =>
    rw [of_decide_eq_true he] at hs
    cases hs
  | fprintf text =>
    have hnot : s.released = false := of_decide_eq_true he
    rw [h.closed hs] at hnot
    cases hnot
  | fclose => rfl
  | release m i => cases m <;> exact hs
  | notify text => cases r <;> exact hs
  | _ => exact hs

private theorem Progress.held_of_after {s : Progress} {e : SsEvent}
    (h : (s.after e).held = some .read) :
    s.held = some .read ∨ ∃ i, e.1 = .acquire .read i := by
  obtain ⟨o, r⟩ := e
  cases o with
  | acquire m i =>
    obtain rfl := Option.some.inj h
    exact .inr ⟨i, rfl⟩
  | release m i => cases m <;> cases h
  | fopen path | notify text => cases r <;> exact .inl h
  | _ => exact .inl h

private theorem Progress.released_of_after {s : Progress} {e : SsEvent}
    (h : (s.after e).released = true) :
    s.released = true ∨ ∃ i, e.1 = .release .write i := by
  obtain ⟨o, r⟩ := e
  cases o with
  | release m i =>
    cases m with
    | write => exact .inr ⟨i, rfl⟩
    | read | delete => exact .inl h
  | fopen path | notify text => cases r <;> exact .inl h
  | _ => exact .inl h

/-- The streams are those of the requests, and what was printed to closed ones is in the file. -/
structure Written (st : T → Progress) (d : DataFile T) : Prop where
  valid : ∀ t, (st t).Valid
  streams : ∀ t, d.streams t = (st t).stream
  stored : ∀ t, (st t).stream = .closed → (st t).printed <:+: d.contents
  acknowledged : ∀ t, (st t).notified = true → (st t).stream = .closed

/-- One request moves on, and the file does not shrink. -/
private theorem Written.update {st : T → Progress} {d d' : DataFile T} (h : Written st d) {t : T}
    {s : Progress} (hvalid : s.Valid) (hothers : ∀ u, u ≠ t → d'.streams u = d.streams u)
    (hcontents : d.contents <+: d'.contents) (hstream : d'.streams t = s.stream)
    (hstored : s.stream = .closed → s.printed <:+: d'.contents)
    (hack : s.notified = true → s.stream = .closed) : Written (Function.update st t s) d' := by
  have hcases : ∀ (P : T → Progress → Prop), P t s → (∀ u, u ≠ t → P u (st u)) →
      ∀ u, P u (Function.update st t s u) := by
    intro P ht hu u
    by_cases hut : u = t
    · rw [hut, Function.update_self]
      exact ht
    · rw [Function.update_of_ne hut]
      exact hu u hut
  constructor
  · exact hcases (fun _ s ↦ s.Valid) hvalid (fun u _ ↦ h.valid u)
  · exact hcases (fun u s ↦ d'.streams u = s.stream) hstream
      (fun u hu ↦ (hothers u hu).trans (h.streams u))
  · exact hcases (fun _ s ↦ s.stream = .closed → s.printed <:+: d'.contents) hstored
      (fun u _ hu ↦ (h.stored u hu).trans hcontents.isInfix)
  · exact hcases (fun _ s ↦ s.notified = true → s.stream = .closed) hack
      (fun u _ ↦ h.acknowledged u)

private theorem Written.step {st : T → Progress} {d d' : DataFile T} {t : T} {o : SsOp} {r : o.Res}
    (h : Written st d) (ho : (st t).inOrder ⟨o, r⟩ = true) (hset : Settled t o d)
    (hr : fileRespond t o r d d') :
    Written (Function.update st t ((st t).after ⟨o, r⟩)) d' := by
  have hvalid := (h.valid t).after ho
  cases o with
  | fopen path =>
    cases r with
    | true =>
      obtain rfl : d' = _ := hr
      refine h.update hvalid (fun u hu ↦ Function.update_of_ne hu _ _) List.prefix_rfl
        (Function.update_self ..) (fun hs ↦ nomatch hs) (fun hn ↦ ?_)
      have hclosed := h.acknowledged t hn
      rw [of_decide_eq_true ho] at hclosed
      cases hclosed
    | false =>
      obtain rfl : d' = d := hr
      exact h.update hvalid (fun _ _ ↦ rfl) List.prefix_rfl (h.streams t) (h.stored t)
        (h.acknowledged t)
  | fprintf text =>
    obtain ⟨buffered, hstream, rfl⟩ := hr
    rw [h.streams t] at hstream
    obtain rfl := (h.valid t).buffered _ hstream
    refine h.update hvalid (fun u hu ↦ Function.update_of_ne hu _ _) List.prefix_rfl
      (Function.update_self ..) (fun hs ↦ nomatch hs) (fun hn ↦ ?_)
    have hclosed := h.acknowledged t hn
    rw [hstream] at hclosed
    cases hclosed
  | fclose =>
    obtain ⟨buffered, hstream, rfl⟩ := hr
    rw [h.streams t] at hstream
    obtain rfl := (h.valid t).buffered _ hstream
    exact h.update hvalid (fun u hu ↦ Function.update_of_ne hu _ _) (List.prefix_append _ _)
      (Function.update_self ..) (fun _ ↦ (List.suffix_append _ _).isInfix) (fun _ ↦ rfl)
  | notify text =>
    obtain rfl : d' = d := by cases r <;> exact hr
    have hclosed : (st t).stream = .closed := (h.streams t).symm.trans hset
    cases r <;> exact h.update hvalid (fun _ _ ↦ rfl) List.prefix_rfl (h.streams t) (h.stored t)
      (fun _ ↦ hclosed)
  | openRead path =>
    obtain rfl : d' = d := hr.2
    exact h.update hvalid (fun _ _ ↦ rfl) List.prefix_rfl (h.streams t) (h.stored t)
      (h.acknowledged t)
  | release m i =>
    obtain rfl : d' = d := hr
    cases m <;> exact h.update hvalid (fun _ _ ↦ rfl) List.prefix_rfl (h.streams t) (h.stored t)
      (h.acknowledged t)
  | _ =>
    obtain rfl : d' = d := hr
    exact h.update hvalid (fun _ _ ↦ rfl) List.prefix_rfl (h.streams t) (h.stored t)
      (h.acknowledged t)

/-! ### Runs -/

section Runs

variable {requests : T → Request} {contents path : Text} {log : List (T × SsEvent)}
  {qs : T → SsProg Unit} {w : List LockStruct × DataFile T}
  {allowed : T → SsOp → DataFile T → Prop}

theorem progress_of_stateAfter {tr : List SsEvent} {s : Progress}
    (h : stateAfter Progress.next .start tr = some s) : s = progress tr := by
  induction tr using List.reverseRecOn generalizing s with
  | nil => exact (Option.some.inj h).symm
  | append_singleton tr e ih =>
    rw [stateAfter_concat] at h
    obtain ⟨s₁, hs₁, he⟩ := Option.bind_eq_some_iff.mp h
    rw [progress_concat, ← ih hs₁]
    exact (Option.some.inj (Option.ite_none_right_eq_some.mp he).2).symm

theorem progress_held (tr : List SsEvent) : (progress tr).held = lockSection tr := by
  induction tr using List.reverseRecOn with
  | nil => rfl
  | append_singleton tr e ih =>
    obtain ⟨o, r⟩ := e
    rw [progress_concat, lockSection_concat]
    cases o with
    | acquire m i => rfl
    | release m i => cases m <;> rfl
    | fopen path | notify text => cases r <;> exact ih
    | _ => exact ih

private theorem progress_own_concat (t u : T) (log : List (T × SsEvent)) (e : SsEvent) :
    progress (own t (log ++ [(u, e)])) =
      if u = t then (progress (own t log)).after e else progress (own t log) := by
  rw [own_append, own_singleton]
  split
  · exact progress_concat _ _
  · rw [List.append_nil]

/-- In every settled run, the streams and the file are what the requests have done. -/
theorem FileRun.written (h : FileRun Settled requests contents log qs w)
    (hpath : ∀ t, (requests t).WritesOrReads path) :
    Written (fun t ↦ progress (own t log)) w.2 := by
  obtain ⟨st, hwritten, hst⟩ := Interleaved.follows h (I := fun st w ↦ Written st w.2)
    (fun t ↦ ordered_program (hpath t))
    ⟨fun _ ↦ .of_start, fun _ ↦ rfl, (fun _ hs ↦ nomatch hs), (fun _ hs ↦ nomatch hs)⟩
    (fun _ _ _ _ hs ↦ hs.elim) (fun st u v t o r s' hI hs hr ↦ by
      obtain ⟨ho, hs'⟩ := Option.ite_none_right_eq_some.mp hs
      rw [← Option.some.inj hs']
      exact hI.step ho hr.1 hr.2.2.2)
  have hsame : st = fun t ↦ progress (own t log) :=
    funext (fun t ↦ progress_of_stateAfter (hst t).2)
  exact hsame ▸ hwritten

/-- Every step of a run is in order. -/
theorem FileRun.inOrder {t : T} {e : SsEvent}
    (h : FileRun allowed requests contents (log ++ [(t, e)]) qs w)
    (hpath : ∀ t, (requests t).WritesOrReads path) :
    (progress (own t log)).inOrder e = true := by
  obtain ⟨st, -, hst⟩ := Interleaved.follows h (I := fun _ _ ↦ True)
    (fun t ↦ ordered_program (hpath t)) trivial (fun _ _ _ _ hs ↦ hs.elim)
    (fun _ _ _ _ _ _ _ _ _ _ ↦ trivial)
  have ht := (hst t).2
  rw [own_append, own_singleton, if_pos rfl, stateAfter_concat] at ht
  obtain ⟨s, hs, he⟩ := Option.bind_eq_some_iff.mp ht
  rw [← progress_of_stateAfter hs]
  exact (Option.ite_none_right_eq_some.mp he).1

/-- A run on the file is a run on the table of locks. -/
theorem FileRun.requestRun (h : FileRun allowed requests contents log qs w) :
    RequestRunWhere NoneYet requests log qs w.1 := by
  induction h with
  | start => exact .start
  | silent _ hs _ => exact hs.elim
  | step _ hq hr ih => exact .step ih hq ⟨hr.2.1, hr.2.2.1⟩

private theorem Request.WritesOrReads.path_eq {r : Request} (h : r.WritesOrReads path) :
    r.path = some path := by
  cases r with
  | writeSync buffer | writeAsync buffer => exact h
  | cat path' => exact congrArg some h
  | rm path' => exact h.elim

variable [Fintype T]

/-- While a request reads in a settled run, every write that has released its lock has closed
its file. -/
theorem FileRun.closed_of_read (h : FileRun Settled requests contents log qs w)
    (hpath : ∀ t, (requests t).WritesOrReads path) {c t : T}
    (hc : (progress (own c log)).held = some .read)
    (ht : (progress (own t log)).released = true) :
    (progress (own t log)).stream = .closed := by
  induction h generalizing c t with
  | start => cases hc
  | silent _ hs _ => exact hs.elim
  | @step log qs u v s o k r hprev hq hr ih =>
    have hwritten := FileRun.written hprev hpath
    have horder := FileRun.inOrder (.step hprev hq hr) hpath
    rw [progress_own_concat] at hc ht
    have hclosed : (progress (own t log)).stream = .closed → (progress (own t
        (log ++ [(s, ⟨o, r⟩)]))).stream = .closed := by
      intro hs
      rw [progress_own_concat]
      split
      · next hst =>
        subst hst
        exact Progress.closed_after (hwritten.valid _) horder hs
      · exact hs
    have hreleased : (progress (own t log)).released = true ∨
        s = t ∧ ∃ i, o = .release .write i := by
      split at ht
      · next hst => exact (Progress.released_of_after ht).imp_right (fun hi ↦ ⟨hst, hi⟩)
      · exact .inl ht
    have hheld : (progress (own c log)).held = some .read ∨ ∃ i, o = .acquire .read i := by
      split at hc
      · next hsc =>
        subst hsc
        exact Progress.held_of_after hc
      · exact .inl hc
    obtain hheld | ⟨i, rfl⟩ := hheld
    · obtain hreleased | ⟨rfl, i, rfl⟩ := hreleased
      · exact hclosed (ih hheld hreleased)
      · -- A write that releases its lock has been alone with it.
        obtain ⟨hwrite, -⟩ := of_decide_eq_true horder
        have hne : s ≠ c := by
          rintro rfl
          rw [hheld] at hwrite
          cases hwrite
        rw [progress_held] at hheld hwrite
        obtain ⟨hread, -⟩ := one_at_a_time_of_one_entry (FileRun.requestRun hprev) s c path _ _ hne
          (hpath s).path_eq (hpath c).path_eq hwrite hheld
        cases hread
    · -- The lock is taken for reading while no file is open.
      have hrel : (progress (own t log)).released = true := by
        obtain hrel | ⟨-, _, ho⟩ := hreleased
        · exact hrel
        · cases ho
      refine hclosed ((hwritten.valid t).closed_of_not_opened hrel (fun text hs ↦ ?_))
      exact hr.1 t text ((hwritten.streams t).trans hs)

/-- In every interleaving of writes and `cat`s on one path that share one lock, in which a lock
is taken for reading only while no file is open and the naming server is told only by requests
that have closed their file, finished writes are visible. -/
theorem visible_of_settled (h : FileRun Settled requests contents log qs w)
    (hpath : ∀ t, (requests t).WritesOrReads path) : Visible log w.2.contents := by
  have hwritten := FileRun.written h hpath
  have hsaved : ∀ t, (progress (own t log)).stream = .closed →
      Saved (progress (own t log)) w.2.contents := by
    intro t hs
    exact ⟨(hwritten.valid t).released ((hwritten.valid t).closed hs), hwritten.stored t hs⟩
  constructor
  · intro c hc t ht
    exact hsaved t (FileRun.closed_of_read h hpath hc ht)
  · intro t ht
    exact hsaved t (hwritten.acknowledged t ht)

end Runs

/-! ### A write and a `cat` -/

/-- A synchronous write of `x` to `./s/f`, and a `cat` of it. -/
private def writeAndCat : Bool → Request
  | true => .writeSync (lit "WRITE_SYNC|./s/f|x")
  | false => .cat (lit "./s/f")

private theorem writeAndCat_path : ∀ t, (writeAndCat t).WritesOrReads (lit "./s/f")
  | true => show (tokens bar (lit "WRITE_SYNC|./s/f|x"))[1]? = some (lit "./s/f") by decide
  | false => rfl

theorem FileRun.step {allowed : T → SsOp → DataFile T → Prop} {requests : T → Request}
    {contents : Text} {log : List (T × SsEvent)} {qs : T → SsProg Unit}
    {table table' : List LockStruct} {d : DataFile T}
    (h : FileRun allowed requests contents log qs (table, d)) (t : T) (o : SsOp) (r : o.Res)
    (d' : DataFile T) {k : o.Res → SsProg Unit} (hq : qs t = .perform o k) (ho : allowed t o d)
    (hnew : NoneYet o table) (htable : tableRespond o r table table')
    (hfile : fileRespond t o r d d') : FileRun allowed requests contents (log ++ [(t, ⟨o, r⟩)])
      (Function.update qs t (k r)) (table', d') :=
  Interleaved.step h hq ⟨ho, hnew, htable, hfile⟩

/-- The write is done and has told the naming server, and the `cat` reads. -/
theorem visible_after_write :
    ∃ log qs w, FileRun Settled writeAndCat [] log qs w ∧
      (progress (own true log)).notified = true ∧ (progress (own false log)).held = some .read ∧
      Visible log w.2.contents := by
  let path := lit "./s/f"
  have h₀ : FileRun Settled writeAndCat [] [] _ ([], ⟨[], fun _ ↦ .unopened⟩) := .start
  have h₁ := h₀.step true (.lookup path) none _ rfl trivial trivial ⟨rfl, rfl⟩ rfl
  have h₂ := h₁.step true (.create path) (0 : Nat) _ rfl trivial List.not_mem_nil
    ⟨rfl, by decide, rfl⟩ rfl
  have h₃ := h₂.step true (.acquire .write 0) () _ rfl trivial trivial ⟨_, _, rfl, rfl, rfl⟩ rfl
  have h₄ := h₃.step true (.fopen path) true _ rfl trivial trivial rfl rfl
  have h₅ := h₄.step true (.fprintf (lit "x\n")) () _ rfl trivial trivial rfl ⟨_, rfl, rfl⟩
  have h₆ := h₅.step true (.release .write 0) () _ rfl trivial trivial ⟨_, rfl, rfl⟩ rfl
  have h₇ := h₆.step true .fclose () _ rfl trivial trivial rfl ⟨_, rfl, rfl⟩
  have h₈ := h₇.step true (.send _) true _ rfl trivial trivial rfl rfl
  have h₉ := h₈.step true (.notify _) true _ rfl rfl trivial rfl rfl
  have h₁₀ := h₉.step false (.lookup path) (some (0 : Nat)) _ rfl trivial trivial
    ⟨by decide, rfl⟩ rfl
  have h₁₁ := h₁₀.step false (.acquire .read 0) () _ rfl (by rintro (_ | _) _ hs <;> cases hs)
    trivial ⟨_, _, rfl, rfl, rfl⟩ rfl
  exact ⟨_, _, _, h₁₁, rfl, rfl, visible_of_settled h₁₁ writeAndCat_path⟩

/-- The write has released its lock, and its file is still open: a `cat` that takes the lock now
reads a file without the data. -/
theorem released_write_is_invisible :
    ¬ ∀ (requests : Bool → Request) (path contents : Text) (log : List (Bool × SsEvent))
      (qs : Bool → SsProg Unit) (w : List LockStruct × DataFile Bool),
      FileRun (fun _ _ _ ↦ True) requests contents log qs w →
      (∀ t, (requests t).WritesOrReads path) → Visible log w.2.contents := by
  intro hall
  let path := lit "./s/f"
  have h₀ : FileRun (fun _ _ _ ↦ True) writeAndCat [] [] _ ([], ⟨[], fun _ ↦ .unopened⟩) := .start
  have h₁ := h₀.step true (.lookup path) none _ rfl trivial trivial ⟨rfl, rfl⟩ rfl
  have h₂ := h₁.step true (.create path) (0 : Nat) _ rfl trivial List.not_mem_nil
    ⟨rfl, by decide, rfl⟩ rfl
  have h₃ := h₂.step true (.acquire .write 0) () _ rfl trivial trivial ⟨_, _, rfl, rfl, rfl⟩ rfl
  have h₄ := h₃.step true (.fopen path) true _ rfl trivial trivial rfl rfl
  have h₅ := h₄.step true (.fprintf (lit "x\n")) () _ rfl trivial trivial rfl ⟨_, rfl, rfl⟩
  have h₆ := h₅.step true (.release .write 0) () _ rfl trivial trivial ⟨_, rfl, rfl⟩ rfl
  have h₇ := h₆.step false (.lookup path) (some (0 : Nat)) _ rfl trivial trivial
    ⟨by decide, rfl⟩ rfl
  have h₈ := h₇.step false (.acquire .read 0) () _ rfl trivial trivial ⟨_, _, rfl, rfl, rfl⟩ rfl
  obtain ⟨hne, hin⟩ := (hall _ _ _ _ _ _ h₈ writeAndCat_path).read false rfl true rfl
  exact hne (List.infix_nil.mp hin)

end NetworkFileSystem.Storage
