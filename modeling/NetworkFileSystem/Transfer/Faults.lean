import NetworkFileSystem.Transfer.Exact

/-!
# Copies that go wrong

`helper.c:835–1076`. The receiver acknowledges the size of a file before it opens its own, and
returns to its main loop if it cannot; the sender sends all of the file, whatever size it has
announced. What this means for the two programs, and when they stay in step.
-/

namespace NetworkFileSystem.Transfer

open Base Protocol Storage

/-- Copies to a disk of which nothing is known. `fails n` tells whether a file of the announced
size `n` may fail to be opened, and `changes` how a file may change after `fstat`. -/
def unreliable (source : Text → Option Node) (fails : Int → Prop)
    (changes : Text → Text → Prop) : Setting Unit where
  source := source
  changes := changes
  mkdir := fun _ _ _ _ ↦ True
  fopen := fun _ n r _ _ ↦ r = true ∨ fails n
  write := fun _ _ r _ _ ↦ r = true

/-- The two programs of a copy, and what they share. -/
abbrev CopyState : Type :=
  Duet.State SendOp RecvOp SendOp.Res RecvOp.Res (World Unit) Text Unit

/-- What the main loop takes for one of its commands. -/
def Obeyed (x : Packet) : Prop :=
  startsWith (lit "END\n") (cstr x.bytes) = true ∨ startsWith (lit "FILE ") (cstr x.bytes) = true ∨
    startsWith (lit "DIR ") (cstr x.bytes) = true

/-- The sender waits in `receive_ack`, the receiver in `recv`, and nothing is in flight. -/
def Deadlocked (s : CopyState) : Prop :=
  (∃ k, s.first = .perform .recv k) ∧
    ((∃ n k, s.second = .perform (.recv n) k) ∨ ∃ k, s.second = .perform .recvCommand k) ∧
    s.world.Idle

/-- Only lines are obeyed, and the programs do not wait for each other. -/
structure Orderly (s : CopyState) : Prop where
  commands : ∀ x ∈ s.world.commands, Obeyed x → ∃ t, x = .line t
  goesOn : ¬ Deadlocked s

/-- Every state of a copy is orderly, given the fuel for it. -/
def StaysOrderly (S : Setting Unit) (buffer : Text) (lcopy : Bool) : Prop :=
  ∃ N, ∀ fuel ≥ N, ∀ g ≥ N, ∀ s : CopyState,
    Relation.ReflTransGen S.duet.Step
      ⟨copyDifferentSrc fuel buffer lcopy, copyDifferentDest g, World.start ()⟩ s → Orderly s

section Runs

variable {S : Setting Unit} {s t : CopyState}

/-- What the main loop has got stays on record. -/
private theorem commands_of_step (h : S.duet.Step s t) :
    ∀ x ∈ s.world.commands, x ∈ t.world.commands := by
  intro x hx
  obtain h | h := h
  · cases h with
    | perform hans =>
      obtain ⟨_, _, -, hw, -, -⟩ := Setting.answerSend_spec hans
      rw [hw]
      exact hx
  · cases h with
    | perform hans =>
      obtain ⟨_, _, hw, -⟩ := Setting.answerRecv_spec hans
      rw [hw]
      exact List.mem_append_left _ hx

private theorem commands_of_run (h : Relation.ReflTransGen S.duet.Step s t) :
    ∀ x ∈ s.world.commands, x ∈ t.world.commands := by
  induction h with
  | refl => exact fun x hx ↦ hx
  | tail _ hst ih => exact fun x hx ↦ commands_of_step hst x (ih x hx)

private theorem not_receives_nil {n : Nat} {x : Packet} {c : List Item} : ¬ Receives n [] x c := by
  intro h
  generalize hs : ([] : List Item) = d at h
  cases h with
  | line _ => cases hs
  | cut _ => cases hs
  | @content u _ hne _ =>
    cases u with
    | nil => exact hne rfl
    | cons b u => cases hs

private theorem not_step_of_deadlocked (h : Deadlocked s) : ¬ S.duet.Step s t := by
  obtain ⟨p, q, w⟩ := s
  obtain ⟨⟨k, hfirst⟩, hsecond, hdown, hup⟩ := h
  dsimp only at hfirst hsecond hdown hup
  subst hfirst
  rintro (hstep | hstep)
  · cases hstep with
    | perform hans =>
      obtain ⟨rest, hrest, -⟩ := hans
      rw [hup] at hrest
      cases hrest
  · obtain ⟨n, k', rfl⟩ | ⟨k', rfl⟩ := hsecond
    · cases hstep with
      | perform hans =>
        obtain ⟨x, c, hc, -⟩ := hans
        rw [hdown] at hc
        exact not_receives_nil hc
    · cases hstep with
      | perform hans =>
        obtain ⟨x, c, hc, -⟩ := hans
        rw [hdown] at hc
        exact not_receives_nil hc

/-- Where every run ends well, every state on the way is orderly. -/
theorem orderly_of_leads {Q : Unit → Prop} {p : SendProg Text} {q : RecvProg Unit}
    {w : World Unit} (h : S.Leads (Finished Q) p q w)
    (hrun : Relation.ReflTransGen S.duet.Step ⟨p, q, w⟩ s) : Orderly s := by
  have hlater := Inevitable.later (S.finished_final Q) h hrun
  constructor
  · intro x hx _
    obtain ⟨t, ht, hfinished⟩ := hlater.reaches
    exact hfinished.commands x (commands_of_run ht x hx)
  · intro hdead
    cases hlater with
    | now hfinished =>
      obtain ⟨⟨k, hk⟩, -⟩ := hdead
      rw [hfinished.sender] at hk
      cases hk
    | next hsome _ =>
      obtain ⟨t, ht⟩ := hsome
      exact not_step_of_deadlocked hdead ht

end Runs

/-! ### Copies in step -/

/-- Copies in which only empty files fail to be opened and no file changes in length. -/
def faithful (source : Text → Option Node) : Setting Unit :=
  unreliable source (· ≤ 0) SameLength

section InStep

variable {source : Text → Option Node} {Q : Unit → Prop}

private theorem faithful_steady : (faithful source).Steady :=
  fun t ↦ ⟨⟨t, rfl⟩, fun _ h ↦ h⟩

private theorem faithful_writing {path t : Text} {fuel : Nat} (hQ : Q ()) :
    (faithful source).Writing path Q fuel t () := by
  induction fuel generalizing t with
  | zero => exact hQ
  | succ fuel ih =>
    unfold Setting.Writing
    split
    · exact hQ
    · exact ⟨⟨true, (), rfl⟩, fun r _ hr ↦ ⟨hr, ih⟩⟩

/-- A file is saved, or there is nothing of it to be missed. -/
private theorem faithful_saving {path t : Text} (hQ : Q ()) :
    (faithful source).Saving path t Q () := by
  refine ⟨⟨true, (), .inl rfl⟩, ?_⟩
  intro r d hopen
  split
  · exact faithful_writing hQ
  · next hr =>
    obtain hr' | hempty := hopen
    · exact absurd hr' hr
    · refine ⟨?_, hQ⟩
      exact List.length_eq_zero_iff.mp (by omega)

private theorem faithful_storing {target : Text → Text} {dir : Text} (l : Listing) (hQ : Q ()) :
    (faithful source).Storing target dir l Q () := by
  induction l generalizing dir Q with
  | done => exact hQ
  | file n t rest ih => exact fun t' _ ↦ faithful_saving (ih hQ)
  | folder n sub rest ihsub ih => exact ⟨⟨true, (), trivial⟩, fun r d _ ↦ ihsub (ih hQ)⟩

private theorem faithful_receiving {target : Text → Text} {path : Text} (node : Node) (hQ : Q ()) :
    (faithful source).Receiving target path node Q () := by
  cases node with
  | file t => exact fun t' _ ↦ faithful_saving hQ
  | folder l => exact ⟨⟨true, (), trivial⟩, fun r d _ ↦ faithful_storing l hQ⟩

/-- Where no file changes in length while it is sent, none but an empty one fails to be opened,
and every announcement fits the receiver's buffer, file contents are never taken for commands
and the programs never wait for each other. -/
theorem copy_stays_orderly {lcopy : Bool} {src pre name dest ip : Text} {port skip : Nat}
    {node : Node} (hsplit : src = pre ++ slash :: name) (hslash : slash ∉ name) (hname : name ≠ [])
    (hword : IsWord src) (hdest : dest ≠ []) (hdestWord : IsWord dest) (hip : ip ≠ [])
    (hipWord : IsWord ip) (hipLength : ip.length < 16)
    (hbuffer : (copyCommandText (copyVerb lcopy) src dest ip port).length < bufferSize)
    (hskip : lengthToSkip lcopy src dest node.kind = some skip)
    (hsource : node.Each (fun path n ↦ source path = some n) src)
    (hsent : ∀ p e, node.Has p e → Sent skip src p e) :
    StaysOrderly (faithful source) (copyCommandText (copyVerb lcopy) src dest ip port) lcopy := by
  have hlengths : src.length < bufferSize ∧ dest.length + 6 < bufferSize := by
    have hverb : 5 ≤ (copyVerb lcopy).length := by
      cases lcopy <;> decide
    rw [length_copyCommandText] at hbuffer
    omega
  have hskipLt : skip < src.length := skip_lt_length hsplit hslash hname hskip
  have hcopies : (faithful source).Copies
      (scanCopy ((fields (copyCommandText (copyVerb lcopy) src dest ip port)).drop 1))
      (lengthToSkip lcopy) true src dest skip node (fun _ ↦ True) () :=
    { scans := ⟨ip, scanCopy_copyCommandText (by cases lcopy <;> decide)
        (by cases lcopy <;> decide) hword (List.ne_nil_of_length_pos (by omega)) hdestWord hdest
        hipWord hip port, hipLength⟩
      skips := hskip
      announced := Node.announces_of_sent faithful_steady hword hskipLt hlengths.1 hsource hsent
      sendable := sendable_of_isWord hdestWord hdest (by simp [lit]; omega)
      destination := firstWord_of_isWord hdestWord
      made := ⟨true, (), trivial⟩
      received := fun r d _ ↦ faithful_receiving node trivial }
  refine ⟨max node.fuelFor (node.announcements + 1), fun fuel hfuel g hg s hrun ↦ ?_⟩
  exact orderly_of_leads (hcopies.leads (by omega) (by omega)) hrun

end InStep

/-- A disk with one file, whose contents look like a command. -/
private def keywordSource (path : Text) : Option Node :=
  if path = lit "./f" then some (.file (lit "END\n")) else none

/-- The file with a keyword is copied in step. -/
theorem copy_stays_orderly_keyword :
    StaysOrderly (faithful keywordSource)
      (copyCommandText (copyVerb false) (lit "./f") (lit "./x") (lit "10.0.0.2") 4000) false := by
  have hskip : lengthToSkip false (lit "./f") (lit "./x") Kind.file = some 2 := by decide
  have hsource : (Node.file (lit "END\n")).Each (fun path n ↦ keywordSource path = some n)
      (lit "./f") := ⟨by decide, trivial⟩
  apply copy_stays_orderly (show lit "./f" = lit "." ++ slash :: lit "f" by decide) (by decide)
    (by decide) (by decide) (by decide) (by decide) (by decide) (by decide) (by decide) (by decide)
    hskip hsource
  rintro p e ⟨rfl, rfl⟩
  refine ⟨by simp, by decide, ?_⟩
  rintro t ⟨⟩
  decide

/-! ### Copies out of step -/

section OutOfStep

variable {S : Setting Unit} {P : CopyState → Prop} {w w' : World Unit}

/-- Some run leads to a state of `P`. -/
private def MayReach (S : Setting Unit) (P : CopyState → Prop) (p : SendProg Text)
    (q : RecvProg Unit) (w : World Unit) : Prop :=
  ∃ s, Relation.ReflTransGen S.duet.Step ⟨p, q, w⟩ s ∧ P s

private theorem MayReach.sender {o : SendOp} {k : o.Res → SendProg Text} {q : RecvProg Unit}
    (r : o.Res) (hans : S.answerSend o r w w') (h : MayReach S P (k r) q w') :
    MayReach S P (sendCall o >>= k) q w := by
  obtain ⟨s, hrun, hs⟩ := h
  exact ⟨s, .head (.inl (.perform hans)) hrun, hs⟩

private theorem MayReach.receiver {o : RecvOp} {k : o.Res → RecvProg Unit} {p : SendProg Text}
    (r : o.Res) (hans : S.answerRecv o r w w') (h : MayReach S P p (k r) w') :
    MayReach S P p (recvCall o >>= k) w := by
  obtain ⟨s, hrun, hs⟩ := h
  exact ⟨s, .head (.inr (.perform hans)) hrun, hs⟩

end OutOfStep

/-- The receiver cannot open its file, say because a folder is in the place of it, and takes
the contents `END` for the end of the copy. -/
theorem contents_may_be_obeyed :
    ¬ StaysOrderly (unreliable keywordSource (fun _ ↦ True) (fun _ _ ↦ True))
      (copyCommandText (copyVerb false) (lit "./f") (lit "./x") (lit "10.0.0.2") 4000) false := by
  rintro ⟨N, h⟩
  have hscan : scanCopy ((fields (copyCommandText (copyVerb false) (lit "./f") (lit "./x")
      (lit "10.0.0.2") 4000)).drop 1) = some (lit "./f", lit "./x", lit "10.0.0.2") := by decide
  have hcontents : Receives (bufferSize - 1) ((lit "END\n").map .byte ++ [])
      (.content (lit "END\n")) [] := .content (by decide) (by decide)
  have hreach : MayReach (unreliable keywordSource (fun _ ↦ True) (fun _ _ ↦ True))
      (fun s ↦ Packet.content (lit "END\n") ∈ s.world.commands)
      (copyDifferentSrc (N + 1) (copyCommandText (copyVerb false) (lit "./f") (lit "./x")
        (lit "10.0.0.2") 4000) false)
      (copyDifferentDest (N + 2)) (World.start ()) := by
    unfold copyDifferentSrc copyDifferentDest copySource copyDest
    rw [hscan]
    refine MayReach.sender (o := .stat (lit "./f")) (some .file) ⟨rfl, by decide⟩ ?_
    refine MayReach.receiver (o := .sendAck) () rfl ?_
    refine MayReach.sender (o := .recv) ackText ⟨_, rfl, rfl⟩ ?_
    refine MayReach.sender (o := .send (.line (lit "DEST ./x\n"))) true ⟨rfl, rfl⟩ ?_
    refine MayReach.receiver (o := .recv (bufferSize - 1)) (lit "DEST ./x\n")
      ⟨_, _, .line (by decide), rfl, rfl⟩ ?_
    refine MayReach.receiver (o := .sendAck) () rfl ?_
    refine MayReach.receiver (o := .mkdir (lit "./x")) true ⟨(), trivial, rfl⟩ ?_
    refine MayReach.sender (o := .recv) ackText ⟨_, rfl, rfl⟩ ?_
    refine MayReach.sender (o := .openFile (lit "./f")) true
      (.inl ⟨lit "END\n", by decide, rfl, rfl⟩) ?_
    refine MayReach.sender (o := .fstat) (some 4) ⟨rfl, lit "END\n", trivial, rfl⟩ ?_
    refine MayReach.sender (o := .send (.line (lit "FILE f\n"))) true ⟨rfl, rfl⟩ ?_
    refine MayReach.receiver (o := .recvCommand) (lit "FILE f\n")
      ⟨_, _, .line (by decide), rfl, rfl⟩ ?_
    refine MayReach.receiver (o := .sendAck) () rfl ?_
    refine MayReach.sender (o := .recv) ackText ⟨_, rfl, rfl⟩ ?_
    refine MayReach.sender (o := .send (.line (lit "4\n"))) true ⟨rfl, rfl⟩ ?_
    refine MayReach.receiver (o := .recv (bufferSize - 1)) (lit "4\n")
      ⟨_, _, .line (by decide), rfl, rfl⟩ ?_
    refine MayReach.receiver (o := .sendAck) () rfl ?_
    refine MayReach.receiver (o := .fopen (lit "./x/f") 4) false ⟨(), .inr trivial, rfl⟩ ?_
    refine MayReach.sender (o := .recv) ackText ⟨_, rfl, rfl⟩ ?_
    refine MayReach.sender (o := .read 0) (lit "END\n") ⟨rfl, rfl⟩ ?_
    refine MayReach.sender (o := .send (.content (lit "END\n"))) true ⟨rfl, rfl⟩ ?_
    refine MayReach.receiver (o := .recvCommand) (lit "END\n")
      ⟨_, _, hcontents, rfl, rfl⟩ ?_
    exact ⟨_, .refl, by simp⟩
  obtain ⟨s, hrun, hs⟩ := hreach
  have horderly := h (N + 1) (by omega) (N + 2) (by omega) s hrun
  obtain ⟨t, ht⟩ := horderly.commands _ hs (.inl (by decide))
  cases ht

end NetworkFileSystem.Transfer
