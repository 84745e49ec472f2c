import NetworkFileSystem.Base.Typestate
import NetworkFileSystem.Lock.Exclusion
import NetworkFileSystem.Storage.Entries
import NetworkFileSystem.Storage.Requests

/-!
# The table of locks

`storage_server.c:21–480`. Requests run side by side on `conc_array`. Each follows the
same discipline: it takes one lock, and gives that lock back unless the file could not
be opened for writing, where both write handlers return with the lock held. So the
entries of the table are locks in the sense of `Lock.Exclusion`, and when no request is
in progress they are free exactly if no such `fopen` has failed.
-/

namespace NetworkFileSystem.Storage

open Base Lock Prog

/-! ### Runs -/

/-- The operations on the table: an acquire returns when its loop condition fails, and there is
no new entry behind the last one of the array. All else may have any outcome. -/
def tableRespond : (o : SsOp) → o.Res → List LockStruct → List LockStruct → Prop
  | .lookup path, r, t, t' => r = t.findIdx? (·.pathToFile = path) ∧ t' = t
  | .create path, i, t, t' => i = t.length ∧ i < maxReq ∧ t' = t ++ [initLock path]
  | .acquire m i, _, t, t' =>
    ∃ l l', t[i]? = some l ∧ Lock.acquire m l = some l' ∧ t' = t.set i l'
  | .release m i, _, t, t' => ∃ l, t[i]? = some l ∧ t' = t.set i (Lock.release m l).1
  | _, _, t, t' => t' = t

/-- The table as the environment of the requests of the threads `T`. -/
def lockTable (T : Type) : SharedEnvironment T SsOp SsOp.Res (List LockStruct) where
  respond := fun _ ↦ tableRespond
  silent := fun _ _ ↦ False

variable {T : Type} [DecidableEq T]

/-- The runs of requests on a table that is empty at first. -/
def RequestRun (requests : T → Request) (log : List (T × SsEvent)) (qs : T → SsProg Unit)
    (table : List LockStruct) : Prop :=
  Interleaved (lockTable T) (fun t ↦ (requests t).program) [] log qs table

/-- No request is in progress: each has not begun or has come to its end. -/
def Quiescent (log : List (T × SsEvent)) (qs : T → SsProg Unit) : Prop :=
  ∀ t, own t log = [] ∨ qs t = .ret ()

/-- Nobody has the lock, so any acquire of it returns. -/
def Returned (table : List LockStruct) : Prop :=
  ∀ l ∈ table, l.readers = 0 ∧ l.isWriting = 0 ∧ l.isDeleting = 0 ∧
    ∀ m, (Lock.acquire m l).isSome = true

/-! ### The discipline of a request -/

/-- The lock that a request holds, and whether it has failed to open its file for writing. -/
structure Hold where
  held : Option (Mode × Nat)
  failed : Bool

namespace Hold

/-- A request that has not begun. -/
def start : Hold := ⟨none, false⟩

/-- A request takes a lock while it holds none, and gives back the one it holds. -/
def next (s : Hold) : SsEvent → Option Hold
  | ⟨.acquire m i, _⟩ => if s.held = none then some { s with held := some (m, i) } else none
  | ⟨.release m i, _⟩ => if s.held = some (m, i) then some { s with held := none } else none
  | ⟨.fopen _, false⟩ => some { s with failed := true }
  | _ => some s

/-- At the end a lock is held exactly if the file could not be opened. -/
def Ended (s : Hold) : Prop := s.held.isSome = s.failed

end Hold

/-- The requests follow the discipline with the postcondition `Q`. -/
private abbrev Keeps {α : Type} (Q : Hold → Prop) (s : Hold) (p : SsProg α) : Prop :=
  Follows Hold.next (fun _ ↦ Q) s p

private theorem keeps_lockIndex (s : Hold) (path : Text) : Keeps (· = s) s (lockIndex path) := by
  refine follows_step s (fun _ ↦ rfl) (fun r ↦ ?_)
  cases r with
  | none => exact fun i ↦ ⟨s, rfl, rfl⟩
  | some i => exact rfl

private theorem keeps_plain {α : Type} {p : SsProg α} (hp : p.Only (·.isPlain = true)) (s : Hold) :
    Keeps (· = s) s p := by
  refine hp.follows (fun o x ho ↦ ?_)
  cases o with
  | acquire | release | fopen => cases ho
  | _ => rfl

/-- `fopen` decides whether the lock is given back. -/
private theorem keeps_fopen {path : Text} {α : Type} {f : Bool → SsProg α} {Q : Hold → Prop}
    {m : Mode × Nat} (hopened : Keeps Q ⟨some m, false⟩ (f true))
    (hfailed : Keeps Q ⟨some m, true⟩ (f false)) :
    Keeps Q ⟨some m, false⟩ (perform (.fopen path) >>= f) := by
  refine follows_call (fun r ↦ ?_)
  cases r with
  | false => exact ⟨_, rfl, hfailed⟩
  | true => exact ⟨_, rfl, hopened⟩

private theorem keeps_writeFile (command : Text) : Keeps Hold.Ended .start (writeFile command) := by
  refine follows_ofOption (fun path _ ↦ follows_seq (keeps_lockIndex _ path) (fun i ↦ ?_))
  refine follows_step ⟨some (.write, i), false⟩ (fun _ ↦ rfl) (fun _ ↦ keeps_fopen ?_ ?_)
  · refine follows_ofOption (fun data _ ↦ follows_step _ (fun _ ↦ rfl) (fun _ ↦ ?_))
    refine follows_step Hold.start (fun _ ↦ if_pos rfl) (fun _ ↦ ?_)
    exact follows_step Hold.start (fun _ ↦ rfl) (fun _ ↦ rfl)
  · exact rfl

private theorem keeps_writeFileAsync (command : Text) :
    Keeps Hold.Ended .start (writeFileAsync command) := by
  refine follows_step Hold.start (fun _ ↦ rfl) (fun _ ↦ follows_ofOption (fun path _ ↦ ?_))
  refine follows_seq (keeps_lockIndex _ path) (fun i ↦ ?_)
  refine follows_step ⟨some (.write, i), false⟩ (fun _ ↦ rfl) (fun _ ↦ keeps_fopen ?_ ?_)
  · refine follows_ofOption (fun ip _ ↦ follows_ofOption (fun port _ ↦ ?_))
    refine follows_ofOption (fun data _ ↦ ?_)
    refine follows_step _ (fun _ ↦ rfl) (fun array ↦ follows_ofOption (fun blocks _ ↦ ?_))
    refine follows_seq (keeps_plain (plain_printBlocks blocks) _) (fun _ ↦ ?_)
    refine follows_step Hold.start (fun _ ↦ if_pos rfl) (fun _ ↦ ?_)
    refine follows_seq (keeps_plain (plain_sendAckToNm _) _) (fun _ ↦ ?_)
    exact follows_step Hold.start (fun _ ↦ rfl) (fun _ ↦ rfl)
  · exact follows_step _ (fun _ ↦ rfl) (fun _ ↦ rfl)

/-- Every request takes at most one lock and gives it back unless `fopen` has failed. -/
theorem follows_program (r : Request) :
    Follows Hold.next (fun _ ↦ Hold.Ended) .start r.program := by
  cases r with
  | writeSync buffer =>
    refine follows_bind (keeps_writeFile buffer) (fun buffer2 s hs ↦ ?_)
    refine follows_step s (fun _ ↦ rfl) (fun _ ↦ ?_)
    exact (keeps_plain (plain_sendAckToNm buffer) s).mono (fun _ _ hs' ↦ hs' ▸ hs)
  | writeAsync buffer => exact keeps_writeFileAsync buffer
  | cat path =>
    refine follows_seq (keeps_lockIndex _ path) (fun i ↦ ?_)
    refine follows_step ⟨some (.read, i), false⟩ (fun _ ↦ rfl) (fun _ ↦ ?_)
    refine follows_seq (keeps_plain (plain_readFile path) _) (fun _ ↦ ?_)
    exact follows_step Hold.start (fun _ ↦ if_pos rfl) (fun _ ↦ rfl)
  | rm path =>
    refine follows_seq (keeps_lockIndex _ path) (fun i ↦ ?_)
    refine follows_step ⟨some (.delete, i), false⟩ (fun _ ↦ rfl) (fun _ ↦ ?_)
    refine follows_step _ (fun _ ↦ rfl) (fun removed ↦ ?_)
    refine follows_step Hold.start (fun _ ↦ if_pos rfl) (fun _ ↦ ?_)
    exact follows_step Hold.start (fun _ ↦ rfl) (fun _ ↦ rfl)

private theorem failed_of_next {s s' : Hold} {e : SsEvent} (h : s.next e = some s') :
    s'.failed = true ↔ s.failed = true ∨ ∃ path, e = ⟨.fopen path, false⟩ := by
  obtain ⟨o, r⟩ := e
  cases o with
  | acquire m i | release m i =>
    simp only [Hold.next, Option.ite_none_right_eq_some, Option.some.injEq] at h
    obtain ⟨-, rfl⟩ := h
    simp
  | fopen path =>
    cases r with
    | false =>
      cases h
      simp
    | true =>
      cases h
      simp
  | _ =>
    cases h
    simp

/-- The automaton remembers whether an `fopen` has failed. -/
private theorem failed_of_stateAfter {tr : List SsEvent} {s s' : Hold}
    (h : stateAfter Hold.next s tr = some s') :
    s'.failed = true ↔ s.failed = true ∨ ∃ path, (⟨.fopen path, false⟩ : SsEvent) ∈ tr := by
  induction tr generalizing s with
  | nil =>
    cases h
    simp
  | cons e tr ih =>
    obtain ⟨s₁, hs₁, hrest⟩ := Option.bind_eq_some_iff.mp h
    rw [ih hrest, failed_of_next hs₁, or_assoc, ← exists_or]
    simp only [List.mem_cons, eq_comm]

/-! ### Holders -/

/-- The phase with respect to lock `i` of a request that holds the given lock. -/
def phaseAt (i : Nat) : Option (Mode × Nat) → Phase
  | some (m, j) => if j = i then .holding m else .idle
  | none => .idle

private theorem phases_update (held : T → Option (Mode × Nat)) (t : T) (x : Option (Mode × Nat))
    (i : Nat) : (fun u ↦ phaseAt i (Function.update held t x u)) =
      Function.update (fun u ↦ phaseAt i (held u)) t (phaseAt i x) := by
  funext u
  by_cases hu : u = t
  · subst hu
    simp
  · simp [Function.update_of_ne hu]

/-- Only the phases for the lock that a request takes or gives back change. -/
private theorem phases_same {held : T → Option (Mode × Nat)} {t : T} {x : Option (Mode × Nat)}
    {i : Nat} (h : phaseAt i x = phaseAt i (held t)) :
    (fun u ↦ phaseAt i (Function.update held t x u)) = fun u ↦ phaseAt i (held u) := by
  rw [phases_update, h]
  exact Function.update_eq_self t _

variable [Fintype T]

omit [DecidableEq T] in
/-- Every entry of the table is a lock whose holders are the requests that hold it. -/
structure Accounted (held : T → Option (Mode × Nat)) (table : List LockStruct) : Prop where
  exclusive : ∀ i l, table[i]? = some l → Exclusive (⟨l, fun t ↦ phaseAt i (held t)⟩ : Sys T)
  bound : ∀ t m i, held t = some (m, i) → i < table.length

namespace Accounted

variable {held : T → Option (Mode × Nat)} {table : List LockStruct} {t : T} {m : Mode} {i : Nat}
  {l l' : LockStruct}

private theorem bound_update (h : Accounted held table) {x : Option (Mode × Nat)}
    (hx : ∀ m j, x = some (m, j) → j < table.length) :
    ∀ u m j, Function.update held t x u = some (m, j) → j < (table.set i l).length := by
  intro u m j hu
  rw [List.length_set]
  by_cases hut : u = t
  · subst hut
    rw [Function.update_self] at hu
    exact hx m j hu
  · rw [Function.update_of_ne hut] at hu
    exact h.bound u m j hu

/-- A request changes what it holds at one lock, and the other locks do not see it. -/
private theorem of_set (h : Accounted held table) (hl : table[i]? = some l)
    {x : Option (Mode × Nat)} (hothers : ∀ j, i ≠ j → phaseAt j x = phaseAt j (held t))
    (hbound : ∀ m j, x = some (m, j) → j < table.length)
    (hlock : Exclusive ⟨l', Function.update (fun u ↦ phaseAt i (held u)) t (phaseAt i x)⟩) :
    Accounted (Function.update held t x) (table.set i l') := by
  have hlen := (List.getElem?_eq_some_iff.mp hl).1
  refine ⟨fun j lj hj ↦ ?_, h.bound_update hbound⟩
  by_cases hij : i = j
  · subst hij
    rw [List.getElem?_set_self hlen] at hj
    cases hj
    rw [phases_update]
    exact hlock
  · rw [List.getElem?_set_ne hij] at hj
    rw [phases_same (hothers j hij)]
    exact h.exclusive j lj hj

private theorem of_acquire (h : Accounted held table) (hheld : held t = none)
    (hl : table[i]? = some l) (hl' : Lock.acquire m l = some l') :
    Accounted (Function.update held t (some (m, i))) (table.set i l') := by
  refine h.of_set hl (fun j hij ↦ by simp [hheld, phaseAt, hij]) (fun m' j hj ↦ ?_) ?_
  · cases hj
    exact (List.getElem?_eq_some_iff.mp hl).1
  · rw [phaseAt, if_pos rfl]
    exact (h.exclusive i l hl).of_acquire (.inl (by simp [hheld, phaseAt])) hl'

private theorem of_release (h : Accounted held table) (hheld : held t = some (m, i))
    (hl : table[i]? = some l) :
    Accounted (Function.update held t none) (table.set i (Lock.release m l).1) := by
  refine h.of_set hl (fun j hij ↦ by simp [hheld, phaseAt, hij]) (fun m' j hj ↦ ?_) ?_
  · cases hj
  · exact (h.exclusive i l hl).of_release (by simp [hheld, phaseAt]) rfl

omit [DecidableEq T] in
/-- A new entry is a lock without holders. -/
private theorem of_create (h : Accounted held table) (path : Text) :
    Accounted held (table ++ [initLock path]) := by
  constructor
  · intro i l hi
    rw [List.getElem?_append] at hi
    split at hi
    · exact h.exclusive i l hi
    · next hlen =>
      rw [List.getElem?_singleton] at hi
      split at hi
      · cases hi
        refine .of_initial ⟨⟨path, rfl⟩, fun t ↦ ?_⟩
        change phaseAt i (held t) = .idle
        cases ht : held t with
        | none => rfl
        | some x =>
          have hx := h.bound t x.1 x.2 ht
          exact if_neg (by omega)
      · cases hi
  · intro t m i ht
    have hi := h.bound t m i ht
    rw [List.length_append]
    omega

/-- An operation that the discipline allows keeps the account. -/
theorem step {st : T → Hold} {table' : List LockStruct}
    (h : Accounted (fun t ↦ (st t).held) table) {o : SsOp} {r : o.Res} {s' : Hold}
    (hs : (st t).next ⟨o, r⟩ = some s') (hr : tableRespond o r table table') :
    Accounted (fun u ↦ (Function.update st t s' u).held) table' := by
  have hheld : (fun u ↦ (Function.update st t s' u).held) =
      Function.update (fun u ↦ (st u).held) t s'.held := by
    funext u
    by_cases hu : u = t
    · subst hu
      simp
    · simp [Function.update_of_ne hu]
  have hsame : s'.held = (st t).held → (fun u ↦ (Function.update st t s' u).held) =
      fun u ↦ (st u).held := by
    intro he
    rw [hheld, he]
    exact Function.update_eq_self t _
  cases o with
  | acquire m i =>
    simp only [Hold.next, Option.ite_none_right_eq_some, Option.some.injEq] at hs
    obtain ⟨hnone, rfl⟩ := hs
    obtain ⟨l, l', hl, hl', rfl⟩ := hr
    rw [hheld]
    exact h.of_acquire hnone hl hl'
  | release m i =>
    simp only [Hold.next, Option.ite_none_right_eq_some, Option.some.injEq] at hs
    obtain ⟨hsome, rfl⟩ := hs
    obtain ⟨l, hl, rfl⟩ := hr
    rw [hheld]
    exact h.of_release hsome hl
  | create path =>
    cases hs
    obtain ⟨-, -, rfl⟩ := hr
    rw [hsame rfl]
    exact h.of_create path
  | lookup path =>
    cases hs
    obtain ⟨-, rfl⟩ := hr
    rw [hsame rfl]
    exact h
  | fopen path =>
    obtain rfl : table' = table := hr
    cases r with
    | false =>
      cases hs
      rw [hsame rfl]
      exact h
    | true =>
      cases hs
      rw [hsame rfl]
      exact h
  | _ =>
    cases hs
    obtain rfl : table' = table := hr
    rw [hsame rfl]
    exact h

omit [DecidableEq T] in
/-- Without holders all locks are free. -/
private theorem returned (h : Accounted held table) (hnone : ∀ t, held t = none) :
    Returned table := by
  intro l hl
  obtain ⟨i, hi⟩ := List.getElem?_of_mem hl
  have hempty : ∀ m, (holders (fun t ↦ phaseAt i (held t)) m).card = 0 := by
    intro m
    simp [holders, hnone, phaseAt]
  have hex := h.exclusive i l hi
  have hr := hex.readers
  have hw := hex.writing
  have hd := hex.deleting
  simp only [hempty] at hr hw hd
  refine ⟨hr, hw, hd, fun m ↦ ?_⟩
  cases m <;> simp [Lock.acquire, acquireReadLock, acquireWriteLock, acquireDeleteLock, hr, hw, hd]

omit [DecidableEq T] in
/-- A lock with a holder is not free. -/
private theorem not_returned (h : Accounted held table) (ht : held t = some (m, i)) :
    ¬ Returned table := by
  intro hret
  have hlt := h.bound t m i ht
  have hl : table[i]? = some table[i] := List.getElem?_eq_getElem hlt
  have hex := h.exclusive i _ hl
  have hmem : t ∈ holders (fun t ↦ phaseAt i (held t)) m := by
    simp [mem_holders, ht, phaseAt]
  have hcard : (holders (fun t ↦ phaseAt i (held t)) m).card ≠ 0 := Finset.card_ne_zero_of_mem hmem
  obtain ⟨hr, hw, hd, -⟩ := hret _ (List.getElem_mem hlt)
  have hr' := hex.readers
  have hw' := hex.writing
  have hd' := hex.deleting
  simp only at hr' hw' hd'
  cases m with
  | read => omega
  | write => omega
  | delete => omega

end Accounted

/-! ### The result -/

/-- In every run each request follows the discipline, and the table accounts for the holders. -/
theorem RequestRun.accounted {requests : T → Request} {log : List (T × SsEvent)}
    {qs : T → SsProg Unit} {table : List LockStruct} (h : RequestRun requests log qs table) :
    ∃ st : T → Hold, Accounted (fun t ↦ (st t).held) table ∧
      ∀ t, Follows Hold.next (fun _ ↦ Hold.Ended) (st t) (qs t) ∧
        stateAfter Hold.next .start (own t log) = some (st t) :=
  Interleaved.follows h (I := fun st table ↦ Accounted (fun t ↦ (st t).held) table)
    (fun t ↦ follows_program (requests t)) ⟨by simp, by simp [Hold.start]⟩
    (fun _ _ _ _ hs ↦ hs.elim) (fun _ _ _ _ _ _ _ hI hs hr ↦ hI.step hs hr)

/-- For all requests and interleavings: when no request is in progress, all locks of the table
are free if and only if no `fopen` of a write has failed. -/
theorem locks_returned_iff_opened {requests : T → Request} {log : List (T × SsEvent)}
    {qs : T → SsProg Unit} {table : List LockStruct} (h : RequestRun requests log qs table)
    (hq : Quiescent log qs) :
    Returned table ↔ ∀ t path, (t, (⟨.fopen path, false⟩ : SsEvent)) ∉ log := by
  obtain ⟨st, hacc, hst⟩ := h.accounted
  have hended : ∀ t, (st t).held.isSome = (st t).failed := by
    intro t
    obtain ⟨hfollows, hafter⟩ := hst t
    obtain hown | hret := hq t
    · rw [hown] at hafter
      rw [← Option.some.inj hafter]
      rfl
    · rw [hret] at hfollows
      exact hfollows
  have hfailed : ∀ t, (st t).failed = true ↔ ∃ path, (t, (⟨.fopen path, false⟩ : SsEvent)) ∈ log := by
    intro t
    rw [failed_of_stateAfter (hst t).2]
    simp only [Hold.start, Bool.false_eq_true, false_or, mem_own]
  constructor
  · intro hret t path hm
    have hsome : (st t).held.isSome = true := by rw [hended, hfailed]; exact ⟨path, hm⟩
    obtain ⟨⟨m, i⟩, hheld⟩ := Option.isSome_iff_exists.mp hsome
    exact hacc.not_returned hheld hret
  · intro hall
    refine hacc.returned (fun t ↦ ?_)
    have hno : (st t).failed ≠ true := by
      rw [Ne, hfailed]
      rintro ⟨path, hm⟩
      exact hall t path hm
    rw [← hended] at hno
    simpa using hno

/-- A write to `./s/f`, and a `cat` of it. -/
private def writeAndRead : Bool → Request
  | true => .writeSync (lit "WRITE_SYNC|./s/f|x")
  | false => .cat (lit "./s/f")

private theorem Quiescent.of_both {log : List (Bool × SsEvent)} {qs : Bool → SsProg Unit}
    (htrue : qs true = .ret ()) (hfalse : qs false = .ret ()) : Quiescent log qs := by
  intro t
  cases t with
  | true => exact .inr htrue
  | false => exact .inr hfalse

/-- The `cat` finds the lock that the write has made and taken, gets it after the write, and reads
what was written. -/
theorem locks_returned_after_write_and_read :
    ∃ log qs table, RequestRun writeAndRead log qs table ∧
      (own true log).map Sigma.fst = [.lookup (lit "./s/f"), .create (lit "./s/f"),
        .acquire .write 0, .fopen (lit "./s/f"), .fprintf (lit "x\n"), .release .write 0, .fclose,
        .send (lit "Data written successfully\n"), .notify (lit "WRITE_SYNC|./s/f|x")] ∧
      (own false log).map Sigma.fst = [.lookup (lit "./s/f"), .acquire .read 0,
        .openRead (lit "./s/f"), .send (lit "x\n"), .release .read 0] ∧
      Quiescent log qs ∧ table.length = 1 ∧ Returned table := by
  have h₀ : RequestRun writeAndRead [] _ [] := .start
  have h₁ := Interleaved.step h₀ (t := true) (r := none) rfl ⟨rfl, rfl⟩
  have h₂ := Interleaved.step h₁ (t := true) (r := (0 : Nat)) rfl ⟨rfl, by decide, rfl⟩
  have h₃ := Interleaved.step h₂ (t := true) (r := ()) rfl ⟨_, _, rfl, rfl, rfl⟩
  have h₄ := Interleaved.step h₃ (t := false) (r := some (0 : Nat)) rfl ⟨by decide, rfl⟩
  have h₅ := Interleaved.step h₄ (t := true) (r := true) rfl rfl
  have h₆ := Interleaved.step h₅ (t := true) (r := ()) rfl rfl
  have h₇ := Interleaved.step h₆ (t := true) (r := ()) rfl ⟨_, rfl, rfl⟩
  have h₈ := Interleaved.step h₇ (t := false) (r := ()) rfl ⟨_, _, rfl, rfl, rfl⟩
  have h₉ := Interleaved.step h₈ (t := true) (r := ()) rfl rfl
  have h₁₀ := Interleaved.step h₉ (t := false) (r := some [lit "x\n"]) rfl rfl
  have h₁₁ := Interleaved.step h₁₀ (t := false) (r := true) rfl rfl
  have h₁₂ := Interleaved.step h₁₁ (t := true) (r := true) rfl rfl
  have h₁₃ := Interleaved.step h₁₂ (t := true) (r := true) rfl rfl
  have h₁₄ := Interleaved.step h₁₃ (t := false) (r := ()) rfl ⟨_, rfl, rfl⟩
  refine ⟨_, _, _, h₁₄, rfl, rfl, .of_both rfl rfl, rfl,
    (locks_returned_iff_opened h₁₄ (.of_both rfl rfl)).mpr ?_⟩
  simp

/-- The file of a synchronous write cannot be opened: the request ends, and its lock stays
taken. -/
theorem unopened_write_keeps_lock :
    ¬ ∀ (requests : Unit → Request) (log : List (Unit × SsEvent)) (qs : Unit → SsProg Unit)
      (table : List LockStruct), RequestRun requests log qs table → Quiescent log qs →
      Returned table := by
  intro hall
  have h₀ : RequestRun (fun _ : Unit ↦ Request.writeSync (lit "WRITE_SYNC|./s|x")) [] _ [] := .start
  have h₁ := Interleaved.step h₀ (t := ()) (r := none) rfl ⟨rfl, rfl⟩
  have h₂ := Interleaved.step h₁ (t := ()) (r := (0 : Nat)) rfl ⟨rfl, by decide, rfl⟩
  have h₃ := Interleaved.step h₂ (t := ()) (r := ()) rfl ⟨_, _, rfl, rfl, rfl⟩
  have h₄ := Interleaved.step h₃ (t := ()) (r := false) rfl rfl
  have h₅ := Interleaved.step h₄ (t := ()) (r := true) rfl rfl
  have h₆ := Interleaved.step h₅ (t := ()) (r := true) rfl rfl
  obtain ⟨-, hw, -⟩ := hall _ _ _ _ h₆ (fun _ ↦ .inr rfl) _ List.mem_cons_self
  exact absurd hw (by decide)

end NetworkFileSystem.Storage
